import Mathlib
import Lowering.Build

/-!
# What declarations do to a symbol table

Each operation on a symbol table either refuses, with a cause, or succeeds, and this module says exactly which table
each leaves. Three of the four declarations check everything before they write, so a refused one leaves the table as
it was. `bindParameters` does not: it binds the parameters one by one and stops at the first whose name is already
bound, and the parameters before that one stay bound (`refused_declarations_keep_table`).

The arenas only grow, and only by the records a successful declaration makes: one for a variable; for a function,
its parameters in order, then its own record listing exactly them. In every table that a sequence of steps reaches,
every id stored in a binding or a parameter list names a record that exists (`arenas_follow_steps`).
-/

namespace Lowering

open SymbolTable

/-! ## Runs of table operations -/

namespace TableM

/-- A sequence on the table runs its first step, and on success the rest from where the first left off. -/
theorem run_bind {α β : Type} (x : TableM α) (f : α → TableM β) (t : SymbolTable) :
    (x >>= f).run.run t = match x.run.run t with
      | (.ok a, t') => (f a).run.run t'
      | (.error e, t') => (.error e, t') := by
  rw [ExceptT.run_bind, StateT.run_bind]
  rcases x.run.run t with ⟨_ | _, _⟩ <;> rfl

/-- Reading the table gives it and changes nothing. -/
@[simp] theorem run_get (t : SymbolTable) : (get : TableM SymbolTable).run.run t = (.ok t, t) := rfl

/-- Setting the table replaces it. -/
@[simp] theorem run_set (t t' : SymbolTable) : (set t' : TableM PUnit).run.run t = (.ok ⟨⟩, t') := rfl

/-- A refusal fails with its cause and changes nothing. -/
@[simp] theorem run_throw {α : Type} (e : SymbolError) (t : SymbolTable) :
    (throw e : TableM α).run.run t = (.error e, t) := rfl

/-- Returning a value leaves the symbol table as it was. -/
@[simp] theorem run_pure {α : Type} (a : α) (t : SymbolTable) : (pure a : TableM α).run.run t = (.ok a, t) := rfl

end TableM

namespace SymbolTable

/-- The record of a parameter as `declareFunction` makes it: its name and type, and the parameter flag alone. -/
def paramRecord (p : String × Ty) : Symbol := { name := p.1, ty := p.2, flags := { param := true } }

/-- The table with a parameter bound, by its name, in the scope that declarations write. -/
def bindParameter (t : SymbolTable) (s : SymbolId) : SymbolTable := t.bindCurrent (t.symbol s).name (.var s)

variable {t : SymbolTable} {name : String} {b : Binding}

/-- Adding a record appends it to the symbol arena. -/
@[simp] theorem symbols_addSymbol (sym : Symbol) : (t.addSymbol sym).symbols = t.symbols.push sym := rfl

/-- Adding a record leaves the function arena alone. -/
@[simp] theorem functions_addSymbol (sym : Symbol) : (t.addSymbol sym).functions = t.functions := rfl

/-- Adding a record binds no global. -/
@[simp] theorem globals_addSymbol (sym : Symbol) : (t.addSymbol sym).globals = t.globals := rfl

/-- Adding a record binds no local. -/
@[simp] theorem locals_addSymbol (sym : Symbol) : (t.addSymbol sym).locals = t.locals := rfl

/-- Adding a record neither enters nor leaves a function. -/
@[simp] theorem inFunction_addSymbol (sym : Symbol) : (t.addSymbol sym).inFunction = t.inFunction := rfl

/-- Binding a name adds no record. -/
@[simp] theorem symbols_bindCurrent : (t.bindCurrent name b).symbols = t.symbols := by
  unfold bindCurrent; split <;> rfl

/-- Binding a name adds no function. -/
@[simp] theorem functions_bindCurrent : (t.bindCurrent name b).functions = t.functions := by
  unfold bindCurrent; split <;> rfl

/-- Binding in the current scope writes the function scope when one is open, else the global scope. -/
theorem bindCurrent_scopes : (t.bindCurrent name b).locals = t.locals.map (·.insert name b) ∧
    (t.bindCurrent name b).globals = if t.locals.isSome then t.globals else t.globals.insert name b := by
  unfold bindCurrent
  split <;> simp_all

/-- Binding a parameter changes no record. -/
@[simp] theorem symbol_bindParameter (s q : SymbolId) : (t.bindParameter s).symbol q = t.symbol q := by
  simp [bindParameter, symbol]

/-- Binding parameters adds no record. -/
@[simp] theorem symbols_foldl_bindParameter (ps : List SymbolId) : (ps.foldl bindParameter t).symbols = t.symbols := by
  induction ps generalizing t with
  | nil => rfl
  | cons p ps ih => simp [ih, bindParameter]

/-- Binding parameters adds no function. -/
@[simp] theorem functions_foldl_bindParameter (ps : List SymbolId) :
    (ps.foldl bindParameter t).functions = t.functions := by
  induction ps generalizing t with
  | nil => rfl
  | cons p ps ih => simp [ih, bindParameter]

/-- Making parameter records one after another appends them to the arena in order. -/
theorem foldl_addSymbol {α : Type} (mk : α → Symbol) (xs : List α) :
    xs.foldl (fun acc x => acc.addSymbol (mk x)) t = { t with symbols := t.symbols ++ (xs.map mk).toArray } := by
  induction xs generalizing t with
  | nil => simp
  | cons x xs ih =>
    rw [List.foldl_cons, ih]
    simp only [addSymbol, SymbolTable.mk.injEq, and_true]
    rw [← Array.toList_inj]
    simp

end SymbolTable

/-! ## What each operation can do -/

section Outcomes

variable (t : SymbolTable) (name : String) (ty : Ty)

/-- A declaration of a variable is refused, leaving the table as it was, or makes the record at the end of the arena
and binds the name to it in the current scope. -/
theorem declare_cases :
    (∃ e, (declare name ty).run.run t = (.error e, t)) ∨
    (declare name ty).run.run t = (.ok t.symbols.size,
      (t.addSymbol { name, ty, flags := { global := !t.inFunction } }).bindCurrent name (.var t.symbols.size)) := by
  simp only [declare, TableM.run_bind, TableM.run_get]
  by_cases hr : (!!t.inFunction && isReservedName name) = true
  · simp only [hr, if_true, TableM.run_bind, TableM.run_throw]
    exact .inl ⟨_, rfl⟩
  · simp only [hr, if_false, Bool.false_eq_true]
    cases hc : t.current[name]? with
    | some b =>
      simp only [TableM.run_bind, TableM.run_throw]
      exact .inl ⟨_, rfl⟩
    | none =>
      right
      simp only [TableM.run_bind, TableM.run_set, TableM.run_pure]

/-- A declaration of an external variable is refused, leaving the table as it was, or makes the record at the end of
the arena and binds the name to it in the global scope. -/
theorem declareExtern_cases :
    (∃ e, (declareExtern name ty).run.run t = (.error e, t)) ∨
    (declareExtern name ty).run.run t = (.ok t.symbols.size,
      { t.addSymbol { name, ty, flags := { global := true, external := true } } with
        globals := t.globals.insert name (.var t.symbols.size) }) := by
  simp only [declareExtern, TableM.run_bind, TableM.run_get]
  cases hc : t.globals[name]? with
  | some b =>
    simp only [TableM.run_bind, TableM.run_throw]
    exact .inl ⟨_, rfl⟩
  | none =>
    right
    simp only [TableM.run_bind, TableM.run_set, TableM.run_pure, globals_addSymbol]

/-- A declaration of a function is refused, leaving the table as it was, or appends its parameters' records, then its
own record listing exactly their positions, and binds its name to that record in the global scope. -/
theorem declareFunction_cases (result : Ty) (params : List (String × Ty)) :
    (∃ e, (declareFunction name result params).run.run t = (.error e, t)) ∨
    (declareFunction name result params).run.run t = (.ok t.functions.size,
      { t with
        symbols := t.symbols ++ (params.map paramRecord).toArray
        functions := t.functions.push { name, result, params := List.range' t.symbols.size params.length }
        globals := t.globals.insert name (.fn t.functions.size) }) := by
  simp only [declareFunction, TableM.run_bind, TableM.run_get]
  cases hc : t.globals[name]? with
  | some b =>
    simp only [TableM.run_bind, TableM.run_throw]
    exact .inl ⟨_, rfl⟩
  | none =>
    simp only
    cases hp : checkParameters name [] (params.map (·.1)) with
    | error e =>
      simp only [TableM.run_bind, TableM.run_throw]
      exact .inl ⟨_, rfl⟩
    | ok u =>
      simp only [TableM.run_bind, TableM.run_pure, TableM.run_set]
      refine .inr ?_
      rw [show (fun (acc : SymbolTable) (p : String × Ty) =>
          acc.addSymbol { name := p.1, ty := p.2, flags := { param := true } }) =
          fun acc p => acc.addSymbol (paramRecord p) from rfl, foldl_addSymbol]
      simp [parameterIds, List.range'_eq_map_range]

/-- Binding parameters one by one: every one is bound, or the first whose name is bound already, in the table reached
so far, is refused and the ones before it stay bound. -/
theorem forM_bindParameter_cases (ps : List SymbolId) :
    (ps.forM fun p => do
        let t ← get
        let name := (t.symbol p).name
        if let some b := t.current[name]? then throw (.redeclared name b)
        set (t.bindCurrent name (.var p)) : TableM Unit).run.run t = (.ok (), ps.foldl bindParameter t) ∨
    ∃ pre q post b, ps = pre ++ q :: post ∧ (pre.foldl bindParameter t).current[(t.symbol q).name]? = some b ∧
      (ps.forM fun p => do
        let t ← get
        let name := (t.symbol p).name
        if let some b := t.current[name]? then throw (.redeclared name b)
        set (t.bindCurrent name (.var p)) : TableM Unit).run.run t =
        (.error (.redeclared (t.symbol q).name b), pre.foldl bindParameter t) := by
  induction ps generalizing t with
  | nil => exact .inl rfl
  | cons p ps ih =>
    simp only [List.forM_eq_forM, List.forM_cons, TableM.run_bind, TableM.run_get]
    cases hc : t.current[(t.symbol p).name]? with
    | some b => exact .inr ⟨[], p, ps, b, rfl, hc, rfl⟩
    | none =>
      simp only [TableM.run_set]
      -- the rest of the loop runs on the table with `p` bound, whose records are the same
      rcases ih (t.bindParameter p) with h | ⟨pre, q, post, b, rfl, hq, h⟩
      · exact .inl h
      · rw [symbol_bindParameter] at hq h
        exact .inr ⟨p :: pre, q, post, b, rfl, hq, h⟩

/-- Binding a function's parameters binds every one of them, or refuses the first whose name is bound already, in
the table reached so far, and keeps the ones bound before it. -/
theorem bindParameters_cases (f : FunctionId) :
    (bindParameters f).run.run t = (.ok (), (t.signature f).params.foldl bindParameter t) ∨
    ∃ pre q post b, (t.signature f).params = pre ++ q :: post ∧
      (pre.foldl bindParameter t).current[(t.symbol q).name]? = some b ∧
      (bindParameters f).run.run t = (.error (.redeclared (t.symbol q).name b), pre.foldl bindParameter t) := by
  simp only [bindParameters, TableM.run_bind, TableM.run_get]
  exact forM_bindParameter_cases t _

end Outcomes

/-! ## Refusals -/

/-- A step that is refused with the table it started from, or succeeds, leaves that table when it is refused. -/
theorem eq_of_refused {α : Type} {r : Except SymbolError α × SymbolTable} {t t₁ t' : SymbolTable} {a : α}
    {e : SymbolError} (hc : (∃ e, r = (.error e, t)) ∨ r = (.ok a, t₁)) (h : r = (.error e, t')) : t' = t := by
  rcases hc with ⟨e', rfl⟩ | rfl
  · exact (Prod.mk.inj h).2.symm
  · cases h

/-- A refused declaration of a variable, of an external variable or of a function leaves the table as it was. A
refused binding of a function's parameters does not: it refuses the first parameter whose name is bound already, in
the table reached so far, and the parameters before that one stay bound in the current scope. -/
theorem refused_declarations_keep_table (t : SymbolTable) :
    (∀ name ty e t', (declare name ty).run.run t = (.error e, t') → t' = t) ∧
    (∀ name ty e t', (declareExtern name ty).run.run t = (.error e, t') → t' = t) ∧
    (∀ name result params e t', (declareFunction name result params).run.run t = (.error e, t') → t' = t) ∧
    (∀ f e t', (bindParameters f).run.run t = (.error e, t') →
      ∃ pre q post b, (t.signature f).params = pre ++ q :: post ∧ t' = pre.foldl bindParameter t ∧
        t'.current[(t.symbol q).name]? = some b ∧ e = .redeclared (t.symbol q).name b) := by
  refine ⟨fun name ty _ _ h => eq_of_refused (declare_cases t name ty) h,
    fun name ty _ _ h => eq_of_refused (declareExtern_cases t name ty) h,
    fun name result params _ _ h => eq_of_refused (declareFunction_cases t name result params) h,
    fun f e t' h => ?_⟩
  rcases bindParameters_cases t f with hok | ⟨pre, q, post, b, hps, hq, herr⟩
  · rw [hok] at h
    cases h
  · rw [herr] at h
    obtain ⟨he, rfl⟩ := Prod.mk.inj h
    exact ⟨pre, q, post, b, hps, rfl, hq, (Except.error.inj he).symm⟩

/-- The table that declaring `f(a, b)`, opening a function scope and declaring a local `b` reach. -/
def clashTable : SymbolTable where
  symbols := #[paramRecord ("a", .int), paramRecord ("b", .int), { name := "b", ty := .int, flags := {} }]
  functions := #[{ name := "f", result := .int, params := [0, 1] }]
  globals := ({} : Scope).insert "f" (.fn 0)
  locals := some (({} : Scope).insert "b" (.var 2))

/-- Binding the parameters of `f(a, b)` in a scope that binds `b` is refused at `b`, and `a`, unbound before, is
bound to its parameter after. -/
theorem clash_keeps_first_parameter :
    (bindParameters 0).run.run clashTable = (.error (.redeclared "b" (.var 2)), clashTable.bindParameter 0) ∧
    clashTable.lookup "a" = none ∧ (clashTable.bindParameter 0).lookup "a" = some (.var 0) ∧
    ∃ pre q post b, (clashTable.signature 0).params = pre ++ q :: post ∧
      clashTable.bindParameter 0 = pre.foldl bindParameter clashTable ∧
      (clashTable.bindParameter 0).current[(clashTable.symbol q).name]? = some b ∧
      SymbolError.redeclared "b" (.var 2) = .redeclared (clashTable.symbol q).name b := by
  have hrun : (bindParameters 0).run.run clashTable =
      (.error (.redeclared "b" (.var 2)), clashTable.bindParameter 0) := by
    have ha : clashTable.current[(clashTable.symbol 0).name]? = none := by
      simp [clashTable, current, symbol, paramRecord]
    have hb : (clashTable.bindParameter 0).current[(clashTable.symbol 1).name]? = some (.var 2) := by
      simp only [clashTable, current, symbol, paramRecord, bindParameter, bindCurrent, Option.getD]
      rw [Std.HashMap.getElem?_insert, Std.HashMap.getElem?_insert]
      simp
    simp only [bindParameters, TableM.run_bind, TableM.run_get,
      show (clashTable.signature 0).params = [0, 1] from rfl, List.forM_eq_forM, List.forM_cons, ha, TableM.run_set]
    rw [show clashTable.bindCurrent (clashTable.symbol 0).name (.var 0) = clashTable.bindParameter 0 from rfl]
    simp only [symbol_bindParameter, hb, TableM.run_bind, TableM.run_throw]
    rfl
  refine ⟨hrun, ?_, ?_, (refused_declarations_keep_table clashTable).2.2.2 0 _ _ hrun⟩
  · simp [clashTable, lookup]
  · simp [clashTable, lookup, bindParameter, bindCurrent, symbol, paramRecord]

/-! ## The arenas -/

namespace SymbolTable

/-- The record a binding names exists in the table. -/
def HasRecord (t : SymbolTable) : Binding → Prop
  | .var s => s < t.symbols.size
  | .fn f => f < t.functions.size

/-- Every id the table stores names a record of its arenas: the bindings of both scopes, and the parameters of each
function. -/
structure IdsInRange (t : SymbolTable) : Prop where
  globals : ∀ (name : String) (b : Binding), t.globals[name]? = some b → t.HasRecord b
  locals : ∀ l, t.locals = some l → ∀ (name : String) (b : Binding), l[name]? = some b → t.HasRecord b
  params : ∀ sig ∈ t.functions, ∀ s ∈ sig.params, s < t.symbols.size

variable {t t' : SymbolTable} {name : String} {b : Binding}

/-- A binding with a record keeps it in a table whose arenas have grown. -/
theorem HasRecord.mono (h : t.HasRecord b) (hs : t.symbols.size ≤ t'.symbols.size)
    (hf : t.functions.size ≤ t'.functions.size) : t'.HasRecord b := by
  cases b with
  | var s => exact Nat.lt_of_lt_of_le h hs
  | fn f => exact Nat.lt_of_lt_of_le h hf

/-- A binding inserted into a scope whose bindings have records keeps that so. -/
theorem hasRecord_insert {m : Scope} (hm : ∀ (n : String) (c : Binding), m[n]? = some c → t.HasRecord c)
    (hb : t.HasRecord b) : ∀ (n : String) (c : Binding), (m.insert name b)[n]? = some c → t.HasRecord c := by
  intro n c h
  rw [Std.HashMap.getElem?_insert] at h
  split at h
  · cases h
    exact hb
  · exact hm n c h

/-- The empty table stores no id. -/
theorem IdsInRange.empty : ({} : SymbolTable).IdsInRange where
  globals _ _ h := by simp at h
  locals _ h := by cases h
  params _ h := by simp at h

/-- Entering a function, with an empty local scope, keeps the ids in range. -/
theorem IdsInRange.enterFunction (h : t.IdsInRange) : t.enterFunction.IdsInRange where
  globals := h.globals
  locals l hl _ _ hb := by
    cases hl
    simp at hb
  params := h.params

/-- Leaving a function, dropping its local scope, keeps the ids in range. -/
theorem IdsInRange.exitFunction (h : t.IdsInRange) : t.exitFunction.IdsInRange where
  globals := h.globals
  locals _ hl := by cases hl
  params := h.params

/-- Ids stay in range when the arenas grow and the scopes stay. -/
theorem IdsInRange.grow (h : t.IdsInRange) (hs : t.symbols.size ≤ t'.symbols.size)
    (hg : t'.globals = t.globals) (hl : t'.locals = t.locals) (hp : ∀ sig ∈ t'.functions, sig ∈ t.functions)
    (hf : t.functions.size ≤ t'.functions.size) : t'.IdsInRange where
  globals n c hc := (h.globals n c (hg ▸ hc)).mono hs hf
  locals l hl' n c hc := (h.locals l (hl ▸ hl') n c hc).mono hs hf
  params sig hsig s hs' := Nat.lt_of_lt_of_le (h.params sig (hp sig hsig) s hs') hs

/-- Adding a record keeps the ids in range. -/
theorem IdsInRange.addSymbol (h : t.IdsInRange) (sym : Symbol) : (t.addSymbol sym).IdsInRange :=
  h.grow (by simp) rfl rfl (fun sig hs => by simpa using hs) (Nat.le_refl _)

/-- Binding a name to a binding with a record keeps the ids in range. -/
theorem IdsInRange.bindCurrent (h : t.IdsInRange) (hb : t.HasRecord b) : (t.bindCurrent name b).IdsInRange := by
  obtain ⟨hl, hg⟩ : (t.bindCurrent name b).locals = t.locals.map (·.insert name b) ∧
      (t.bindCurrent name b).globals = if t.locals.isSome then t.globals else t.globals.insert name b :=
    bindCurrent_scopes
  have hb' : (t.bindCurrent name b).HasRecord b := hb.mono (by simp) (by simp)
  refine ⟨fun n c hc => ?_, fun l hl' n c hc => ?_, fun sig hs s hs' => ?_⟩
  · rw [hg] at hc
    split at hc
    · exact (h.globals n c hc).mono (by simp) (by simp)
    · exact hasRecord_insert (fun n c hc => (h.globals n c hc).mono (by simp) (by simp)) hb' n c hc
  · rw [hl] at hl'
    obtain ⟨l₀, hl₀, rfl⟩ := Option.map_eq_some_iff.mp hl'
    exact hasRecord_insert (fun n c hc => (h.locals l₀ hl₀ n c hc).mono (by simp) (by simp)) hb' n c hc
  · simpa using h.params sig (by simpa using hs) s hs'

/-- The parameters of any function of a table whose ids are in range have records, the default of a missing function
included. -/
theorem IdsInRange.signature_params (h : t.IdsInRange) (f : FunctionId) :
    ∀ s ∈ (t.signature f).params, s < t.symbols.size := by
  unfold signature
  cases hf : t.functions[f]? with
  | none =>
    show ∀ s ∈ ([] : List SymbolId), s < t.symbols.size
    simp
  | some sig => exact h.params sig (Array.mem_of_getElem? hf)

/-- Binding parameters with records keeps the ids in range. -/
theorem IdsInRange.foldl_bindParameter (h : t.IdsInRange) (ps : List SymbolId)
    (hps : ∀ s ∈ ps, s < t.symbols.size) : (ps.foldl bindParameter t).IdsInRange := by
  induction ps generalizing t with
  | nil => exact h
  | cons p ps ih =>
    exact ih (h.bindCurrent (hps p List.mem_cons_self)) fun s hs => by
      simpa [bindParameter] using hps s (List.mem_cons_of_mem p hs)

end SymbolTable

/-- What a build step does to the arenas, given its reply. A variable declared adds its record at the end of the
symbol arena, and the reply is its position. A function declared adds its parameters' records there, in order and with
the parameter flag alone, then its own record, listing exactly their positions, at the end of the function arena; the
reply is the position of that record, and that list. Every other step, and every refused declaration, adds nothing. -/
def ArenaEffect (t : SymbolTable) : BuildStep → Reply → SymbolTable → Prop
  | .declare name ty, .declared (.ok s), t' =>
    s = t.symbols.size ∧ t'.symbols = t.symbols.push { name, ty, flags := { global := !t.inFunction } } ∧
      t'.functions = t.functions
  | .declareExtern name ty, .declared (.ok s), t' =>
    s = t.symbols.size ∧ t'.symbols = t.symbols.push { name, ty, flags := { global := true, external := true } } ∧
      t'.functions = t.functions
  | .declareFunction name result params, .declaredFunction (.ok (f, ids)), t' =>
    f = t.functions.size ∧ ids = List.range' t.symbols.size params.length ∧
      t'.symbols = t.symbols ++ (params.map paramRecord).toArray ∧
      t'.functions = t.functions.push { name, result, params := ids }
  | _, _, t' => t'.symbols = t.symbols ∧ t'.functions = t.functions

/-- Under any step the arenas only grow: the records before are kept, at their positions. -/
theorem ArenaEffect.grows {t t' : SymbolTable} {s : BuildStep} {r : Reply} (h : ArenaEffect t s r t') :
    t.symbols.toList <+: t'.symbols.toList ∧ t.functions.toList <+: t'.functions.toList := by
  unfold ArenaEffect at h
  split at h
  · obtain ⟨-, hs, hf⟩ := h
    simp [hs, hf]
  · obtain ⟨-, hs, hf⟩ := h
    simp [hs, hf]
  · obtain ⟨-, -, hs, hf⟩ := h
    simp [hs, hf]
  · obtain ⟨hs, hf⟩ := h
    simp [hs, hf]

namespace Program

/-- The programs that some sequence of build steps reaches from the empty program. -/
inductive Reachable : Program → Prop
  | empty : Reachable {}
  | step {p : Program} (s : BuildStep) : p.Reachable → (p.apply s).2.Reachable

/-- Each build step does to the arenas what `ArenaEffect` says. -/
theorem arenaEffect_apply (p : Program) (s : BuildStep) :
    ArenaEffect p.symbols s (p.apply s).1 (p.apply s).2.symbols := by
  cases s with
  | declare name ty =>
    rcases declare_cases p.symbols name ty with ⟨e, h⟩ | h <;> simp only [apply, onTable, h]
    · exact ⟨rfl, rfl⟩
    · exact ⟨rfl, by simp, by simp⟩
  | declareExtern name ty =>
    rcases declareExtern_cases p.symbols name ty with ⟨e, h⟩ | h <;> simp only [apply, onTable, h]
    · exact ⟨rfl, rfl⟩
    · exact ⟨rfl, rfl, rfl⟩
  | declareFunction name result params =>
    rcases declareFunction_cases p.symbols name result params with ⟨e, h⟩ | h
    · simp only [apply, onTable, h]
      exact ⟨rfl, rfl⟩
    · simp only [apply, onTable, h]
      exact ⟨rfl, by simp [signature], rfl, by simp [signature]⟩
  | bindParameters f =>
    rcases bindParameters_cases p.symbols f with h | ⟨pre, q, post, b, hps, hq, h⟩ <;>
      simp only [apply, onTable, h] <;> exact ⟨by simp, by simp⟩
  | _ => exact ⟨rfl, rfl⟩

/-- Each build step keeps every stored id in range. -/
theorem idsInRange_apply {p : Program} (h : p.symbols.IdsInRange) (s : BuildStep) :
    (p.apply s).2.symbols.IdsInRange := by
  cases s with
  | enterFunction => exact h.enterFunction
  | exitFunction => exact h.exitFunction
  | declare name ty =>
    rcases declare_cases p.symbols name ty with ⟨e, he⟩ | he <;> simp only [apply, onTable, he]
    · exact h
    · exact (h.addSymbol _).bindCurrent (show _ < _ by simp)
  | declareExtern name ty =>
    rcases declareExtern_cases p.symbols name ty with ⟨e, he⟩ | he <;> simp only [apply, onTable, he]
    · exact h
    · have h₁ := h.addSymbol { name, ty, flags := { global := true, external := true } }
      exact ⟨hasRecord_insert h₁.globals (show _ < _ by simp), h₁.locals, h₁.params⟩
  | declareFunction name result params =>
    rcases declareFunction_cases p.symbols name result params with ⟨e, he⟩ | he <;>
      simp only [apply, onTable, he]
    · exact h
    · -- the new function's record, and its parameters' records, lie past every id stored before
      have hs : p.symbols.symbols.size ≤ (p.symbols.symbols ++ (params.map paramRecord).toArray).size := by simp
      have hf : p.symbols.functions.size ≤ (p.symbols.functions.push
          { name, result, params := List.range' p.symbols.symbols.size params.length }).size := by simp
      refine ⟨hasRecord_insert (fun n c hc => (h.globals n c hc).mono hs hf) (show _ < _ by simp),
        fun l hl n c hc => (h.locals l hl n c hc).mono hs hf, fun sig hsig s hsp => ?_⟩
      rcases Array.mem_push.mp hsig with hold | rfl
      · exact Nat.lt_of_lt_of_le (h.params sig hold s hsp) hs
      · simp only [List.mem_range'_1] at hsp
        simpa using hsp.2
  | bindParameters f =>
    rcases bindParameters_cases p.symbols f with he | ⟨pre, q, post, b, hps, hq, he⟩ <;>
      simp only [apply, onTable, he]
    · exact h.foldl_bindParameter _ (h.signature_params f)
    · exact h.foldl_bindParameter pre fun s hs =>
        h.signature_params f s (hps ▸ List.mem_append_left _ hs)
  | _ => exact h

/-- In every program that a sequence of build steps reaches, every id the symbol table stores, in a binding of either
scope or in a function's parameter list, names a record of its arenas; and the next step, whatever it is, keeps every
record at its position and adds exactly what `ArenaEffect` says: one record for a variable declared, the parameters'
records then the function's own for a function declared, nothing for anything else or any refusal. -/
theorem arenas_follow_steps {p : Program} (hp : p.Reachable) :
    p.symbols.IdsInRange ∧ ∀ s : BuildStep, ArenaEffect p.symbols s (p.apply s).1 (p.apply s).2.symbols ∧
      p.symbols.symbols.toList <+: (p.apply s).2.symbols.symbols.toList ∧
      p.symbols.functions.toList <+: (p.apply s).2.symbols.functions.toList := by
  have hids : p.symbols.IdsInRange := by
    induction hp with
    | empty => exact .empty
    | step s _ ih => exact idsInRange_apply ih s
  exact ⟨hids, fun s => ⟨arenaEffect_apply p s, (arenaEffect_apply p s).grows⟩⟩

/-- The program after declaring `f(a, b)`. -/
def twoParameters : Program := (({} : Program).apply (.declareFunction "f" .int [("a", .int), ("b", .int)])).2

/-- After declaring `f(a, b)`, ids are in range and every next step adds what `ArenaEffect` says. -/
theorem twoParameters_arenas : twoParameters.symbols.IdsInRange ∧ ∀ s : BuildStep,
    ArenaEffect twoParameters.symbols s (twoParameters.apply s).1 (twoParameters.apply s).2.symbols ∧
      twoParameters.symbols.symbols.toList <+: (twoParameters.apply s).2.symbols.symbols.toList ∧
      twoParameters.symbols.functions.toList <+: (twoParameters.apply s).2.symbols.functions.toList :=
  arenas_follow_steps (.step _ .empty)

end Program

end Lowering
