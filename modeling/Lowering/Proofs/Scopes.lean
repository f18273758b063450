import Lowering.Proofs.Declarations

/-!
# Bindings are never replaced

A scope only gains bindings. Each declaration looks its name up in the scope it writes and binds it only where it is
free: `declare` in the current scope (the function scope inside a function, the global scope outside one),
`declareExtern` and `declareFunction` in the global scope, even inside a function. `bindParameters` binds the
parameters one at a time in the current scope, each checked against the scope reached so far, so even a binding
refused halfway replaces nothing. Only entering or leaving a function drops the function scope, and nothing drops the
global one.

Main statement: `bindings_never_replaced`. Over any sequence of build steps, a global binding, once made, stays the
same; a binding of the function scope stays the same until a function is entered or left; and `lookup` reads the
function scope first and the global scope after, so once the function is left it reads exactly the global scope.
-/

namespace Lowering

open SymbolTable

/-- Every binding of scope `m` is in scope `m'`, unchanged. -/
def Scope.Grows (m m' : Scope) : Prop := ∀ (n : String) (b : Binding), m[n]? = some b → m'[n]? = some b

namespace Scope

/-- A scope keeps its own bindings. -/
theorem Grows.refl (m : Scope) : m.Grows m := fun _ _ h => h

/-- A scope that keeps the bindings of one that keeps another's keeps those. -/
theorem Grows.trans {m₁ m₂ m₃ : Scope} (h₁ : m₁.Grows m₂) (h₂ : m₂.Grows m₃) : m₁.Grows m₃ :=
  fun n b h => h₂ n b (h₁ n b h)

/-- Binding a name that the scope leaves free replaces nothing. -/
theorem grows_insert {m : Scope} {name : String} (h : m[name]? = none) (b : Binding) : m.Grows (m.insert name b) := by
  intro n c hc
  rw [Std.HashMap.getElem?_insert]
  split
  · rename_i he
    rw [eq_of_beq he] at h
    rw [h] at hc
    cases hc
  · exact hc

end Scope

namespace SymbolTable

/-- Table `t'` keeps every binding of table `t`: those of the global scope, and, if a function scope is open in `t`,
those of the function scope, which is still open in `t'`. -/
structure KeepsBindings (t t' : SymbolTable) : Prop where
  globals : t.globals.Grows t'.globals
  locals : ∀ l, t.locals = some l → ∃ l', t'.locals = some l' ∧ l.Grows l'

variable {t t₁ t₂ : SymbolTable} {name : String}

/-- A table keeps its own bindings. -/
theorem KeepsBindings.refl (t : SymbolTable) : t.KeepsBindings t :=
  ⟨.refl _, fun l hl => ⟨l, hl, .refl l⟩⟩

/-- A table that keeps the bindings of one that keeps another's keeps those. -/
theorem KeepsBindings.trans (h₁ : t.KeepsBindings t₁) (h₂ : t₁.KeepsBindings t₂) : t.KeepsBindings t₂ := by
  refine ⟨h₁.globals.trans h₂.globals, fun l hl => ?_⟩
  obtain ⟨l₁, hl₁, g₁⟩ := h₁.locals l hl
  obtain ⟨l₂, hl₂, g₂⟩ := h₂.locals l₁ hl₁
  exact ⟨l₂, hl₂, g₁.trans g₂⟩

/-- A table whose scopes are those of `t` keeps its bindings. -/
theorem KeepsBindings.of_scopes (hg : t₁.globals = t.globals) (hl : t₁.locals = t.locals) : t.KeepsBindings t₁ :=
  ⟨hg ▸ .refl _, fun l h => ⟨l, hl ▸ h, .refl l⟩⟩

/-- A new record changes no scope. -/
theorem keepsBindings_addSymbol (sym : Symbol) : t.KeepsBindings (t.addSymbol sym) := .of_scopes rfl rfl

/-- Binding, in the scope that declarations write, a name free there keeps every binding. -/
theorem keepsBindings_bindCurrent (h : t.current[name]? = none) (b : Binding) :
    t.KeepsBindings (t.bindCurrent name b) := by
  unfold bindCurrent
  unfold current at h
  cases hl : t.locals with
  | some l =>
    rw [hl] at h
    refine ⟨.refl _, fun l' hl' => ?_⟩
    rw [hl] at hl'
    cases hl'
    exact ⟨_, rfl, Scope.grows_insert h b⟩
  | none =>
    rw [hl] at h
    exact ⟨Scope.grows_insert h b, fun l' hl' => by rw [hl] at hl'; cases hl'⟩

/-- Binding a name free in the global scope there, and nowhere else, keeps every binding. -/
theorem keepsBindings_bindGlobal {b : Binding} (h : t.globals[name]? = none) (hg : t₁.globals = t.globals.insert name b)
    (hl : t₁.locals = t.locals) : t.KeepsBindings t₁ :=
  ⟨hg ▸ Scope.grows_insert h b, fun l h' => ⟨l, hl ▸ h', .refl l⟩⟩

end SymbolTable

/-! ## Each operation -/

section Operations

variable (t : SymbolTable) (name : String) (ty : Ty)

/-- Declaring a variable keeps every binding, whether it is refused or binds its name where the name is free. -/
theorem keepsBindings_declare : t.KeepsBindings ((declare name ty).run.run t).2 := by
  simp only [declare, TableM.run_bind, TableM.run_get]
  by_cases hr : (!!t.inFunction && isReservedName name) = true
  · simp only [hr, if_true, TableM.run_bind, TableM.run_throw]
    exact .refl t
  · simp only [hr, if_false, Bool.false_eq_true]
    cases hc : t.current[name]? with
    | some b =>
      simp only [TableM.run_bind, TableM.run_throw]
      exact .refl t
    | none =>
      simp only [TableM.run_bind, TableM.run_set, TableM.run_pure]
      exact (keepsBindings_addSymbol _).trans
        (keepsBindings_bindCurrent (show (t.addSymbol _).current[name]? = none from hc) _)

/-- Declaring an external variable keeps every binding: it binds its name in the global scope only where it is free. -/
theorem keepsBindings_declareExtern : t.KeepsBindings ((declareExtern name ty).run.run t).2 := by
  simp only [declareExtern, TableM.run_bind, TableM.run_get]
  cases hc : t.globals[name]? with
  | some b =>
    simp only [TableM.run_bind, TableM.run_throw]
    exact .refl t
  | none =>
    simp only [TableM.run_bind, TableM.run_set, TableM.run_pure]
    exact keepsBindings_bindGlobal hc rfl rfl

/-- Declaring a function keeps every binding: its parameters get records but no binding, and its name is bound in the
global scope only where it is free. -/
theorem keepsBindings_declareFunction (result : Ty) (params : List (String × Ty)) :
    t.KeepsBindings ((declareFunction name result params).run.run t).2 := by
  rcases declareFunction_cases t name result params with ⟨e, h⟩ | h
  · rw [h]
    exact .refl t
  · rw [h]
    -- the run reached the write, so the name was free in the global scope
    have hc : t.globals[name]? = none := by
      cases hc : t.globals[name]? with
      | none => rfl
      | some b =>
        simp only [declareFunction, TableM.run_bind, TableM.run_get, hc, TableM.run_throw] at h
        cases h
    exact keepsBindings_bindGlobal hc rfl rfl

/-- Binding parameters one by one keeps every binding, whether all are bound or one is refused: each is bound only
where its name is free in the table reached so far. -/
theorem keepsBindings_forM_bindParameter (ps : List SymbolId) (t : SymbolTable) :
    t.KeepsBindings ((ps.forM fun p => do
        let t ← get
        let name := (t.symbol p).name
        if let some b := t.current[name]? then throw (.redeclared name b)
        set (t.bindCurrent name (.var p)) : TableM Unit).run.run t).2 := by
  induction ps generalizing t with
  | nil => exact .refl t
  | cons p ps ih =>
    simp only [List.forM_eq_forM, List.forM_cons, TableM.run_bind, TableM.run_get]
    cases hc : t.current[(t.symbol p).name]? with
    | some b => exact .refl t
    | none =>
      simp only [TableM.run_set]
      exact (keepsBindings_bindCurrent hc _).trans (ih _)

/-- Binding a function's parameters keeps every binding, also when it is refused halfway. -/
theorem keepsBindings_bindParameters (f : FunctionId) : t.KeepsBindings ((bindParameters f).run.run t).2 := by
  simp only [bindParameters, TableM.run_bind, TableM.run_get]
  exact keepsBindings_forM_bindParameter _ t

end Operations

/-! ## Build steps -/

namespace Program

/-- The program after build steps, one after another. -/
def afterSteps (p : Program) (steps : List BuildStep) : Program := steps.foldl (fun p s => (p.apply s).2) p

/-- No steps leave the program as it is. -/
@[simp] theorem afterSteps_nil (p : Program) : p.afterSteps [] = p := rfl

/-- Steps apply the first, then the rest. -/
@[simp] theorem afterSteps_cons (p : Program) (s : BuildStep) (steps : List BuildStep) :
    p.afterSteps (s :: steps) = (p.apply s).2.afterSteps steps := rfl

/-- Every build step but entering and leaving a function keeps every binding, refused or not. -/
theorem keepsBindings_apply (p : Program) {s : BuildStep} (he : s ≠ .enterFunction) (hx : s ≠ .exitFunction) :
    p.symbols.KeepsBindings (p.apply s).2.symbols := by
  cases s with
  | enterFunction => exact absurd rfl he
  | exitFunction => exact absurd rfl hx
  | declare name ty => exact keepsBindings_declare p.symbols name ty
  | declareExtern name ty => exact keepsBindings_declareExtern p.symbols name ty
  | declareFunction name result params => exact keepsBindings_declareFunction p.symbols name result params
  | bindParameters f => exact keepsBindings_bindParameters p.symbols f
  | _ => exact .refl _

/-- Every build step keeps every binding of the global scope. -/
theorem globals_grow_apply (p : Program) (s : BuildStep) : p.symbols.globals.Grows (p.apply s).2.symbols.globals := by
  by_cases he : s = .enterFunction
  · subst he
    exact .refl _
  · by_cases hx : s = .exitFunction
    · subst hx
      exact .refl _
    · exact (keepsBindings_apply p he hx).globals

/-- Steps that neither enter nor leave a function keep every binding. -/
theorem keepsBindings_afterSteps (p : Program) {steps : List BuildStep}
    (hs : ∀ s ∈ steps, s ≠ .enterFunction ∧ s ≠ .exitFunction) : p.symbols.KeepsBindings (p.afterSteps steps).symbols := by
  induction steps generalizing p with
  | nil => exact .refl _
  | cons s steps ih =>
    obtain ⟨he, hx⟩ := hs s List.mem_cons_self
    exact (keepsBindings_apply p he hx).trans (ih _ fun s' hs' => hs s' (List.mem_cons_of_mem s hs'))

/-- Any steps keep every binding of the global scope. -/
theorem globals_grow_afterSteps (p : Program) (steps : List BuildStep) :
    p.symbols.globals.Grows (p.afterSteps steps).symbols.globals := by
  induction steps generalizing p with
  | nil => exact .refl _
  | cons s steps ih => exact (globals_grow_apply p s).trans (ih _)

end Program

/-! ## Looking names up -/

namespace SymbolTable

/-- A name means its binding in the function scope if there is one, and its global binding otherwise. -/
theorem lookup_eq (t : SymbolTable) (n : String) :
    t.lookup n = match t.locals.bind (·[n]?) with
      | some b => some b
      | none => t.globals[n]? := by
  unfold lookup
  cases t.locals.bind (·[n]?) <;> rfl

/-- Outside a function, a name means exactly its global binding. -/
theorem lookup_of_locals_none {t : SymbolTable} (h : t.locals = none) (n : String) : t.lookup n = t.globals[n]? := by
  simp [lookup, h]

end SymbolTable

/-- No operation of a symbol table replaces a binding. (a) Every build step but entering and leaving a function, refused
or not, keeps every binding of the global scope and, while a function scope is open, of the function scope: in
particular every declaration keeps every binding of the scope it writes. (b) Over any sequence of steps, a global
binding, once made, stays the same. (c) Over any sequence of steps that neither enters nor leaves a function, a binding
of the function scope stays the same. (d) `lookup` gives a name's function-scope binding when a function scope is open
and binds it, and its global binding otherwise; after leaving a function it gives exactly the global binding. -/
theorem bindings_never_replaced :
    (∀ (p : Program) (s : BuildStep), s ≠ .enterFunction → s ≠ .exitFunction →
      p.symbols.KeepsBindings (p.apply s).2.symbols) ∧
    (∀ (p : Program) (steps : List BuildStep) (n : String) (b : Binding),
      p.symbols.globals[n]? = some b → (p.afterSteps steps).symbols.globals[n]? = some b) ∧
    (∀ (p : Program) (steps : List BuildStep), (∀ s ∈ steps, s ≠ .enterFunction ∧ s ≠ .exitFunction) →
      ∀ (l : Scope) (n : String) (b : Binding), p.symbols.locals = some l → l[n]? = some b →
        ∃ l', (p.afterSteps steps).symbols.locals = some l' ∧ l'[n]? = some b) ∧
    (∀ (t : SymbolTable) (n : String),
      t.lookup n = (match t.locals.bind (·[n]?) with
        | some b => some b
        | none => t.globals[n]?) ∧
      t.exitFunction.lookup n = t.globals[n]?) := by
  refine ⟨fun p s he hx => Program.keepsBindings_apply p he hx,
    fun p steps n b h => Program.globals_grow_afterSteps p steps n b h, ?_,
    fun t n => ⟨t.lookup_eq n, lookup_of_locals_none rfl n⟩⟩
  intro p steps hs l n b hl hb
  obtain ⟨l', hl', hg⟩ := (Program.keepsBindings_afterSteps p hs).locals l hl
  exact ⟨l', hl', hg n b hb⟩

end Lowering
