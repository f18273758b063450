import Lowering.Proofs.Safety
import Lowering.Proofs.Scopes

/-!
# Programs built step by step

A program is built by steps, each against the program built so far (`Program.apply`). When every node a step appends
refers back, to earlier nodes and to variables and functions that already have records (`BuildStep.RefersBack`), the
program reached meets what the theorems about lowering assume of a unit (`built_units_meet_assumptions`): every
expression has the type its parts give it (`Program.TypesRecorded`), every name a node uses has a record
(`Program.NamesInRange`), every id the table stores is in range, and every reference names an earlier node, so that no
chain of references comes back (`Program.Acyclic`).

An expression's type is fixed when it is built, from the table and the nodes of that moment. Later steps only append
records and nodes, so the type its parts give it stays the one recorded (`Ast.typeOf_congr`).
-/

namespace Lowering

namespace Program

/-- A node refers back in a program: it names only nodes, variables and functions that the program has. -/
def RefersBack (p : Program) (n : Node) : Prop :=
  (∀ c ∈ n.children, c < p.ast.size) ∧ (∀ s ∈ n.symbolRefs, s < p.symbols.symbols.size) ∧
    ∀ f ∈ n.functionRefs, f < p.symbols.functions.size

end Program

/-- The node a build step appends, if it appends one. -/
def BuildStep.appended (p : Program) : BuildStep → Option Node
  | .expr e => some (.expr e (p.ast.typeOf p.symbols e))
  | .stmt s => some (.stmt s)
  | _ => none

/-- A build step refers back when the node it appends, if it appends one, refers back in the program it is applied
to. -/
def BuildStep.RefersBack (p : Program) (s : BuildStep) : Prop :=
  ∀ n, s.appended p = some n → p.RefersBack n

/-- The type an expression gets depends only on the nodes, variables and functions it names. -/
theorem Ast.typeOf_congr {a a' : Ast} {t t' : SymbolTable} {e : Expr} {ty : Option Ty}
    (ha : ∀ c ∈ (Node.expr e ty).children, a'.get? c = a.get? c)
    (hs : ∀ s ∈ (Node.expr e ty).symbolRefs, t'.symbol s = t.symbol s)
    (hf : ∀ f ∈ (Node.expr e ty).functionRefs, t'.signature f = t.signature f) : a'.typeOf t' e = a.typeOf t e := by
  cases e <;> simp_all [Ast.typeOf, Ast.ty?, Node.children, Node.symbolRefs, Node.functionRefs]

/-- A table whose arenas start with those of `t` extends `t`. -/
theorem SymbolTable.Extends.of_arenas {t t' : SymbolTable} (hs : t.symbols.toList <+: t'.symbols.toList)
    (hf : t.functions.toList <+: t'.functions.toList) : t'.Extends t := by
  obtain ⟨rs, hrs⟩ := hs
  obtain ⟨rf, hrf⟩ := hf
  constructor
  · intro s hlt
    rw [← Array.getElem?_toList, ← Array.getElem?_toList, ← hrs, List.getElem?_append_left (by simpa using hlt)]
  · intro f hlt
    rw [← Array.getElem?_toList, ← Array.getElem?_toList, ← hrf, List.getElem?_append_left (by simpa using hlt)]

namespace Program

/-- The programs that build steps reach from the empty program when every step refers back. -/
inductive BuiltBack : Program → Prop
  | empty : BuiltBack {}
  | step {p : Program} (s : BuildStep) : p.BuiltBack → s.RefersBack p → BuiltBack (p.apply s).2

/-! ## One step -/

section Step

variable (p : Program) (s : BuildStep)

/-- A step keeps the nodes before and appends its own, if any. -/
theorem get?_apply (id : NodeId) :
    (p.apply s).2.ast.get? id = if id = p.ast.size then s.appended p else p.ast.get? id := by
  have hnone : p.ast.get? p.ast.size = none := Array.getElem?_eq_none (Nat.le_refl _)
  cases s with
  | expr e => exact Array.getElem?_push
  | stmt st => exact Array.getElem?_push
  | _ =>
    show p.ast.get? id = _
    split
    · subst id
      exact hnone
    · rfl

/-- A step's table extends the table it was applied to. -/
theorem extends_apply : (p.apply s).2.symbols.Extends p.symbols :=
  let h := (arenaEffect_apply p s).grows
  .of_arenas h.1 h.2

/-- A step adds variables and removes none. -/
theorem symbols_size_le_apply : p.symbols.symbols.size ≤ (p.apply s).2.symbols.symbols.size := by
  simpa using (arenaEffect_apply p s).grows.1.length_le

/-- A step adds functions and removes none. -/
theorem functions_size_le_apply : p.symbols.functions.size ≤ (p.apply s).2.symbols.functions.size := by
  simpa using (arenaEffect_apply p s).grows.2.length_le

end Step

/-- What building by steps that refer back keeps: the ids the table stores are in range, every node refers back to
nodes before it and to records of the table, and every expression has the type its parts give it. -/
structure BuiltWell (p : Program) : Prop where
  ids : p.symbols.IdsInRange
  back : ∀ id n, p.ast.get? id = some n → (∀ c ∈ n.children, c < id) ∧
    (∀ s ∈ n.symbolRefs, s < p.symbols.symbols.size) ∧ ∀ f ∈ n.functionRefs, f < p.symbols.functions.size
  typed : ∀ id e t, p.ast.get? id = some (.expr e t) → t = p.ast.typeOf p.symbols e

namespace BuiltWell

variable {p : Program} {s : BuildStep}

/-- The empty program is built well. -/
theorem empty : ({} : Program).BuiltWell where
  ids := .empty
  back := fun _ _ hn => by simp [Ast.get?] at hn
  typed := fun _ _ _ hn => by simp [Ast.get?] at hn

/-- The type an expression of the program gets is the same after a step: the nodes, variables and functions it names
are kept. -/
theorem typeOf_apply {e : Expr} {ty : Option Ty} (hb : ∀ c ∈ (Node.expr e ty).children, c < p.ast.size)
    (hs : ∀ s ∈ (Node.expr e ty).symbolRefs, s < p.symbols.symbols.size)
    (hf : ∀ f ∈ (Node.expr e ty).functionRefs, f < p.symbols.functions.size) :
    (p.apply s).2.ast.typeOf (p.apply s).2.symbols e = p.ast.typeOf p.symbols e :=
  Ast.typeOf_congr (fun c hc => by rw [get?_apply, if_neg (Nat.ne_of_lt (hb c hc))])
    (fun s' hs' => (extends_apply p s).symbol (hs s' hs')) (fun f hf' => (extends_apply p s).signature (hf f hf'))

/-- A step that refers back keeps a program built well. -/
theorem apply (h : p.BuiltWell) (hs : s.RefersBack p) : (p.apply s).2.BuiltWell := by
  have hsym := symbols_size_le_apply p s
  have hfun := functions_size_le_apply p s
  refine ⟨idsInRange_apply h.ids s, fun id n hn => ?_, fun id e t hn => ?_⟩
  · rw [get?_apply] at hn
    split at hn
    · subst id
      obtain ⟨hc, hsy, hf⟩ := hs n hn
      exact ⟨hc, fun s' h' => Nat.lt_of_lt_of_le (hsy s' h') hsym, fun f h' => Nat.lt_of_lt_of_le (hf f h') hfun⟩
    · obtain ⟨hc, hsy, hf⟩ := h.back id n hn
      exact ⟨hc, fun s' h' => Nat.lt_of_lt_of_le (hsy s' h') hsym, fun f h' => Nat.lt_of_lt_of_le (hf f h') hfun⟩
  · rw [get?_apply] at hn
    split at hn
    · obtain ⟨hc, hsy, hf⟩ := hs _ hn
      rw [typeOf_apply hc hsy hf]
      cases s <;> simp only [BuildStep.appended, Option.some.injEq, Node.expr.injEq, reduceCtorEq] at hn
      obtain ⟨rfl, rfl⟩ := hn
      rfl
    · obtain ⟨hc, hsy, hf⟩ := h.back id _ hn
      rw [typeOf_apply (fun c h' => Nat.lt_trans (hc c h') (Ast.lt_size hn)) hsy hf]
      exact h.typed id e t hn

end BuiltWell

/-- A program built by steps that refer back is built well. -/
theorem BuiltBack.builtWell {p : Program} (h : p.BuiltBack) : p.BuiltWell := by
  induction h with
  | empty => exact .empty
  | step s _ hs ih => exact ih.apply hs

/-- Every step of a sequence refers back in the program that the steps before it built. -/
def StepsReferBack (p : Program) : List BuildStep → Prop
  | [] => True
  | s :: steps => s.RefersBack p ∧ StepsReferBack (p.apply s).2 steps

/-- Steps that each refer back keep a program built by such steps. -/
theorem BuiltBack.afterSteps {p : Program} {steps : List BuildStep} (h : p.BuiltBack) (hs : p.StepsReferBack steps) :
    (p.afterSteps steps).BuiltBack := by
  induction steps generalizing p with
  | nil => exact h
  | cons s steps ih => exact ih (.step s h hs.1) hs.2

/-- A program built from the empty program by steps that refer back meets what the theorems about lowering assume of
a unit: every expression has the type its parts give it, every variable and function a node names has a record, every
id the table stores is in range, every reference names an earlier node, and no chain of references comes back. -/
theorem built_units_meet_assumptions {p : Program} (h : p.BuiltBack) :
    p.TypesRecorded ∧ p.NamesInRange ∧ p.symbols.IdsInRange ∧ (∀ id, p.BuiltUp id) ∧ p.Acyclic := by
  have hw := h.builtWell
  exact ⟨fun id e t hn => (hw.typed id e (some t) hn).symm, fun id n hn => (hw.back id n hn).2, hw.ids,
    fun _ d n _ hn => (hw.back d n hn).1, acyclic_of_rank id fun id n c hn hc => (hw.back id n hn).1 c hc⟩

/-- A global and an expression statement that reads it, int a; a + 1;. -/
def globalReadSteps : List BuildStep :=
  [.declare "a" .int, .expr (.read 0), .expr (.int 1), .expr (.arith .add 0 1), .stmt (.eval 2), .pushRoot 3]

/-- Each step of `int a; a + 1;` refers back. -/
theorem globalReadSteps_referBack : ({} : Program).StepsReferBack globalReadSteps := by
  simp only [globalReadSteps, StepsReferBack, BuildStep.RefersBack, BuildStep.appended, RefersBack, apply, onTable,
    declare, SymbolTable.current, SymbolTable.inFunction, TableM.run_bind, TableM.run_get, TableM.run_set,
    TableM.run_pure, Option.isSome_none, Option.getD_none, Std.HashMap.getElem?_empty, Bool.not_false, Bool.not_true,
    Bool.false_and, Bool.false_eq_true, ↓reduceIte, SymbolTable.addSymbol, SymbolTable.bindCurrent, Ast.build,
    Ast.pushExpr, Ast.pushStmt, Ast.push, Ast.size, Node.children, Node.symbolRefs, Node.functionRefs,
    reduceCtorEq, false_implies, implies_true, and_true, true_and, List.mem_cons, List.not_mem_nil, or_false,
    forall_eq, Option.some.injEq, forall_eq', Array.size_push, Nat.lt_add_one, Nat.reduceAdd, List.size_toArray,
    List.length_nil]
  rintro c (rfl | rfl) <;> decide

/-- The program built by `int a; a + 1;` meets what the theorems about lowering assume of a unit. -/
theorem globalRead_meets_assumptions :
    (({} : Program).afterSteps globalReadSteps).BuiltBack ∧
      (({} : Program).afterSteps globalReadSteps).TypesRecorded ∧
      (({} : Program).afterSteps globalReadSteps).NamesInRange ∧
      (({} : Program).afterSteps globalReadSteps).symbols.IdsInRange ∧
      (∀ id, (({} : Program).afterSteps globalReadSteps).BuiltUp id) ∧
      (({} : Program).afterSteps globalReadSteps).Acyclic :=
  have h := BuiltBack.empty.afterSteps globalReadSteps_referBack
  ⟨h, built_units_meet_assumptions h⟩

end Program

end Lowering
