import Lowering.Proofs.Run

/-!
# The lowering rules as sequences of steps

One lemma per rule of `Lowering.Codegen`: a successful run of the rule is the run of its parts, the nodes it refers
to, in order, with the steps that cannot fail between them given as functions of the generator. Proofs about
lowering take a rule apart with its lemma here and never unfold the rule itself.

The walk that follows references is a parameter of every rule; `walk_induction` turns a property that each rule
keeps, given that its references keep it, into one of every walk `Program.walk n`.
-/

namespace Lowering

open Ir Generator

namespace Program

variable {p : Program} {w : Walk} {g g' : Generator}

/-! ## Operands -/

/-- The address of a variable, when the parameters in `spilled` are read through their stack slots. -/
def addressOf (p : Program) (spilled : List SymbolId) (s : SymbolId) : Address :=
  if spilled.contains s then .slot ((p.symbols.symbol s).name ++ ".addr")
  else if (p.symbols.symbol s).flags.global || (p.symbols.symbol s).flags.external then .global (p.symbols.symbol s).name
  else .slot (p.symbols.symbol s).name

/-- Finding where a variable is stored succeeds with its address and changes nothing. -/
theorem runs_storage {s : SymbolId} {a : Address} : Runs (p.storage s) g a g' ↔ a = p.addressOf g.spilled s ∧ g' = g := by
  apply Runs.iff_of_run
  unfold storage addressOf
  simp only [Runs.run_bind, Runs.run_get]
  split
  · rfl
  · split <;> rfl

/-- Reading a node's type changes nothing, and succeeds exactly when the node is an expression of known type. -/
theorem runs_exprType {id : NodeId} {t : Ty} : Runs (p.exprType id) g t g' ↔ p.ast.ty? id = some t ∧ g' = g := by
  unfold exprType Ast.ty?
  cases h : p.ast.get? id with
  | none => simp [Runs.throw_false]
  | some n =>
    cases n with
    | expr e ty =>
      cases ty with
      | none => simp [Runs.throw_false, Node.ty]
      | some t' =>
        simp only [Runs.pure_iff, Option.bind_some, Node.ty, Option.some.injEq]
        exact ⟨fun ⟨h1, h2⟩ => ⟨h1, h2.symm⟩, fun ⟨h1, h2⟩ => ⟨h1, h2.symm⟩⟩
    | stmt s => simp [Runs.throw_false, Node.ty]

/-- Both operands have the type found, and nothing changes. -/
theorem runs_operandType {op : Operation} {l r : NodeId} {t : Ty} :
    Runs (p.operandType op l r) g t g' ↔ p.ast.ty? l = some t ∧ p.ast.ty? r = some t ∧ g' = g := by
  unfold operandType
  simp only [Runs.bind_iff, runs_exprType, Runs.ite_iff, Runs.throw_false, Runs.pure_iff]
  constructor
  · rintro ⟨tl, _, ⟨hl, rfl⟩, tr, _, ⟨hr, rfl⟩, ⟨-, -, -, ⟨⟩, -⟩ | ⟨hne, rfl, rfl⟩⟩
    exact ⟨hl, (Classical.not_not.mp hne) ▸ hr, rfl⟩
  · rintro ⟨hl, hr, rfl⟩
    exact ⟨t, _, ⟨hl, rfl⟩, t, _, ⟨hr, rfl⟩, .inr ⟨Classical.not_not.mpr rfl, rfl, rfl⟩⟩

/-- The operand of a value as an integer or a string: a comparison's truth value is widened into a fresh register. -/
theorem runs_valueOf {id : NodeId} {v : Value} (h : Runs (p.valueOf w id) g v g') :
    ∃ v₁ g₁, Runs (w.expr id) g v₁ g₁ ∧
      if p.isComparison id then v = .reg (g₁.nextReg "tmp") ∧ g' = (g₁.withFresh "tmp").withInstr (.widen (g₁.nextReg "tmp") v₁)
      else v = v₁ ∧ g' = g₁ := by
  unfold valueOf at h
  simp only [Runs.bind_iff, Runs.ite_iff, runs_temp, runs_instr, Runs.pure_iff] at h
  obtain ⟨v₁, g₁, hx, h⟩ := h
  refine ⟨v₁, g₁, hx, ?_⟩
  rcases h with ⟨hc, _, _, ⟨rfl, rfl⟩, _, _, rfl, rfl, rfl⟩ | ⟨hc, rfl, rfl⟩
  · simp [hc]
  · simp [hc]

/-- The truth value of a branch condition: a comparison as it is, an integer compared with zero. -/
theorem runs_testOf {id : NodeId} {v : Value} (h : Runs (p.testOf w id) g v g') :
    ∃ t, p.ast.ty? id = some t ∧
      ((p.isComparison id ∧ Runs (w.expr id) g v g') ∨
       (¬p.isComparison id ∧ t = .int ∧ ∃ v₁ g₁, Runs (p.valueOf w id) g v₁ g₁ ∧ v = .reg (g₁.nextReg "tmp") ∧
          g' = (g₁.withFresh "tmp").withInstr (.icmp (g₁.nextReg "tmp") .ne v₁ (.int 0)))) := by
  unfold testOf at h
  simp only [Runs.bind_iff, runs_exprType] at h
  obtain ⟨t, _, ⟨ht, rfl⟩, h⟩ := h
  refine ⟨t, ht, ?_⟩
  by_cases hc : p.isComparison id
  · simp only [hc, if_true] at h
    exact .inl ⟨hc, h⟩
  · simp only [hc, Bool.false_eq_true, if_false] at h
    right
    cases t with
    | int =>
      simp only [Runs.bind_iff, runs_temp, runs_instr, Runs.pure_iff] at h
      obtain ⟨v₁, g₁, hv, _, _, ⟨rfl, rfl⟩, _, _, rfl, rfl, rfl⟩ := h
      exact ⟨hc, rfl, v₁, g₁, hv, rfl, rfl⟩
    | string => exact absurd h Runs.throw_false

/-- No arguments lower to none and change nothing. -/
theorem runs_arguments_nil {callee : String} {i : Nat} {vs : List (Ty × Value)} :
    Runs (p.arguments w callee i []) g vs g' ↔ vs = [] ∧ g' = g := by
  unfold arguments
  rw [Runs.pure_iff]
  exact ⟨fun ⟨h1, h2⟩ => ⟨h1.symm, h2.symm⟩, fun ⟨h1, h2⟩ => ⟨h1.symm, h2.symm⟩⟩

/-- An argument is checked against its parameter's type, then lowered, before the arguments after it. -/
theorem runs_arguments_cons {callee : String} {i : Nat} {a : NodeId} {s : SymbolId} {rest : List (NodeId × SymbolId)}
    {vs : List (Ty × Value)} (h : Runs (p.arguments w callee i ((a, s) :: rest)) g vs g') :
    p.ast.ty? a = some (p.symbols.symbol s).ty ∧ ∃ v g₁ vs', Runs (p.valueOf w a) g v g₁ ∧
      Runs (p.arguments w callee (i + 1) rest) g₁ vs' g' ∧ vs = ((p.symbols.symbol s).ty, v) :: vs' := by
  unfold arguments at h
  simp only [Runs.bind_iff, runs_exprType, Runs.ite_iff, Runs.throw_false, Runs.pure_iff] at h
  obtain ⟨t, _, ⟨ht, rfl⟩, ⟨-, -, -, ⟨⟩, -⟩ | ⟨hne, v, g₁, hv, vs', g₂, hrest, rfl, rfl⟩⟩ := h
  exact ⟨(Classical.not_not.mp hne) ▸ ht, v, g₁, vs', hv, hrest, rfl⟩

/-! ## Expressions -/

/-- A variable read loads the variable into a fresh register named after it. -/
theorem runs_lowerForm_read {id : NodeId} {s : SymbolId} {v : Value} (h : Runs (p.lowerForm w id (.read s)) g v g') :
    v = .reg (g.nextReg (p.symbols.symbol s).name) ∧
      g' = ((g.withFresh (p.symbols.symbol s).name).withInstr (.load (g.nextReg (p.symbols.symbol s).name)
        (p.symbols.symbol s).ty (p.addressOf g.spilled s))).withValue id (.reg (g.nextReg (p.symbols.symbol s).name)) := by
  simp only [lowerForm, Runs.bind_iff, runs_storage, runs_fresh, runs_instr, runs_remember] at h
  obtain ⟨_, _, ⟨rfl, rfl⟩, _, _, ⟨rfl, rfl⟩, _, _, rfl, rfl, rfl⟩ := h
  exact ⟨rfl, rfl⟩

/-- An integer constant is its own operand, recorded for the node. -/
theorem runs_lowerForm_int {id : NodeId} {n : Int32} {v : Value} (h : Runs (p.lowerForm w id (.int n)) g v g') :
    v = .int n ∧ g' = g.withValue id (.int n) := by
  simpa only [lowerForm, runs_remember] using h

/-- A string literal is the address of a constant queued for the next flush, in a fresh `str` register. -/
theorem runs_lowerForm_str {id : NodeId} {raw : String} {v : Value} (h : Runs (p.lowerForm w id (.str raw)) g v g') :
    v = .reg (g.nextReg "str") ∧
      g' = ((((g.withFresh "str").withInstr (.literal (g.nextReg "str") ((Literal.decode raw).length + 1))).withConstant
        (g.nextReg "str") (Literal.decode raw)).withValue id (.reg (g.nextReg "str"))) := by
  simp only [lowerForm, Runs.bind_iff, runs_fresh, runs_instr, runs_queueConstant, runs_remember] at h
  obtain ⟨_, _, ⟨rfl, rfl⟩, _, _, rfl, _, _, rfl, rfl, rfl⟩ := h
  exact ⟨rfl, rfl⟩

/-- A negation of an integer subtracts its operand from zero. -/
theorem runs_lowerForm_neg {id x : NodeId} {v : Value} (h : Runs (p.lowerForm w id (.neg x)) g v g') :
    p.ast.ty? x = some .int ∧ ∃ v₁ g₁, Runs (p.valueOf w x) g v₁ g₁ ∧ v = .reg (g₁.nextReg "tmp") ∧
      g' = ((g₁.withFresh "tmp").withInstr (.arith (g₁.nextReg "tmp") .sub (.int 0) v₁)).withValue id
        (.reg (g₁.nextReg "tmp")) := by
  simp only [lowerForm, Runs.bind_iff, runs_exprType, Runs.ite_iff, Runs.throw_false, runs_temp, runs_instr,
    runs_remember] at h
  obtain ⟨t, _, ⟨ht, rfl⟩, ⟨-, -, -, ⟨⟩, -⟩ | ⟨hne, v₁, g₁, hv, _, _, ⟨rfl, rfl⟩, _, _, rfl, rfl, rfl⟩⟩ := h
  cases t with
  | int => exact ⟨ht, v₁, g₁, hv, rfl, rfl⟩
  | string => exact absurd rfl hne

/-- An arithmetic node lowers its operands left to right into a fresh temporary: integer arithmetic, or a join of
two strings that the function then owns. -/
theorem runs_lowerForm_arith {id l r : NodeId} {op : ArithOp} {v : Value}
    (h : Runs (p.lowerForm w id (.arith op l r)) g v g') :
    ∃ t, p.ast.ty? l = some t ∧ p.ast.ty? r = some t ∧ ∃ vl g₁ vr g₂, Runs (p.valueOf w l) g vl g₁ ∧
      Runs (p.valueOf w r) g₁ vr g₂ ∧ v = .reg (g₂.nextReg "tmp") ∧
      ((t = .int ∧ g' = ((g₂.withFresh "tmp").withInstr (.arith (g₂.nextReg "tmp") op vl vr)).withValue id
          (.reg (g₂.nextReg "tmp"))) ∨
       (t = .string ∧ op = .add ∧ g' = ((((g₂.withFresh "tmp").withInstr (.concat (g₂.nextReg "tmp") vl vr)).withRuntime).withOwned
          (g₂.nextReg "tmp")).withValue id (.reg (g₂.nextReg "tmp")))) := by
  simp only [lowerForm, Runs.bind_iff, runs_operandType, Runs.ite_iff, Runs.throw_false, runs_temp] at h
  obtain ⟨t, _, ⟨hl, hr, rfl⟩, ⟨-, -, -, ⟨⟩, -⟩ | ⟨hne, vl, g₁, hvl, vr, g₂, hvr, _, _, ⟨rfl, rfl⟩, h⟩⟩ := h
  refine ⟨t, hl, hr, vl, g₁, vr, g₂, hvl, hvr, ?_⟩
  cases t with
  | int =>
    simp only [Runs.bind_iff, runs_instr, runs_remember] at h
    obtain ⟨_, _, rfl, rfl, rfl⟩ := h
    exact ⟨rfl, .inl ⟨rfl, rfl⟩⟩
  | string =>
    simp only [Runs.bind_iff, runs_instr, runs_useRuntime, runs_own, runs_remember, exists_eq_left,
      exists_const] at h
    obtain ⟨rfl, rfl⟩ := h
    have hop : op = .add := Classical.byContradiction fun hop => hne ⟨rfl, hop⟩
    exact ⟨rfl, .inr ⟨rfl, hop, rfl⟩⟩

/-- A comparison lowers its operands left to right into a fresh temporary holding a truth value: an integer
comparison, or a call of the runtime's string equality. -/
theorem runs_lowerForm_cmp {id l r : NodeId} {op : CmpOp} {v : Value}
    (h : Runs (p.lowerForm w id (.cmp op l r)) g v g') :
    ∃ t, p.ast.ty? l = some t ∧ p.ast.ty? r = some t ∧ ∃ vl g₁ vr g₂, Runs (p.valueOf w l) g vl g₁ ∧
      Runs (p.valueOf w r) g₁ vr g₂ ∧ v = .reg (g₂.nextReg "tmp") ∧
      ((t = .int ∧ g' = ((g₂.withFresh "tmp").withInstr (.icmp (g₂.nextReg "tmp") op vl vr)).withValue id
          (.reg (g₂.nextReg "tmp"))) ∨
       (t = .string ∧ (op = .eq ∨ op = .ne) ∧ g' = (((g₂.withFresh "tmp").withInstr
          (.strTest (g₂.nextReg "tmp") (op = .eq) vl vr)).withRuntime).withValue id (.reg (g₂.nextReg "tmp")))) := by
  simp only [lowerForm, Runs.bind_iff, runs_operandType, Runs.ite_iff, Runs.throw_false, runs_temp] at h
  obtain ⟨t, _, ⟨hl, hr, rfl⟩, ⟨-, -, -, ⟨⟩, -⟩ | ⟨hne, vl, g₁, hvl, vr, g₂, hvr, _, _, ⟨rfl, rfl⟩, h⟩⟩ := h
  refine ⟨t, hl, hr, vl, g₁, vr, g₂, hvl, hvr, ?_⟩
  cases t with
  | int =>
    simp only [Runs.bind_iff, runs_instr, runs_remember] at h
    obtain ⟨_, _, rfl, rfl, rfl⟩ := h
    exact ⟨rfl, .inl ⟨rfl, rfl⟩⟩
  | string =>
    simp only [Runs.bind_iff, runs_instr, runs_useRuntime, runs_remember, exists_eq_left, exists_const] at h
    obtain ⟨rfl, rfl⟩ := h
    have hop : op = .eq ∨ op = .ne :=
      Classical.byContradiction fun hop => hne ⟨rfl, fun h => hop (.inl h), fun h => hop (.inr h)⟩
    exact ⟨rfl, .inr ⟨rfl, hop, rfl⟩⟩

/-- An assignment stores its value, of the variable's type, and its own value is the operand stored. -/
theorem runs_lowerForm_assign {id x : NodeId} {s : SymbolId} {v : Value}
    (h : Runs (p.lowerForm w id (.assign s x)) g v g') :
    p.ast.ty? x = some (p.symbols.symbol s).ty ∧ ∃ g₁, Runs (p.valueOf w x) g v g₁ ∧
      g' = (g₁.withInstr (.store (p.symbols.symbol s).ty v (p.addressOf g₁.spilled s))).withValue id v := by
  simp only [lowerForm, Runs.bind_iff, runs_exprType, Runs.ite_iff, Runs.throw_false, runs_storage, runs_instr,
    runs_remember] at h
  obtain ⟨t, _, ⟨ht, rfl⟩, ⟨-, -, -, ⟨⟩, -⟩ | ⟨hne, v₁, g₁, hv, _, _, ⟨rfl, rfl⟩, _, _, rfl, rfl, rfl⟩⟩ := h
  exact ⟨(Classical.not_not.mp hne) ▸ ht, _, hv, rfl⟩

/-- A call passes its arguments, checked and lowered left to right, and leaves its result in a fresh temporary;
a string result is owned by the caller. -/
theorem runs_lowerForm_call {id : NodeId} {f : FunctionId} {args : List NodeId} {v : Value}
    (h : Runs (p.lowerForm w id (.call f args)) g v g') :
    args.length = (p.symbols.signature f).params.length ∧ ∃ vs g₁,
      Runs (p.arguments w (p.symbols.signature f).name 0 (args.zip (p.symbols.signature f).params)) g vs g₁ ∧
      v = .reg (g₁.nextReg "tmp") ∧
      ((p.symbols.signature f).result = .int ∧ g' = ((g₁.withFresh "tmp").withInstr (.call (g₁.nextReg "tmp")
          (p.symbols.signature f).result (p.symbols.signature f).name vs)).withValue id (.reg (g₁.nextReg "tmp")) ∨
       (p.symbols.signature f).result = .string ∧ g' = (((g₁.withFresh "tmp").withInstr (.call (g₁.nextReg "tmp")
          (p.symbols.signature f).result (p.symbols.signature f).name vs)).withOwned (g₁.nextReg "tmp")).withValue id
          (.reg (g₁.nextReg "tmp"))) := by
  simp only [lowerForm, Runs.bind_iff, Runs.ite_iff, Runs.throw_false, runs_temp, runs_instr, runs_own,
    runs_remember, exists_eq_left, exists_const] at h
  obtain ⟨-, -, ⟨⟩, -⟩ | ⟨hne, vs, g₁, hvs, _, _, ⟨rfl, rfl⟩, h⟩ := h
  refine ⟨Classical.not_not.mp hne, vs, g₁, hvs, ?_⟩
  rcases h with ⟨hr, rfl, rfl⟩ | ⟨hr, rfl, rfl⟩
  · exact ⟨rfl, .inr ⟨hr, rfl⟩⟩
  · cases hr' : (p.symbols.signature f).result with
    | int => exact ⟨rfl, .inl ⟨rfl, rfl⟩⟩
    | string => exact absurd hr' hr

/-- An expression node already lowered gives its recorded operand and adds nothing; otherwise it is lowered by its
form, if it is an expression of known type. -/
theorem runs_lowerExpr {id : NodeId} {v : Value} (h : Runs (p.lowerExpr w id) g v g') :
    (g.values[id]? = some v ∧ g' = g) ∨
      (g.values[id]? = none ∧ ∃ e t, p.ast.get? id = some (.expr e (some t)) ∧ Runs (p.lowerForm w id e) g v g') := by
  unfold lowerExpr at h
  rw [Runs.bind_iff] at h
  obtain ⟨g₀, g₁, hget, h⟩ := h
  obtain ⟨h₀, h₁⟩ := Runs.get_iff.mp hget
  rw [← h₀, ← h₁] at h
  cases hv : g.values[id]? with
  | some v' =>
    simp only [hv] at h
    obtain ⟨rfl, rfl⟩ := Runs.pure_iff.mp h
    exact .inl ⟨rfl, rfl⟩
  | none =>
    simp only [hv] at h
    refine .inr ⟨rfl, ?_⟩
    cases hn : p.ast.get? id with
    | none =>
      rw [hn] at h
      exact absurd h Runs.throw_false
    | some n =>
      rw [hn] at h
      cases n with
      | expr e t =>
        cases t with
        | none => exact absurd h Runs.throw_false
        | some t => exact ⟨e, t, rfl, h⟩
      | stmt s => exact absurd h Runs.throw_false

/-! ## Instructions -/

end Program

namespace Generator

/-- The generator with a variable's storage reserved: a global or external at the top level of the listing, a local
in a stack slot of the current block. -/
def withDeclaration (g : Generator) (sym : Symbol) : Generator :=
  if sym.flags.external then g.withItem (.external sym.name sym.ty)
  else if sym.flags.global then g.withItem (.global sym.name sym.ty)
  else g.withInstr (.alloca sym.name sym.ty)

/-- The generator with the strings of the innermost scope forgotten, as a return leaves them. -/
def withoutInner (g : Generator) : Generator := { g with owned := g.owned.take (g.marks.headD 0) }

end Generator

namespace Program

variable {p : Program} {w : Walk} {g g' : Generator}

/-- Declarations reserve storage for their variables, in order. -/
theorem runs_lowerDeclarations {syms : List SymbolId} {u : Unit} (h : Runs (p.lowerDeclarations syms) g u g') :
    g' = syms.foldl (fun g s => g.withDeclaration (p.symbols.symbol s)) g := by
  unfold lowerDeclarations at h
  induction syms generalizing g with
  | nil => exact (Runs.forM_nil.mp h).symm
  | cons s syms ih =>
    obtain ⟨g₁, h₁, h₂⟩ := Runs.forM_cons.mp h
    have hs : g₁ = g.withDeclaration (p.symbols.symbol s) := by
      simp only [withDeclaration]
      by_cases he : (p.symbols.symbol s).flags.external
      · simpa only [he, if_true, runs_write] using h₁
      · by_cases hg : (p.symbols.symbol s).flags.global
        · simpa only [he, hg, if_true, Bool.false_eq_true, if_false, runs_write] using h₁
        · simpa only [he, hg, Bool.false_eq_true, if_false, runs_instr] using h₁
    rw [hs] at h₂
    exact ih h₂

/-- An `if` makes its three labels, branches on the condition, and joins its arms at the last label. -/
theorem runs_lowerChoice {c t : NodeId} {e : Option NodeId} {u : Unit} : Runs (p.lowerChoice w c t e) g u g' →
    ∃ v g₁ g₂ g₃, Runs (p.testOf w c) ((g.withBanner .choice).withLabels 3).withScope v g₁ ∧
      Runs (w.emit t) ((g₁.withoutScope.withTerminator (.branch v ⟨g.labels⟩ ⟨g.labels + 1⟩)).withLabel ⟨g.labels⟩).withScope
        () g₂ ∧
      (match e with
        | some e => ∃ g₄, Runs (w.emit e) ((g₂.withoutScope.withJump ⟨g.labels + 2⟩).withLabel ⟨g.labels + 1⟩).withScope
            () g₄ ∧ g₃ = g₄.withoutScope
        | none => g₃ = (g₂.withoutScope.withJump ⟨g.labels + 2⟩).withLabel ⟨g.labels + 1⟩) ∧
      g' = (g₃.withJump ⟨g.labels + 2⟩).withLabel ⟨g.labels + 2⟩ := by
  intro h
  unfold lowerChoice at h
  rw [Runs.bind_of_run (run_banner _ _), Runs.bind_of_run (run_newLabel _), Runs.bind_of_run (run_newLabel _),
    Runs.bind_of_run (run_newLabel _), runs_inScope_bind] at h
  obtain ⟨v, g₁, hc, h⟩ := h
  rw [Runs.bind_of_run (run_branch _ _ _ _), Runs.bind_of_run (run_placeLabel _ _), runs_inScope_bind] at h
  obtain ⟨_, g₂, ht, h⟩ := h
  rw [Runs.bind_of_run (run_jump _ _), Runs.bind_of_run (run_placeLabel _ _)] at h
  simp only [withLabels_withLabels, withLabels_labels, withBanner_labels] at hc ht ⊢
  -- the join after the arms is the same with or without an else arm
  cases e with
  | some e =>
    dsimp only at h
    rw [runs_inScope_bind] at h
    obtain ⟨_, g₄, he, h⟩ := h
    rw [Runs.bind_of_run (run_jump _ _), runs_placeLabel] at h
    simp only [withLabels_withLabels, withLabels_labels, withBanner_labels] at he h
    exact ⟨v, g₁, g₂, _, hc, ht, ⟨g₄, he, rfl⟩, h⟩
  | none =>
    dsimp only at h
    rw [Runs.bind_of_run (run_jump _ _), runs_placeLabel] at h
    simp only [withLabels_withLabels, withLabels_labels, withBanner_labels] at h
    exact ⟨v, g₁, g₂, _, hc, ht, rfl, h⟩

/-- A `while` loop jumps to its test, which leads to the body or out; the body leads back to the test. -/
theorem runs_lowerWhile {c b : NodeId} {u : Unit} (h : Runs (p.lowerWhile w c b) g u g') :
    ∃ v g₁ g₂,
      Runs (p.testOf w c) ((((g.withBanner .whileLoop).withLabels 3).withJump ⟨g.labels⟩).withLabel ⟨g.labels⟩).withScope
        v g₁ ∧
      Runs (w.emit b) ((g₁.withoutScope.withTerminator (.branch v ⟨g.labels + 1⟩ ⟨g.labels + 2⟩)).withLabel
        ⟨g.labels + 1⟩).withScope () g₂ ∧
      g' = (g₂.withoutScope.withJump ⟨g.labels⟩).withLabel ⟨g.labels + 2⟩ := by
  unfold lowerWhile at h
  rw [Runs.bind_of_run (run_banner _ _), Runs.bind_of_run (run_newLabel _), Runs.bind_of_run (run_newLabel _),
    Runs.bind_of_run (run_newLabel _), Runs.bind_of_run (run_jump _ _), Runs.bind_of_run (run_placeLabel _ _),
    runs_inScope_bind] at h
  obtain ⟨v, g₁, hc, h⟩ := h
  rw [Runs.bind_of_run (run_branch _ _ _ _), Runs.bind_of_run (run_placeLabel _ _), runs_inScope_bind] at h
  obtain ⟨_, g₂, hb, h⟩ := h
  rw [Runs.bind_of_run (run_jump _ _), runs_placeLabel] at h
  simp only [withLabels_withLabels, withLabels_labels, withBanner_labels] at hc hb h
  exact ⟨v, g₁, g₂, hc, hb, h⟩

/-- A `do` loop jumps to its body, which leads to the test; the test leads back to the body or out. -/
theorem runs_lowerDo {b c : NodeId} {u : Unit} (h : Runs (p.lowerDo w b c) g u g') :
    ∃ g₁ v g₂,
      Runs (w.emit b) ((((g.withBanner .doLoop).withLabels 3).withJump ⟨g.labels⟩).withLabel ⟨g.labels⟩).withScope () g₁ ∧
      Runs (p.testOf w c) ((g₁.withoutScope.withJump ⟨g.labels + 1⟩).withLabel ⟨g.labels + 1⟩).withScope v g₂ ∧
      g' = (g₂.withoutScope.withTerminator (.branch v ⟨g.labels⟩ ⟨g.labels + 2⟩)).withLabel ⟨g.labels + 2⟩ := by
  unfold lowerDo at h
  rw [Runs.bind_of_run (run_banner _ _), Runs.bind_of_run (run_newLabel _), Runs.bind_of_run (run_newLabel _),
    Runs.bind_of_run (run_newLabel _), Runs.bind_of_run (run_jump _ _), Runs.bind_of_run (run_placeLabel _ _),
    runs_inScope_bind] at h
  obtain ⟨_, g₁, hb, h⟩ := h
  rw [Runs.bind_of_run (run_jump _ _), Runs.bind_of_run (run_placeLabel _ _), runs_inScope_bind] at h
  obtain ⟨v, g₂, hc, h⟩ := h
  rw [Runs.bind_of_run (run_branch _ _ _ _), runs_placeLabel] at h
  simp only [withLabels_withLabels, withLabels_labels, withBanner_labels] at hb hc h
  exact ⟨g₁, v, g₂, hb, hc, h⟩

/-- A `for` loop runs its start expression in the current block, then loops as `while` does, with its step
expression in a block of its own after the body. -/
theorem runs_lowerFor {i c s b : NodeId} {u : Unit} (h : Runs (p.lowerFor w i c s b) g u g') :
    ∃ vi g₁ v g₂ g₃ vs g₄,
      Runs (w.expr i) ((g.withBanner .forLoop).withLabels 4) vi g₁ ∧
      Runs (p.testOf w c) ((g₁.withJump ⟨g.labels⟩).withLabel ⟨g.labels⟩).withScope v g₂ ∧
      Runs (w.emit b) ((g₂.withoutScope.withTerminator (.branch v ⟨g.labels + 1⟩ ⟨g.labels + 3⟩)).withLabel
        ⟨g.labels + 1⟩).withScope () g₃ ∧
      Runs (w.expr s) ((g₃.withoutScope.withJump ⟨g.labels + 2⟩).withLabel ⟨g.labels + 2⟩).withScope vs g₄ ∧
      g' = (g₄.withoutScope.withJump ⟨g.labels⟩).withLabel ⟨g.labels + 3⟩ := by
  unfold lowerFor at h
  rw [Runs.bind_of_run (run_banner _ _), Runs.bind_of_run (run_newLabel _), Runs.bind_of_run (run_newLabel _),
    Runs.bind_of_run (run_newLabel _), Runs.bind_of_run (run_newLabel _), Runs.bind_iff] at h
  obtain ⟨_, g₁, hi, h⟩ := h
  obtain ⟨vi, hi⟩ := Runs.discard_iff.mp hi
  rw [Runs.bind_of_run (run_jump _ _), Runs.bind_of_run (run_placeLabel _ _), runs_inScope_bind] at h
  obtain ⟨v, g₂, hc, h⟩ := h
  rw [Runs.bind_of_run (run_branch _ _ _ _), Runs.bind_of_run (run_placeLabel _ _), runs_inScope_bind] at h
  obtain ⟨_, g₃, hb, h⟩ := h
  rw [Runs.bind_of_run (run_jump _ _), Runs.bind_of_run (run_placeLabel _ _), runs_inScope_bind] at h
  obtain ⟨_, g₄, hs, h⟩ := h
  obtain ⟨vs, hs⟩ := Runs.discard_iff.mp hs
  rw [Runs.bind_of_run (run_jump _ _), runs_placeLabel] at h
  simp only [withLabels_withLabels, withLabels_labels, withBanner_labels] at hi hc hb hs h
  exact ⟨vi, g₁, v, g₂, g₃, vs, g₄, hi, hc, hb, hs, h⟩

/-- A returned string is handed over as it is when the function owns it, and copied first otherwise; any other
value is returned as it is. -/
theorem runs_handOver {t : Ty} {v : Value} {r : Value × Option Nat} (h : Runs (handOver t v) g r g') :
    (t = .string ∧ ∃ i, ownedIndex g.owned v = some i ∧ r = (v, some i) ∧ g' = g) ∨
    (t = .string ∧ ownedIndex g.owned v = none ∧ r = (.reg (g.nextReg "tmp"), none) ∧
      g' = ((g.withFresh "tmp").withInstr (.copy (g.nextReg "tmp") v)).withRuntime) ∨
    (t = .int ∧ r = (v, none) ∧ g' = g) := by
  unfold handOver at h
  cases t with
  | string =>
    simp only [if_true, Runs.bind_iff, Runs.get_iff] at h
    obtain ⟨_, _, ⟨rfl, rfl⟩, h⟩ := h
    cases hi : ownedIndex g.owned v with
    | some i =>
      rw [hi] at h
      obtain ⟨rfl, rfl⟩ := Runs.pure_iff.mp h
      exact .inl ⟨rfl, i, rfl, rfl, rfl⟩
    | none =>
      rw [hi] at h
      simp only [Runs.bind_iff, runs_temp, runs_instr, runs_useRuntime, Runs.pure_iff] at h
      obtain ⟨_, _, ⟨rfl, rfl⟩, _, _, rfl, _, _, rfl, rfl, rfl⟩ := h
      exact .inr (.inl ⟨rfl, rfl, rfl, rfl⟩)
  | int =>
    simp only [reduceCtorEq, if_false, Runs.pure_iff] at h
    obtain ⟨rfl, rfl⟩ := h
    exact .inr (.inr ⟨rfl, rfl, rfl⟩)

/-- A return lowers its value, hands it over, frees every other owned string, returns, and forgets the strings of
the innermost scope. -/
theorem runs_lowerReturn {x : NodeId} {u : Unit} (h : Runs (p.lowerReturn w x) g u g') :
    ∃ t v g₁ v' kept g₂, p.ast.ty? x = some t ∧ Runs (p.valueOf w x) g v g₁ ∧ Runs (handOver t v) g₁ (v', kept) g₂ ∧
      g' = ((g₂.withFrees (kept.elim g₂.owned g₂.owned.eraseIdx)).withTerminator (.ret t v')).withoutInner := by
  unfold lowerReturn at h
  simp only [Runs.bind_iff, runs_exprType, Runs.get_iff, runs_freeAll, runs_terminate, Runs.modify_iff] at h
  obtain ⟨t, _, ⟨ht, rfl⟩, v, g₁, hv, ⟨v', kept⟩, g₂, hh, _, _, ⟨rfl, rfl⟩, _, _, rfl, _, _, rfl, rfl⟩ := h
  exact ⟨t, v, g₁, v', kept, g₂, ht, hv, hh, by cases kept <;> rfl⟩

/-! ## Functions -/

end Program

namespace Generator

/-- The generator with items written, in order. -/
def withItems (g : Generator) (is : List Item) : Generator := is.foldl withItem g

/-- The generator with the queued string constants written, in first-use order. -/
def withConstantsWritten (g : Generator) : Generator :=
  ({ g with pending := #[] }).withItems (g.pending.toList.map fun (r, bytes) => .constant r bytes)

/-- The generator with the runtime's prototypes and a blank line written, if lowered code calls the runtime and they
have not been written yet. -/
def withRuntimeWritten (g : Generator) : Generator :=
  if g.runtimeUsed && !g.runtimeDeclared then
    { (g.withItems (Helper.all.map .helper)).withBlank with runtimeDeclared := true }
  else g

/-- The generator with a parameter spilled to its stack slot. -/
def withSpill (g : Generator) (s : Symbol) : Generator :=
  (g.withInstr (.alloca (s.name ++ ".addr") s.ty)).withInstr (.store s.ty (.arg s.name) (.slot (s.name ++ ".addr")))

/-- An instruction spills no parameter. -/
@[simp] theorem withInstr_spilled (g : Generator) (i : Instr) : (g.withInstr i).spilled = g.spilled := by
  unfold withInstr; split <;> rfl

/-- Spilling the parameters leaves the list of spilled parameters alone; the definition records it. -/
@[simp] theorem foldl_withSpill_spilled (g : Generator) (ps : List Symbol) :
    (ps.foldl withSpill g).spilled = g.spilled := by
  induction ps generalizing g with
  | nil => rfl
  | cons s ps ih => simp [ih, withSpill]

/-- Writing constants one by one writes them as items. -/
theorem runs_writeConstants {cs : List (Reg × List UInt8)} {g g' : Generator} {u : PUnit} :
    Runs (cs.forM fun (r, bytes) => write (.constant r bytes)) g u g' ↔
      g' = g.withItems (cs.map fun (r, bytes) => .constant r bytes) := by
  induction cs generalizing g with
  | nil => exact Runs.forM_nil.trans eq_comm
  | cons c cs ih =>
    rw [Runs.forM_cons, List.map_cons, withItems, List.foldl_cons, ← withItems, ← ih]
    constructor
    · rintro ⟨g₁, h₁, h₂⟩
      rwa [runs_write.mp h₁] at h₂
    · intro h
      exact ⟨_, runs_write.mpr rfl, h⟩

/-- Writing the queued constants succeeds exactly with `withConstantsWritten`. -/
theorem runs_flushConstants {g g' : Generator} {u : Unit} : Runs flushConstants g u g' ↔ g' = g.withConstantsWritten := by
  unfold flushConstants withConstantsWritten
  simp only [Runs.bind_iff, Runs.get_iff, Runs.modify_iff]
  constructor
  · rintro ⟨_, _, ⟨rfl, rfl⟩, _, _, rfl, h⟩
    exact runs_writeConstants.mp h
  · intro h
    exact ⟨_, _, ⟨rfl, rfl⟩, ⟨⟩, _, rfl, runs_writeConstants.mpr h⟩

/-- Writing prototypes one by one writes them as items. -/
theorem runs_writeHelpers {hs : List Helper} {g g' : Generator} {u : PUnit} :
    Runs (hs.forM fun h => write (.helper h)) g u g' ↔ g' = g.withItems (hs.map .helper) := by
  induction hs generalizing g with
  | nil => exact Runs.forM_nil.trans eq_comm
  | cons h hs ih =>
    rw [Runs.forM_cons, List.map_cons, withItems, List.foldl_cons, ← withItems, ← ih]
    constructor
    · rintro ⟨g₁, h₁, h₂⟩
      rwa [runs_write.mp h₁] at h₂
    · intro h
      exact ⟨_, runs_write.mpr rfl, h⟩

/-- Writing the runtime's prototypes, if owed, succeeds exactly with `withRuntimeWritten`. -/
theorem runs_declareRuntime {g g' : Generator} {u : Unit} : Runs declareRuntime g u g' ↔ g' = g.withRuntimeWritten := by
  unfold declareRuntime withRuntimeWritten
  rw [Runs.get_bind_iff]
  by_cases hr : g.runtimeUsed && !g.runtimeDeclared
  · simp only [hr, if_true, Runs.bind_iff, runs_writeHelpers, runs_writeBlank, Runs.modify_iff]
    constructor
    · rintro ⟨_, _, rfl, _, _, rfl, rfl⟩
      rfl
    · rintro rfl
      exact ⟨⟨⟩, _, rfl, ⟨⟩, _, rfl, rfl⟩
  · simp only [hr, if_false, Bool.false_eq_true, Runs.pure_iff]
    exact ⟨fun h => h.2.symm, fun h => ⟨trivial, h.symm⟩⟩

/-- Taking a temporary cannot fail: it gives the next `tmp` register and counts it. -/
theorem run_temp (g : Generator) : temp.run.run g = (.ok (g.nextReg "tmp"), g.withFresh "tmp") :=
  run_fresh "tmp" g

/-- Writing the queued constants cannot fail. -/
theorem run_flushConstants (g : Generator) : flushConstants.run.run g = (.ok (), g.withConstantsWritten) :=
  runs_flushConstants.mpr rfl

/-- Writing the runtime's prototypes cannot fail. -/
theorem run_declareRuntime (g : Generator) : declareRuntime.run.run g = (.ok (), g.withRuntimeWritten) :=
  runs_declareRuntime.mpr rfl

/-- Spilling the parameters succeeds exactly with their spills. -/
theorem runs_spills {ps : List Symbol} {g g' : Generator} {u : PUnit} :
    Runs (ps.forM fun s => do
        instr (.alloca (s.name ++ ".addr") s.ty)
        instr (.store s.ty (.arg s.name) (.slot (s.name ++ ".addr")))) g u g' ↔ g' = ps.foldl withSpill g := by
  induction ps generalizing g with
  | nil => exact Runs.forM_nil.trans eq_comm
  | cons s ps ih =>
    rw [Runs.forM_cons, List.foldl_cons, ← ih]
    simp only [Runs.bind_iff, runs_instr]
    constructor
    · rintro ⟨g₁, ⟨⟨⟩, _, rfl, rfl⟩, h⟩
      exact h
    · intro h
      exact ⟨_, ⟨⟨⟩, _, rfl, rfl⟩, h⟩

/-- The generator after a body that may fall off its end: every owned string is freed and the function returns
zero, unless the block has ended. -/
def withEpilogue (g : Generator) (result : Ty) : Generator :=
  if g.closed then g else ({ g with owned := [] }.withFrees g.owned).withTerminator (.ret result (zero result))

end Generator

namespace Program

variable {p : Program} {w : Walk} {g g' : Generator}

/-- A prototype is one line. -/
theorem runs_lowerPrototype {f : FunctionId} {u : Unit} (h : Runs (p.lowerPrototype f) g u g') :
    g' = g.withItem (.prototype (p.symbols.signature f).result (p.symbols.signature f).name
      ((p.symbols.signature f).params.map fun s => (p.symbols.symbol s).ty)) :=
  runs_write.mp h

/-- The generator in which a definition's body starts: head and `entry:` written, one level in, an open block, no
owned strings or scopes, every parameter spilled to its slot and read through it. -/
def bodyStart (p : Program) (f : FunctionId) (g : Generator) : Generator :=
  { ((p.symbols.signature f).params.map p.symbols.symbol).foldl withSpill
      { ((g.withItem (.header (p.symbols.signature f).result (p.symbols.signature f).name
          (((p.symbols.signature f).params.map p.symbols.symbol).map fun s => (s.ty, s.name)))).withItem .entry) with
        depth := g.depth + 1, closed := false, owned := [], marks := [] } with
    spilled := (p.symbols.signature f).params }

/-- The generator after a definition whose body left `g₁`: the epilogue, the level and the spilled parameters of `g`
restored, the closing brace, the string constants, a blank line and the runtime's prototypes if owed. -/
def bodyEnd (p : Program) (f : FunctionId) (g g₁ : Generator) : Generator :=
  ((({ g₁.withEpilogue (p.symbols.signature f).result with
        spilled := g.spilled, depth := (g₁.withEpilogue (p.symbols.signature f).result).depth - 1, closed := false }.withItem
      .close).withConstantsWritten).withBlank).withRuntimeWritten

/-- A definition is its body between `bodyStart` and `bodyEnd`. -/
theorem runs_lowerDefinition {f : FunctionId} {b : NodeId} {u : Unit} (h : Runs (p.lowerDefinition w f b) g u g') :
    ∃ g₁, Runs (w.emit b) (p.bodyStart f g) () g₁ ∧ g' = p.bodyEnd f g g₁ := by
  unfold lowerDefinition at h
  simp only [Runs.bind_iff, runs_write, Runs.modify_iff, runs_spills, Runs.get_iff, Runs.ite_iff, runs_freeOwned,
    runs_terminate, runs_flushConstants, runs_writeBlank, runs_declareRuntime] at h
  obtain ⟨_, _, rfl, _, _, rfl, _, _, rfl, _, _, rfl, _, _, ⟨rfl, rfl⟩, _, _, rfl, _, g₁, hb, _, _, ⟨rfl, rfl⟩, h⟩ := h
  refine ⟨g₁, hb, ?_⟩
  rcases h with ⟨hc, _, _, rfl, _, _, rfl, _, _, rfl, _, _, rfl, rfl⟩ |
    ⟨hc, _, _, rfl, _, _, rfl, _, _, rfl, _, _, rfl, _, _, rfl, _, _, rfl, rfl⟩
  · simp only [bodyEnd, withEpilogue, hc, if_true, foldl_withSpill_spilled]; rfl
  · simp only [bodyEnd, withEpilogue, hc, Bool.false_eq_true, if_false, foldl_withSpill_spilled]; rfl

/-- Spilling the parameters cannot fail. -/
theorem run_spills (ps : List Symbol) (g : Generator) :
    (ps.forM fun s => do
        instr (.alloca (s.name ++ ".addr") s.ty)
        instr (.store s.ty (.arg s.name) (.slot (s.name ++ ".addr")))).run.run g = (.ok (), ps.foldl withSpill g) :=
  runs_spills.mpr rfl

/-- A definition that fails fails in its body, lowered from `bodyStart`: what follows the body cannot fail. -/
theorem run_lowerDefinition_error {f : FunctionId} {b : NodeId} {e : CodegenError}
    (h : (p.lowerDefinition w f b).run.run g = (.error e, g')) : (w.emit b).run.run (p.bodyStart f g) = (.error e, g') := by
  unfold lowerDefinition at h
  simp only [Runs.run_bind, run_write, Runs.run_modify, Runs.run_get, run_spills] at h
  split at h
  · split at h <;> simp only [Runs.run_bind, run_freeOwned, run_terminate, Runs.run_modify, run_write,
      run_flushConstants, run_writeBlank, run_declareRuntime] at h <;> cases h
  · rename_i hb
    exact hb.trans h

/-! ## Nodes and the walk -/

/-- Emitting a node: an expression already lowered adds nothing, any other is lowered by its form; an instruction
is lowered by its rule. -/
theorem runs_emitNode {id : NodeId} {u : Unit} (h : Runs (p.emitNode w id) g u g') :
    (∃ e t, p.ast.get? id = some (.expr e t) ∧
      ((g.values.contains id = true ∧ g' = g) ∨ (g.values.contains id = false ∧ ∃ v, Runs (p.lowerForm w id e) g v g'))) ∨
    (∃ s, p.ast.get? id = some (.stmt s) ∧ Runs (p.lowerStmt w s) g () g') := by
  unfold emitNode at h
  cases hn : p.ast.get? id with
  | none =>
    rw [hn] at h
    exact absurd h Runs.throw_false
  | some n =>
    rw [hn] at h
    cases n with
    | expr e t =>
      refine .inl ⟨e, t, rfl, ?_⟩
      rw [Runs.get_bind_iff] at h
      cases hc : g.values.contains id with
      | true =>
        simp only [hc, if_true] at h
        exact .inl ⟨rfl, (Runs.pure_iff.mp h).2.symm⟩
      | false =>
        simp only [hc, Bool.false_eq_true, if_false, Runs.discard_iff] at h
        exact .inr ⟨rfl, h⟩
    | stmt s => exact .inr ⟨s, rfl, h⟩

/-- Emitting a statement node runs its rule. -/
theorem runs_emitNode_stmt {id : NodeId} {s : Stmt} {u : Unit} (hn : p.ast.get? id = some (.stmt s)) :
    Runs (p.emitNode w id) g u g' ↔ Runs (p.lowerStmt w s) g u g' := by
  unfold emitNode
  rw [hn]

end Program

/-- What every emit and every expression lowering of a walk does. -/
structure Walk.Sound (E : NodeId → Generator → Generator → Prop) (X : NodeId → Generator → Value → Generator → Prop)
    (w : Walk) : Prop where
  emit : ∀ {id g g'}, Runs (w.emit id) g () g' → E id g g'
  expr : ∀ {id g v g'}, Runs (w.expr id) g v g' → X id g v g'

namespace Program

variable {p : Program}

/-- The walk one level up emits by the rules over the walk below. -/
theorem walk_succ_emit (n : Nat) : (p.walk (n + 1)).emit = p.emitNode (p.walk n) := rfl

/-- The walk one level up lowers expressions by the rules over the walk below. -/
theorem walk_succ_expr (n : Nat) : (p.walk (n + 1)).expr = p.lowerExpr (p.walk n) := rfl

/-- Induction over the walk: a property that the walk at depth zero has, since it only fails, and that one level
of lowering rules keeps, holds of the walk at every depth. -/
theorem walk_induction (E : NodeId → Generator → Generator → Prop) (X : NodeId → Generator → Value → Generator → Prop)
    (step : ∀ n, (p.walk n).Sound E X → (p.walk (n + 1)).Sound E X) (n : Nat) : (p.walk n).Sound E X := by
  induction n with
  | zero => exact ⟨fun h => absurd h Runs.throw_false, fun h => absurd h Runs.throw_false⟩
  | succ n ih => exact step n ih

end Program

/-! ## Reaching nodes -/

/-- The nodes a node refers to. -/
def Node.children : Node → List NodeId
  | .expr (.neg x) _ => [x]
  | .expr (.arith _ l r) _ => [l, r]
  | .expr (.cmp _ l r) _ => [l, r]
  | .expr (.assign _ x) _ => [x]
  | .expr (.call _ args) _ => args
  | .expr _ _ => []
  | .stmt (.eval e) => [e]
  | .stmt (.ite c t e) => c :: t :: e.toList
  | .stmt (.whileLoop c b) => [c, b]
  | .stmt (.doLoop b c) => [b, c]
  | .stmt (.forLoop i c s b) => [i, c, s, b]
  | .stmt (.ret x) => [x]
  | .stmt (.block items) => items
  | .stmt (.define _ b) => [b]
  | .stmt _ => []

namespace Program

/-- The nodes reached from a node by following references, itself included. -/
inductive Reaches (p : Program) : NodeId → NodeId → Prop
  | refl (id : NodeId) : p.Reaches id id
  | child {id c d : NodeId} {n : Node} : p.ast.get? id = some n → c ∈ n.children → p.Reaches c d → p.Reaches id d

/-- Every node reached from a node has a property. -/
def Within (p : Program) (P : Node → Prop) (id : NodeId) : Prop :=
  ∀ d n, p.Reaches id d → p.ast.get? d = some n → P n

/-- A node that may stand in a function body: it neither defines nor declares a function, nor declares a global or
external variable. -/
def Local (p : Program) : Node → Prop
  | .stmt (.define ..) | .stmt (.prototype _) => False
  | .stmt (.declare syms) =>
    ∀ s ∈ syms, (p.symbols.symbol s).flags.external = false ∧ (p.symbols.symbol s).flags.global = false
  | _ => True

/-- The body of every function definition of the unit may stand in a function body. -/
def BodiesLocal (p : Program) : Prop :=
  ∀ id f b, p.ast.get? id = some (.stmt (.define f b)) → p.Within p.Local b

variable {p : Program} {P : Node → Prop} {id : NodeId} {n : Node}

/-- A node all of whose reached nodes have a property has it. -/
theorem Within.node (h : p.Within P id) (hn : p.ast.get? id = some n) : P n := h id n (.refl id) hn

/-- What holds of every node reached from a node holds of every node reached from its references. -/
theorem Within.child {c : NodeId} (h : p.Within P id) (hn : p.ast.get? id = some n) (hc : c ∈ n.children) :
    p.Within P c :=
  fun d n' hr hd => h d n' (.child hn hc hr) hd

/-- A list of nodes closed under references, each with a property: every node reached from one of them has it. -/
theorem within_of_closed (S : List NodeId)
    (hS : ∀ d ∈ S, ∀ n, p.ast.get? d = some n → P n ∧ ∀ c ∈ n.children, c ∈ S) (hid : id ∈ S) : p.Within P id := by
  intro d n hr hd
  induction hr with
  | refl d => exact (hS d hid n hd).1
  | child hn hc _ ih => exact ih ((hS _ hid _ hn).2 _ hc) hd

/-- A node of the tree stands at an id below the tree's size. -/
theorem Ast.lt_size {a : Ast} {id : NodeId} {n : Node} (h : a.get? id = some n) : id < a.size := by
  unfold Ast.get? at h
  exact (Array.getElem?_eq_some_iff.mp h).1

/-- Every node reached from `id` refers only to nodes made before it: the nodes were built bottom up. -/
def BuiltUp (p : Program) (id : NodeId) : Prop :=
  ∀ d n, p.Reaches id d → p.ast.get? d = some n → ∀ c ∈ n.children, c < d

/-- A reference of a node built bottom up is built bottom up. -/
theorem BuiltUp.child {id c : NodeId} {n : Node} (h : p.BuiltUp id) (hn : p.ast.get? id = some n)
    (hc : c ∈ n.children) : p.BuiltUp c :=
  fun d n' hr hd => h d n' (.child hn hc hr) hd

/-- A reference of a node built bottom up comes before it. -/
theorem BuiltUp.lt {id c : NodeId} {n : Node} (h : p.BuiltUp id) (hn : p.ast.get? id = some n)
    (hc : c ∈ n.children) : c < id :=
  h id n (.refl id) hn c hc

/-- Every node reached from a node built bottom up is no later than it. -/
theorem BuiltUp.reaches_le {id x : NodeId} (h : p.BuiltUp id) (hr : p.Reaches id x) : x ≤ id := by
  induction hr with
  | refl => exact Nat.le_refl _
  | child hn hc _ ih => exact Nat.le_trans (ih (h.child hn hc)) (Nat.le_of_lt (h.lt hn hc))

/-- No reference of a node built bottom up leads back to it. -/
theorem BuiltUp.not_reaches {id c : NodeId} {n : Node} (h : p.BuiltUp id) (hn : p.ast.get? id = some n)
    (hc : c ∈ n.children) : ¬p.Reaches c id :=
  fun hr => Nat.lt_irrefl c (Nat.lt_of_lt_of_le (h.lt hn hc) ((h.child hn hc).reaches_le hr))

/-! ## A whole unit -/

/-- A unit compiles when lowering its roots in order succeeds; its text is what the generator then finishes. -/
theorem runs_of_compile {layout : Layout} {s : String} (h : p.compile layout = .ok s) :
    ∃ g, Runs (p.ast.roots.toList.forM (p.walk (p.ast.size + 1)).emit) (Generator.new layout) () g ∧ s = g.finish := by
  unfold compile at h
  dsimp only at h
  split at h
  · rename_i g hg
    cases h
    exact ⟨g, hg, rfl⟩
  · cases h

/-- A unit whose text is found compiles to it. -/
theorem compile_eq_ok {layout : Layout} {s : String} (h : (p.compile layout).toOption = some s) :
    p.compile layout = .ok s := by
  revert h
  cases p.compile layout <;> simp [Except.toOption]

end Program

namespace Generator

/-- Finishing writes the constants and runtime prototypes still owed and renders the lines. -/
theorem finish_eq (g : Generator) : g.finish = render g.withConstantsWritten.withRuntimeWritten.layout.indentation
    g.withConstantsWritten.withRuntimeWritten.lines.toList := by
  have h : Runs (flushConstants *> declareRuntime) g () g.withConstantsWritten.withRuntimeWritten := by
    rw [seqRight_eq_bind]
    exact Runs.bind_iff.mpr ⟨(), _, runs_flushConstants.mpr rfl, runs_declareRuntime.mpr rfl⟩
  unfold finish
  rw [h]

end Generator

end Lowering
