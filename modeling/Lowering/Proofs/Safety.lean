import Lowering.Proofs.Memo
import Lowering.Proofs.Declarations

/-!
# Lowering takes none of its fallbacks

Every lookup that lowering makes has a fallback for when nothing is there: a variable or function without a record
reads as a default record, a node missing from the tree as no node, a level below zero as zero, and a chain of
references longer than the walk as a cycle. On a tree without reference cycles whose variables and functions all have
records (`Program.NamesInRange`), in a table whose functions list parameters that have records, as every table built
by declarations does (`arenas_follow_steps`), no fallback is ever taken (`lowering_never_falls_back`):

* no emit runs out of walk, since every chain of references is bounded (`Acyclic.bounded`);
* the table is read only at the records it has: a table that holds them at their positions, and anything after them,
  lowers every node alike (`walk_extends`);
* a node whose form is read after it was lowered as an operand is in the tree: every operand recorded is for an
  expression node (`Program.Memo`, true of every state a session reaches), and from such a state an expression
  lowers only if it is one (`lowered_expr_exists`);
* a successful lowering leaves the level as it found it (`restores_walk`), so the level a definition lowers back from
  is the one it raised (`body_level`). This holds of successful runs, not move by move (the start of a body raises
  the level, and only its end lowers it back), so each rule has its lemma.

A closed scope splits the owned strings only at a mark below their number, and a return keeps the strings up to its
mark, so neither reaches past their end; labels and registers are counted by natural numbers. A failed emit leaves
stale marks, a raised level and another function's parameters behind, and each statement here holds from any
generator, or from any memo, so it covers the emits that come after.
-/

set_option mvcgen.warning false

namespace Lowering

open Std.Do Ir Generator

/-! ## The level -/

namespace Generator

variable (g : Generator)

/-- An item keeps the level. -/
@[simp] theorem withItem_depth (i : Item) : (g.withItem i).depth = g.depth := rfl

/-- A blank line keeps the level. -/
@[simp] theorem withBlank_depth : g.withBlank.depth = g.depth := rfl

/-- A label keeps the level. -/
@[simp] theorem withLabel_depth (l : Label) : (g.withLabel l).depth = g.depth := rfl

/-- Taking labels keeps the level. -/
@[simp] theorem withLabels_depth (n : Nat) : (g.withLabels n).depth = g.depth := rfl

/-- Opening a string scope keeps the level. -/
@[simp] theorem withScope_depth : g.withScope.depth = g.depth := rfl

/-- Taking a register keeps the level. -/
@[simp] theorem withFresh_depth (b : String) : (g.withFresh b).depth = g.depth := rfl

/-- Recording an operand keeps the level. -/
@[simp] theorem withValue_depth (id : NodeId) (v : Value) : (g.withValue id v).depth = g.depth := rfl

/-- Owning a string keeps the level. -/
@[simp] theorem withOwned_depth (r : Reg) : (g.withOwned r).depth = g.depth := rfl

/-- Marking the runtime used keeps the level. -/
@[simp] theorem withRuntime_depth : g.withRuntime.depth = g.depth := rfl

/-- Queueing a constant keeps the level. -/
@[simp] theorem withConstant_depth (r : Reg) (bytes : List UInt8) : (g.withConstant r bytes).depth = g.depth := rfl

/-- A banner keeps the level. -/
@[simp] theorem withBanner_depth (c : Construct) : (g.withBanner c).depth = g.depth := by
  unfold withBanner
  split <;> rfl

/-- An instruction keeps the level. -/
@[simp] theorem withInstr_depth (i : Instr) : (g.withInstr i).depth = g.depth := by
  unfold withInstr
  split <;> rfl

/-- A terminator keeps the level. -/
@[simp] theorem withTerminator_depth (i : Instr) : (g.withTerminator i).depth = g.depth := g.withInstr_depth i

/-- A jump keeps the level. -/
@[simp] theorem withJump_depth (l : Label) : (g.withJump l).depth = g.depth := by
  unfold withJump
  split <;> simp

/-- Freeing strings keeps the level. -/
@[simp] theorem withFrees_depth (rs : List Reg) : (g.withFrees rs).depth = g.depth := by
  induction rs generalizing g with
  | nil => rfl
  | cons r rs ih => exact (ih _).trans (g.withInstr_depth (.free (.reg r)))

/-- Closing a string scope keeps the level. -/
@[simp] theorem withoutScope_depth : g.withoutScope.depth = g.depth := by
  unfold withoutScope
  split
  · split
    · rfl
    · exact withFrees_depth _ _
  · rfl

/-- Items keep the level. -/
@[simp] theorem withItems_depth (is : List Item) : (g.withItems is).depth = g.depth := by
  induction is generalizing g with
  | nil => rfl
  | cons i is ih => exact ih _

/-- Writing the queued constants keeps the level. -/
@[simp] theorem withConstantsWritten_depth : g.withConstantsWritten.depth = g.depth := withItems_depth _ _

/-- Writing the runtime's prototypes keeps the level. -/
@[simp] theorem withRuntimeWritten_depth : g.withRuntimeWritten.depth = g.depth := by
  unfold withRuntimeWritten
  split
  · exact withItems_depth _ _
  · rfl

/-- Spilling a parameter keeps the level. -/
@[simp] theorem withSpill_depth (s : Symbol) : (g.withSpill s).depth = g.depth := by simp [withSpill]

/-- Spilling the parameters keeps the level. -/
@[simp] theorem foldl_withSpill_depth (ps : List Symbol) : (ps.foldl withSpill g).depth = g.depth := by
  induction ps generalizing g with
  | nil => rfl
  | cons s ps ih => exact (ih _).trans (g.withSpill_depth s)

/-- The epilogue keeps the level. -/
@[simp] theorem withEpilogue_depth (t : Ty) : (g.withEpilogue t).depth = g.depth := by
  unfold withEpilogue
  split <;> simp

end Generator

/-- The step `x`, when it succeeds, leaves the nesting level as it found it. -/
abbrev RestoresLevel {α : Type} (x : GenM α) : Prop :=
  ∀ d, ⦃fun g => ⌜g.depth = d⌝⦄ x ⦃post⟨fun _ g => ⌜g.depth = d⌝, fun _ _ => ⌜True⌝⟩⦄

/-- A step whose successful runs all end at the level they started from restores it. -/
theorem RestoresLevel.of_runs {α : Type} {x : GenM α} (h : ∀ g a g', Runs x g a g' → g'.depth = g.depth) :
    RestoresLevel x :=
  fun _ => triple_of_outcomes (fun g a g' hg hx => (h g a g' hx).trans hg) fun _ _ _ _ _ => trivial

/-- What restoring the level says of one successful run. -/
theorem RestoresLevel.runs {α : Type} {x : GenM α} (h : RestoresLevel x) {g g' : Generator} {a : α}
    (hr : Runs x g a g') : g'.depth = g.depth :=
  Runs.post (h g.depth) hr rfl

/-- A loop of steps that restore the level restores it. -/
theorem RestoresLevel.forM {α : Type} {xs : List α} {f : α → GenM PUnit} (hf : ∀ a, RestoresLevel (f a)) :
    RestoresLevel (xs.forM f) := by
  intro d
  induction xs with
  | nil => mvcgen
  | cons a xs ih =>
    have ha := hf a d
    rw [List.forM_eq_forM, List.forM_cons]
    mvcgen [ha, ih]

/-- Both ways of lowering through a walk leave the level as they found it when they succeed. -/
structure Walk.RestoresLevel (w : Walk) : Prop where
  emit : ∀ id, Lowering.RestoresLevel (w.emit id)
  expr : ∀ id, Lowering.RestoresLevel (w.expr id)

namespace Program

variable {p : Program}

/-- Declarations restore the level. -/
theorem restores_lowerDeclarations (syms : List SymbolId) : RestoresLevel (p.lowerDeclarations syms) :=
  RestoresLevel.forM fun _ _ => by
    mvcgen [write_spec, instr_spec]
    simp_all

section Rules

variable {w : Walk} (hw : w.RestoresLevel)
include hw

/-- Lowering an operand restores the level when the walk below does. -/
theorem restores_valueOf (id : NodeId) : RestoresLevel (p.valueOf w id) := by
  intro d
  have hx := hw.expr id d
  mvcgen [Program.valueOf, temp, fresh_spec, instr_spec, hx]
  all_goals simp_all

/-- Lowering a condition restores the level when the walk below does. -/
theorem restores_testOf (id : NodeId) : RestoresLevel (p.testOf w id) := by
  intro d
  have hx := hw.expr id d
  have hv := restores_valueOf (p := p) hw id d
  mvcgen [Program.testOf, Program.exprType, temp, fresh_spec, instr_spec, hx, hv]
  all_goals simp_all

/-- Lowering the arguments of a call restores the level when the walk below does. -/
theorem restores_arguments (callee : String) (i : Nat) (args : List (NodeId × SymbolId)) :
    RestoresLevel (p.arguments w callee i args) := by
  intro d
  have hv := fun id => restores_valueOf (p := p) hw id d
  induction args generalizing i with
  | nil => mvcgen [Program.arguments]
  | cons a args ih => mvcgen [Program.arguments, Program.exprType, hv, ih]

/-- Lowering an expression by its form restores the level when the walk below does. -/
theorem restores_lowerForm (id : NodeId) (e : Expr) : RestoresLevel (p.lowerForm w id e) := by
  intro d
  have hv := fun id => restores_valueOf (p := p) hw id d
  have ha := fun c i args => restores_arguments (p := p) hw c i args d
  cases e <;> mvcgen [Program.lowerForm, Program.storage, Program.exprType, Program.operandType, temp, fresh_spec,
    instr_spec, remember_spec, own_spec, useRuntime_spec, queueConstant_spec, hv, ha]
  all_goals simp_all

/-- Lowering an expression node restores the level when the walk below does. -/
theorem restores_lowerExpr (id : NodeId) : RestoresLevel (p.lowerExpr w id) := by
  intro d
  have hf := fun e => restores_lowerForm (p := p) hw id e d
  mvcgen [Program.lowerExpr, hf]

/-- The level a definition's body ends at is the one its start raised, so lowering it back never goes below zero. -/
theorem body_level {f : FunctionId} {b : NodeId} {g g' : Generator} (h : Runs (p.lowerDefinition w f b) g () g') :
    ∃ g₁, Runs (w.emit b) (p.bodyStart f g) () g₁ ∧ g₁.depth = g.depth + 1 ∧ g' = p.bodyEnd f g g₁ := by
  obtain ⟨g₁, hb, rfl⟩ := runs_lowerDefinition h
  refine ⟨g₁, hb, ?_, rfl⟩
  rw [(hw.emit b).runs hb]
  exact foldl_withSpill_depth _ _

/-- A definition restores the level when the walk below does: its body goes one level in and comes back. -/
theorem restores_lowerDefinition (f : FunctionId) (b : NodeId) : RestoresLevel (p.lowerDefinition w f b) := by
  refine RestoresLevel.of_runs fun g _ g' h => ?_
  obtain ⟨g₁, -, h₁, rfl⟩ := body_level hw h
  simp [bodyEnd, h₁]

/-- Every statement rule restores the level when the walk below does. -/
theorem restores_lowerStmt (s : Stmt) : RestoresLevel (p.lowerStmt w s) := by
  intro d
  have hx := fun id => hw.expr id d
  have he := fun id => hw.emit id d
  have ht := fun id => restores_testOf (p := p) hw id d
  have hv := fun id => restores_valueOf (p := p) hw id d
  have hs : ∀ items : List NodeId, ⦃fun g => ⌜g.depth = d⌝⦄ items.forM w.emit
      ⦃post⟨fun _ g => ⌜g.depth = d⌝, fun _ _ => ⌜True⌝⟩⦄ := fun _ => RestoresLevel.forM hw.emit d
  have hdecl := fun syms => restores_lowerDeclarations (p := p) syms d
  -- a definition lowers its body one level in, so its rule is taken whole, from `body_level`
  have hdef := fun f b => restores_lowerDefinition (p := p) hw f b d
  cases s <;> mvcgen [Program.lowerStmt, Program.lowerChoice, Program.lowerWhile, Program.lowerDo, Program.lowerFor,
    Program.lowerReturn, Program.handOver, Program.lowerPrototype, Program.exprType, inScope, Runs.discard_eq, temp,
    fresh_spec, instr_spec, write_spec, banner_spec, newLabel_spec, placeLabel_spec, openScope_spec,
    closeScope_spec, branch_spec, jump_spec, terminate_spec, freeAll_spec, useRuntime_spec, hx, he, ht, hv, hs, hdecl,
    hdef]
  -- the last step of a return, which forgets the innermost scope's strings, is left as a local definition
  all_goals simp_all +zetaDelta

/-- Emitting a node restores the level when the walk below does. -/
theorem restores_emitNode (id : NodeId) : RestoresLevel (p.emitNode w id) := by
  intro d
  have hs := fun s => restores_lowerStmt (p := p) hw s d
  have hf := fun e => restores_lowerForm (p := p) hw id e d
  mvcgen [Program.emitNode, Runs.discard_eq, hs, hf]

end Rules

/-- At every depth, a successful lowering leaves the level as it found it. -/
theorem restores_walk (n : Nat) : (p.walk n).RestoresLevel := by
  induction n with
  | zero => exact ⟨fun id d => by mvcgen [walk, stuck], fun id d => by mvcgen [walk, stuck]⟩
  | succ n ih => exact ⟨restores_emitNode ih, restores_lowerExpr ih⟩

end Program

/-! ## The table is read only at records it has -/

/-- The variables a node names. -/
def Node.symbolRefs : Node → List SymbolId
  | .expr (.read s) _ => [s]
  | .expr (.assign s _) _ => [s]
  | .stmt (.declare syms) => syms
  | _ => []

/-- The functions a node names. -/
def Node.functionRefs : Node → List FunctionId
  | .expr (.call f _) _ => [f]
  | .stmt (.prototype f) => [f]
  | .stmt (.define f _) => [f]
  | _ => []

namespace SymbolTable

/-- A table that holds every record of `t` at its position, and possibly more after them. -/
structure Extends (t' t : SymbolTable) : Prop where
  symbols : ∀ s < t.symbols.size, t'.symbols[s]? = t.symbols[s]?
  functions : ∀ f < t.functions.size, t'.functions[f]? = t.functions[f]?

variable {t t' : SymbolTable}

/-- A table that extends another reads its variables alike. -/
theorem Extends.symbol (h : t'.Extends t) {s : SymbolId} (hs : s < t.symbols.size) : t'.symbol s = t.symbol s := by
  simp only [SymbolTable.symbol, h.symbols s hs]

/-- A table that extends another reads its functions alike. -/
theorem Extends.signature (h : t'.Extends t) {f : FunctionId} (hf : f < t.functions.size) :
    t'.signature f = t.signature f := by
  simp only [SymbolTable.signature, h.functions f hf]

end SymbolTable

namespace Program

variable {p : Program}

/-- Every variable and function that a node of the tree names has a record in the table. -/
def NamesInRange (p : Program) : Prop :=
  ∀ id n, p.ast.get? id = some n →
    (∀ s ∈ n.symbolRefs, s < p.symbols.symbols.size) ∧ ∀ f ∈ n.functionRefs, f < p.symbols.functions.size

section Table

variable {t : SymbolTable} (ht : t.Extends p.symbols)
include ht

/-- Where a variable with a record is stored does not change in a table that extends the program's. -/
theorem storage_extends {s : SymbolId} (hs : s < p.symbols.symbols.size) :
    ({ p with symbols := t } : Program).storage s = p.storage s := by
  simp only [storage, ht.symbol hs]

/-- Arguments passed to parameters with records lower alike in a table that extends the program's. -/
theorem arguments_extends (w : Walk) (callee : String) {args : List (NodeId × SymbolId)}
    (hs : ∀ a ∈ args, a.2 < p.symbols.symbols.size) (i : Nat) :
    ({ p with symbols := t } : Program).arguments w callee i args = p.arguments w callee i args := by
  induction args generalizing i with
  | nil => rfl
  | cons a args ih =>
    simp only [arguments, ht.symbol (hs a List.mem_cons_self), ih (fun b hb => hs b (List.mem_cons_of_mem a hb))]
    rfl

/-- An expression whose names have records lowers alike in a table that extends the program's. -/
theorem lowerForm_extends (hr : p.symbols.IdsInRange) (w : Walk) (id : NodeId) {e : Expr} {ty : Option Ty}
    (hn : (∀ s ∈ (Node.expr e ty).symbolRefs, s < p.symbols.symbols.size) ∧
      ∀ f ∈ (Node.expr e ty).functionRefs, f < p.symbols.functions.size) :
    ({ p with symbols := t } : Program).lowerForm w id e = p.lowerForm w id e := by
  cases e with
  | read s =>
    have hs : s < p.symbols.symbols.size := hn.1 s (by simp [Node.symbolRefs])
    simp only [lowerForm, ht.symbol hs, storage_extends ht hs]
  | assign s x =>
    have hs : s < p.symbols.symbols.size := hn.1 s (by simp [Node.symbolRefs])
    simp only [lowerForm, ht.symbol hs, storage_extends ht hs]
    rfl
  | call f args =>
    have hf : f < p.symbols.functions.size := hn.2 f (by simp [Node.functionRefs])
    simp only [lowerForm, ht.signature hf,
      arguments_extends ht w _ (fun a ha => hr.signature_params f a.2 (List.of_mem_zip ha).2)]
  | int | str | neg | arith | cmp => rfl

/-- A statement whose names have records lowers alike in a table that extends the program's. -/
theorem lowerStmt_extends (hr : p.symbols.IdsInRange) (w : Walk) {s : Stmt}
    (hn : (∀ x ∈ (Node.stmt s).symbolRefs, x < p.symbols.symbols.size) ∧
      ∀ f ∈ (Node.stmt s).functionRefs, f < p.symbols.functions.size) :
    ({ p with symbols := t } : Program).lowerStmt w s = p.lowerStmt w s := by
  cases s with
  | declare syms =>
    simp only [lowerStmt, lowerDeclarations]
    exact forM_congr fun x hx => by rw [ht.symbol (hn.1 x (by simpa [Node.symbolRefs] using hx))]
  | prototype f =>
    have hf : f < p.symbols.functions.size := hn.2 f (by simp [Node.functionRefs])
    simp only [lowerStmt, lowerPrototype, ht.signature hf]
    rw [List.map_congr_left fun x hx => by rw [ht.symbol (hr.signature_params f x hx)]]
  | define f b =>
    have hf : f < p.symbols.functions.size := hn.2 f (by simp [Node.functionRefs])
    simp only [lowerStmt, lowerDefinition, ht.signature hf]
    rw [List.map_congr_left fun x hx => ht.symbol (hr.signature_params f x hx)]
  | eval | ite | whileLoop | doLoop | forLoop | ret | block => rfl

/-- One level of the rules is the same in a table that extends the program's, when every name has a record. -/
theorem step_extends (hr : p.symbols.IdsInRange) (hn : p.NamesInRange) (w : Walk) :
    ({ p with symbols := t } : Program).step w = p.step w := by
  have hemit : ({ p with symbols := t } : Program).emitNode w = p.emitNode w := by
    funext id
    cases h : p.ast.get? id with
    | none => simp only [emitNode, h]
    | some n =>
      cases n with
      | expr e ty => simp only [emitNode, h, lowerForm_extends ht hr w id (hn id _ h)]
      | stmt s => simp only [emitNode, h, lowerStmt_extends ht hr w (hn id _ h)]
  have hexpr : ({ p with symbols := t } : Program).lowerExpr w = p.lowerExpr w := by
    funext id
    cases h : p.ast.get? id with
    | none => simp only [lowerExpr, h]
    | some n =>
      cases n with
      | expr e ty => cases ty <;> simp only [lowerExpr, h, lowerForm_extends ht hr w id (hn id _ h)]
      | stmt s => simp only [lowerExpr, h]
  simp only [step, hemit, hexpr]

/-- Every walk is the same in a table that extends the program's, when every name has a record. -/
theorem walk_extends (hr : p.symbols.IdsInRange) (hn : p.NamesInRange) (n : Nat) :
    ({ p with symbols := t } : Program).walk n = p.walk n := by
  induction n with
  | zero => rfl
  | succ n ih => simp only [walk, ih, step_extends ht hr hn]

end Table

/-! ## Nodes read after they are lowered -/

/-- From a memo, an expression that lowers as an operand, at any depth, is an expression node of the tree, and the
memo stays one. -/
theorem lowered_expr_exists (n : Nat) {id : NodeId} {g g' : Generator} {v : Value} (hg : p.Memo g)
    (h : Runs ((p.walk n).expr id) g v g') : p.Memo g' ∧ ∃ e t, p.ast.get? id = some (.expr e t) := by
  have ht : p.Tracks g g' := (Runs.post ((tracks_walk n).expr g id) h hg.tracks).1
  exact ⟨ht.memo, (ht.memo id v ((records_walk n).expr h)).1⟩

/-- The generator that lowers nothing refuses every node, and names a node's form only for a node of the tree. -/
theorem refuse_names_nodes (id : NodeId) :
    (p.ast.get? id = none ∧ p.refuse id = .error (.dangling id)) ∨
      ∃ n, p.ast.get? id = some n ∧ p.refuse id = .error (.unhandled refusingName n.kindName id) := by
  unfold refuse
  cases p.ast.get? id with
  | none => exact .inl ⟨rfl, rfl⟩
  | some n => exact .inr ⟨n, rfl, rfl⟩

/-! ## No fallback -/

/-- Lowering takes none of its fallbacks on a tree without reference cycles whose variables and functions have records
in a table whose functions' parameters have records:
(i) no emit runs out of walk;
(ii) the table is read only at the records it has, so any table holding them at their positions lowers alike;
(iii) every state a session reaches is a memo, and from a memo an expression lowered as an operand, at any depth, is an
expression node of the tree, so its form is there to read;
(iv) at any depth a successful lowering leaves the level as it found it, so the body of a definition ends one level in
from where the definition started, the level the definition lowers back from;
(v) the generator that lowers nothing names a node's form only for a node of the tree. -/
theorem lowering_never_falls_back (hp : p.Acyclic) (hn : p.NamesInRange) (hr : p.symbols.IdsInRange) :
    (∀ id g c, ((p.emit id).run.run g).1 ≠ .error (.cyclic c)) ∧
    (∀ t : SymbolTable, t.Extends p.symbols → ∀ n, ({ p with symbols := t } : Program).walk n = p.walk n) ∧
    (∀ layout steps, p.Memo ((Generator.new layout).afterSteps p steps)) ∧
    (∀ n id g v g', p.Memo g → Runs ((p.walk n).expr id) g v g' →
      p.Memo g' ∧ ∃ e t, p.ast.get? id = some (.expr e t)) ∧
    (∀ n id g g', Runs ((p.walk n).emit id) g () g' → g'.depth = g.depth) ∧
    (∀ n id g v g', Runs ((p.walk n).expr id) g v g' → g'.depth = g.depth) ∧
    (∀ n f b g g', Runs (p.lowerDefinition (p.walk n) f b) g () g' →
      ∃ g₁, Runs ((p.walk n).emit b) (p.bodyStart f g) () g₁ ∧ g₁.depth = g.depth + 1 ∧ g' = p.bodyEnd f g g₁) ∧
    ∀ id, (p.ast.get? id = none ∧ p.refuse id = .error (.dangling id)) ∨
      ∃ n, p.ast.get? id = some n ∧ p.refuse id = .error (.unhandled refusingName n.kindName id) := by
  refine ⟨fun id g c => NeverCyclic.run (hp.bounded id).neverCyclic.1 g c, fun t ht n => walk_extends ht hr hn n,
    fun layout steps => (tracks_afterSteps (memo_new layout) steps).memo, fun n _ _ _ _ hg h => lowered_expr_exists n hg h,
    fun n id _ _ h => ((restores_walk n).emit id).runs h, fun n id _ _ _ h => ((restores_walk n).expr id).runs h,
    fun n _ _ _ _ h => body_level (restores_walk n) h, refuse_names_nodes⟩

/-- A unit that defines `int ident(int x) { return x; }`. -/
def identityUnit : Program where
  symbols :=
    { symbols := #[{ name := "x", ty := .int, flags := { param := true } }]
      functions := #[{ name := "ident", result := .int, params := [0] }] }
  ast := { nodes := #[.expr (.read 0) (some .int), .stmt (.ret 0), .stmt (.define 0 1)], roots := #[2] }

/-- The unit defining `ident` has no cycle: every reference names an earlier node. -/
theorem identityUnit_acyclic : identityUnit.Acyclic := by
  refine acyclic_of_rank (fun id => id) fun id n c hn hc => ?_
  rcases id with _ | _ | _ | id <;> simp [identityUnit, Ast.get?] at hn <;> subst hn <;>
    simp [Node.children] at hc
  all_goals
    subst hc
    decide

/-- Every name in the unit defining `ident` has a record. -/
theorem identityUnit_namesInRange : identityUnit.NamesInRange := by
  intro id n hn
  rcases id with _ | _ | _ | id <;> simp [identityUnit, Ast.get?] at hn <;> subst hn <;>
    simp [Node.symbolRefs, Node.functionRefs, identityUnit]

/-- The table of the unit defining `ident` stores only ids in range. -/
theorem identityUnit_idsInRange : identityUnit.symbols.IdsInRange where
  globals _ _ h := by simp [identityUnit] at h
  locals _ h := by cases h
  params sig hs s hs' := by
    simp [identityUnit] at hs
    subst hs
    simp at hs'
    simp [hs', identityUnit]

/-- The unit defining `ident` takes none of the fallbacks of lowering. -/
theorem identityUnit_never_falls_back : identityUnit.Acyclic ∧ identityUnit.NamesInRange ∧
    identityUnit.symbols.IdsInRange ∧
    (∀ id g c, ((identityUnit.emit id).run.run g).1 ≠ .error (.cyclic c)) ∧
    (∀ t : SymbolTable, t.Extends identityUnit.symbols → ∀ n,
      ({ identityUnit with symbols := t } : Program).walk n = identityUnit.walk n) ∧
    (∀ layout steps, identityUnit.Memo ((Generator.new layout).afterSteps identityUnit steps)) ∧
    (∀ n id g v g', identityUnit.Memo g → Runs ((identityUnit.walk n).expr id) g v g' →
      identityUnit.Memo g' ∧ ∃ e t, identityUnit.ast.get? id = some (.expr e t)) ∧
    (∀ n id g g', Runs ((identityUnit.walk n).emit id) g () g' → g'.depth = g.depth) ∧
    (∀ n id g v g', Runs ((identityUnit.walk n).expr id) g v g' → g'.depth = g.depth) ∧
    (∀ n f b g g', Runs (identityUnit.lowerDefinition (identityUnit.walk n) f b) g () g' →
      ∃ g₁, Runs ((identityUnit.walk n).emit b) (identityUnit.bodyStart f g) () g₁ ∧ g₁.depth = g.depth + 1 ∧
        g' = identityUnit.bodyEnd f g g₁) ∧
    ∀ id, (identityUnit.ast.get? id = none ∧ identityUnit.refuse id = .error (.dangling id)) ∨
      ∃ n, identityUnit.ast.get? id = some n ∧
        identityUnit.refuse id = .error (.unhandled refusingName n.kindName id) :=
  ⟨identityUnit_acyclic, identityUnit_namesInRange, identityUnit_idsInRange,
    lowering_never_falls_back identityUnit_acyclic identityUnit_namesInRange identityUnit_idsInRange⟩

end Program

end Lowering
