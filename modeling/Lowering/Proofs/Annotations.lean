import Lowering.Proofs.Rules

/-!
# Annotating changes only blank and banner lines

A layout that annotates writes a blank line before every label, and a blank line and a banner before every structured
construct; nothing else in lowering reads that choice. `Generator.plain` forgets it: the annotation switched off, and
only the lines that are neither blank nor banners kept.

`Stable x` says that runs of `x` from two generators with the same plain view end with the same outcome, the same value
or the same error, and again with the same plain view. Every step that cannot fail commutes with `plain`, so every rule
is stable, so every walk is (`stable_walk`). A unit lowered under both choices of annotation, with one indentation,
therefore fails with the same error under both or succeeds under both, with listings that agree once the blank and
banner lines are dropped (`compile_plain`).
-/

namespace Lowering

open Ir

/-- A line that the compact layout writes as well: neither blank nor a banner. -/
def Ir.Line.shown : Line → Bool
  | .item _ (.banner _) => false
  | .item _ _ => true
  | .blank => false

namespace Generator

/-- The generator as the compact layout sees it: no annotation, and only the lines that are neither blank nor
banners. -/
def plain (g : Generator) : Generator :=
  { g with layout := { g.layout with annotate := false }, lines := (g.lines.toList.filter Line.shown).toArray }

/-! ## The steps that cannot fail commute with `plain` -/

variable (g : Generator)

/-- Forgetting the annotation twice is forgetting it once. -/
@[simp] theorem plain_plain : g.plain.plain = g.plain := by
  simp [plain]

/-- An item other than a banner is written alike in the plain view. -/
@[simp] theorem plain_withItem {i : Item} (hi : ∀ c, i ≠ .banner c) : (g.withItem i).plain = g.plain.withItem i := by
  simp [plain, withItem, List.filter_append, Line.shown]

/-- A blank line is not in the plain view. -/
@[simp] theorem plain_withBlank : g.withBlank.plain = g.plain := by
  simp [plain, withBlank, List.filter_append, Line.shown]

/-- A label is placed alike in the plain view; its blank line is not there. -/
@[simp] theorem plain_withLabel (l : Label) : (g.withLabel l).plain = g.plain.withLabel l := by
  unfold withLabel plain
  split <;> simp [List.filter_append, Line.shown]

/-- A banner, and the blank line before it, are not in the plain view. -/
@[simp] theorem plain_withBanner (c : Construct) : (g.withBanner c).plain = g.plain := by
  unfold withBanner plain
  split <;> simp [List.filter_append, Line.shown]

/-- Taking labels is alike in the plain view. -/
@[simp] theorem plain_withLabels (n : Nat) : (g.withLabels n).plain = g.plain.withLabels n := rfl

/-- The plain view keeps whether the block is closed. -/
@[simp] theorem plain_closed : g.plain.closed = g.closed := rfl

/-- The plain view keeps the label counter. -/
@[simp] theorem plain_labels : g.plain.labels = g.labels := rfl

/-- The plain view keeps the strings owned. -/
@[simp] theorem plain_owned : g.plain.owned = g.owned := rfl

/-- The plain view keeps the string scopes. -/
@[simp] theorem plain_marks : g.plain.marks = g.marks := rfl

/-- An instruction is written alike in the plain view. -/
@[simp] theorem plain_withInstr (i : Instr) : (g.withInstr i).plain = g.plain.withInstr i := by
  unfold withInstr
  rw [plain_closed, plain_labels]
  split
  · rw [plain_withItem _ (by simp), plain_withLabel, plain_withLabels]
  · exact plain_withItem _ (by simp)

/-- A terminator is written alike in the plain view. -/
@[simp] theorem plain_withTerminator (i : Instr) : (g.withTerminator i).plain = g.plain.withTerminator i := by
  unfold withTerminator
  rw [← plain_withInstr]
  rfl

/-- A jump is written alike in the plain view. -/
@[simp] theorem plain_withJump (l : Label) : (g.withJump l).plain = g.plain.withJump l := by
  unfold withJump
  rw [plain_closed]
  split
  · rfl
  · exact plain_withTerminator _ _

/-- Frees are written alike in the plain view. -/
@[simp] theorem plain_withFrees (rs : List Reg) : (g.withFrees rs).plain = g.plain.withFrees rs := by
  induction rs generalizing g with
  | nil => rfl
  | cons r rs ih =>
    simp only [withFrees, List.foldl_cons] at ih ⊢
    rw [ih, ← plain_withInstr]
    rfl

/-- Opening a string scope is alike in the plain view. -/
@[simp] theorem plain_withScope : g.withScope.plain = g.plain.withScope := rfl

/-- Closing a string scope, with its frees, is alike in the plain view. -/
@[simp] theorem plain_withoutScope : g.withoutScope.plain = g.plain.withoutScope := by
  unfold withoutScope
  rw [plain_marks, plain_owned, plain_closed]
  split
  · split
    · rfl
    · exact plain_withFrees _ _
  · rfl

/-- Taking a register is alike in the plain view. -/
@[simp] theorem plain_withFresh (b : String) : (g.withFresh b).plain = g.plain.withFresh b := rfl

/-- Recording an operand is alike in the plain view. -/
@[simp] theorem plain_withValue (id : NodeId) (v : Value) : (g.withValue id v).plain = g.plain.withValue id v := rfl

/-- Owning a string is alike in the plain view. -/
@[simp] theorem plain_withOwned (r : Reg) : (g.withOwned r).plain = g.plain.withOwned r := rfl

/-- Marking the runtime used is alike in the plain view. -/
@[simp] theorem plain_withRuntime : g.withRuntime.plain = g.plain.withRuntime := rfl

/-- Queueing a constant is alike in the plain view. -/
@[simp] theorem plain_withConstant (r : Reg) (bytes : List UInt8) :
    (g.withConstant r bytes).plain = g.plain.withConstant r bytes := rfl

/-- Items other than banners are written alike in the plain view. -/
@[simp] theorem plain_withItems {is : List Item} (hi : ∀ i ∈ is, ∀ c, i ≠ .banner c) :
    (g.withItems is).plain = g.plain.withItems is := by
  induction is generalizing g with
  | nil => rfl
  | cons i is ih =>
    simp only [withItems, List.foldl_cons] at ih ⊢
    rw [ih _ fun j hj => hi j (List.mem_cons_of_mem _ hj), plain_withItem _ (hi i List.mem_cons_self)]

/-- The queued constants are written alike in the plain view. -/
@[simp] theorem plain_withConstantsWritten : g.withConstantsWritten.plain = g.plain.withConstantsWritten := by
  unfold withConstantsWritten
  rw [plain_withItems _ fun i hi c => by obtain ⟨⟨r, bytes⟩, -, rfl⟩ := List.mem_map.mp hi; simp]
  rfl

end Generator

/-! ## Stable steps -/

/-- Runs of `x` from two generators with the same plain view end alike: with the same outcome, and again with the
same plain view. -/
def Stable {α : Type} (x : GenM α) : Prop :=
  ∀ ⦃g₁ g₂ : Generator⦄, g₁.plain = g₂.plain →
    (x.run.run g₁).1 = (x.run.run g₂).1 ∧ (x.run.run g₁).2.plain = (x.run.run g₂).2.plain

section Combinators

variable {α β : Type}

/-- Returning a value is stable. -/
theorem stable_pure (a : α) : Stable (pure a : GenM α) := fun _ _ h => ⟨rfl, h⟩

/-- A refusal is stable. -/
theorem stable_throw (e : CodegenError) : Stable (throw e : GenM α) := fun _ _ h => ⟨rfl, h⟩

/-- A refusal stops the run, whatever was to follow it. -/
theorem stable_throw_bind (e : CodegenError) (f : α → GenM β) : Stable (throw e >>= f) := fun _ _ h => ⟨rfl, h⟩

/-- A sequence of stable steps is stable: both runs take the same branch after the first step. -/
theorem Stable.bind {x : GenM α} {f : α → GenM β} (hx : Stable x) (hf : ∀ a, Stable (f a)) : Stable (x >>= f) := by
  intro g₁ g₂ h
  obtain ⟨hr, hg⟩ := hx h
  rw [Runs.run_bind, Runs.run_bind]
  rcases e₁ : x.run.run g₁ with ⟨r₁, g₁'⟩
  rcases e₂ : x.run.run g₂ with ⟨r₂, g₂'⟩
  rw [e₁, e₂] at hr hg
  subst hr
  cases r₁ with
  | ok a => exact hf a hg
  | error e => exact ⟨rfl, hg⟩

/-- A step whose run is a function of the generator is stable when its outcome reads only what `plain` keeps and its
change commutes with `plain`. -/
theorem stable_of_run {x : GenM α} {r : Generator → Except CodegenError α} {t : Generator → Generator}
    (hx : ∀ g, x.run.run g = (r g, t g)) (hr : ∀ g, r g.plain = r g) (ht : ∀ g, (t g).plain = (t g.plain).plain) :
    Stable x := by
  intro g₁ g₂ h
  rw [hx, hx]
  exact ⟨by rw [← hr g₁, h, hr], by rw [ht g₁, h, ← ht]⟩

/-- Reading the generator is stable when what is read is kept by `plain`. -/
theorem stable_get_bind {f : Generator → GenM β} (hf : ∀ g, f g.plain = f g) (hs : ∀ g, Stable (f g)) :
    Stable (get >>= f) := by
  intro g₁ g₂ h
  simp only [Runs.run_bind, Runs.run_get]
  rw [← hf g₁, h, hf g₂]
  exact hs g₂ h

/-- A change of the generator that commutes with `plain` is stable. -/
theorem stable_modify {f : Generator → Generator} (hf : ∀ g, (f g).plain = f g.plain) : Stable (modify f) :=
  stable_of_run (Runs.run_modify f) (fun _ => rfl) fun g => by rw [hf, hf, Generator.plain_plain]

/-- A loop of stable steps is stable. -/
theorem stable_forM {xs : List α} {f : α → GenM PUnit} (hf : ∀ a, Stable (f a)) : Stable (xs.forM f) := by
  induction xs with
  | nil =>
    rw [List.forM_eq_forM, List.forM_nil]
    exact stable_pure _
  | cons a xs ih =>
    rw [List.forM_eq_forM, List.forM_cons]
    exact (hf a).bind fun _ => ih

/-- Dropping the value of a stable step is stable. -/
theorem stable_discard {x : GenM α} (hx : Stable x) : Stable (discard x) := by
  rw [Runs.discard_eq]
  exact hx.bind fun _ => stable_pure _

end Combinators

namespace Generator

/-! ## The steps that cannot fail are stable -/

theorem stable_write {i : Item} (hi : ∀ c, i ≠ .banner c) : Stable (write i) :=
  stable_of_run (run_write i) (fun _ => rfl) fun g => by simp [hi]

/-- A blank line is stable. -/
theorem stable_writeBlank : Stable writeBlank := stable_of_run run_writeBlank (fun _ => rfl) fun g => by simp

/-- Placing a label is stable, with or without the blank line before it. -/
theorem stable_placeLabel (l : Label) : Stable (placeLabel l) :=
  stable_of_run (run_placeLabel l) (fun _ => rfl) fun g => by simp

/-- A banner is stable: the plain view sees none. -/
theorem stable_banner (c : Construct) : Stable (banner c) := stable_of_run (run_banner c) (fun _ => rfl) fun g => by simp

/-- Taking a label is stable. -/
theorem stable_newLabel : Stable newLabel := stable_of_run run_newLabel (fun _ => rfl) fun g => by simp

/-- Taking a register is stable. -/
theorem stable_fresh (b : String) : Stable (fresh b) := stable_of_run (run_fresh b) (fun _ => rfl) fun g => by simp

/-- Recording an operand is stable. -/
theorem stable_remember (id : NodeId) (v : Value) : Stable (remember id v) :=
  stable_of_run (run_remember id v) (fun _ => rfl) fun g => by simp

/-- Owning a string is stable. -/
theorem stable_own (r : Reg) : Stable (own r) := stable_of_run (run_own r) (fun _ => rfl) fun g => by simp

/-- Marking the runtime used is stable. -/
theorem stable_useRuntime : Stable useRuntime := stable_of_run run_useRuntime (fun _ => rfl) fun g => by simp

/-- Queueing a constant is stable. -/
theorem stable_queueConstant (r : Reg) (bytes : List UInt8) : Stable (queueConstant r bytes) :=
  stable_of_run (run_queueConstant r bytes) (fun _ => rfl) fun g => by simp

/-- Writing an instruction is stable. -/
theorem stable_instr (i : Instr) : Stable (instr i) := stable_of_run (run_instr i) (fun _ => rfl) fun g => by simp

/-- Writing a terminator is stable. -/
theorem stable_terminate (i : Instr) : Stable (terminate i) :=
  stable_of_run (run_terminate i) (fun _ => rfl) fun g => by simp

/-- A jump is stable. -/
theorem stable_jump (l : Label) : Stable (jump l) := stable_of_run (run_jump l) (fun _ => rfl) fun g => by simp

/-- A branch is stable. -/
theorem stable_branch (c : Value) (l₁ l₂ : Label) : Stable (branch c l₁ l₂) :=
  stable_of_run (run_branch c l₁ l₂) (fun _ => rfl) fun g => by simp

/-- Freeing strings is stable. -/
theorem stable_freeAll (rs : List Reg) : Stable (freeAll rs) :=
  stable_of_run (run_freeAll rs) (fun _ => rfl) fun g => by simp

/-- Freeing every string owned is stable. -/
theorem stable_freeOwned : Stable freeOwned := by
  refine stable_get_bind (fun _ => rfl) fun g => ?_
  dsimp only
  exact (stable_modify fun _ => by rfl).bind fun _ => stable_freeAll _

/-- A stable step in a string scope of its own is stable. -/
theorem stable_inScope {α : Type} {x : GenM α} (hx : Stable x) : Stable (inScope x) :=
  (stable_of_run run_openScope (fun _ => rfl) fun g => by simp).bind fun _ =>
    hx.bind fun a => (stable_of_run run_closeScope (fun _ => rfl) fun g => by simp).bind fun _ => stable_pure a

/-- Writing the queued constants is stable. -/
theorem stable_flushConstants : Stable flushConstants :=
  stable_of_run (fun g => (runs_flushConstants.mpr rfl : Runs flushConstants g () _)) (fun _ => rfl) fun g => by simp

/-- Writing the runtime's prototypes is stable: whether they are owed is kept by `plain`. -/
theorem stable_declareRuntime : Stable declareRuntime := by
  refine stable_get_bind (fun _ => rfl) fun g => ?_
  split
  · exact (stable_forM fun h => stable_write (by simp)).bind fun _ =>
      stable_writeBlank.bind fun _ => stable_modify fun _ => by rfl
  · exact stable_pure _

end Generator

/-! ## The rules are stable -/

/-- Both ways of lowering through a walk are stable. -/
structure Walk.Stable (w : Walk) : Prop where
  emit : ∀ id, Lowering.Stable (w.emit id)
  expr : ∀ id, Lowering.Stable (w.expr id)

namespace Program

open Generator

variable {p : Program} {w : Walk}

/-- Reading where a variable is stored is stable. -/
theorem stable_storage (s : SymbolId) : Stable (p.storage s) := by
  unfold storage
  refine stable_get_bind (fun _ => rfl) fun g => ?_
  split
  · exact stable_pure _
  · split <;> exact stable_pure _

/-- Reading an expression's type is stable. -/
theorem stable_exprType (id : NodeId) : Stable (p.exprType id) := by
  unfold exprType
  split
  · exact stable_throw _
  · exact stable_pure _
  · exact stable_throw _

/-- Reading the operand type of an operation, or refusing it, is stable. -/
theorem stable_operandType (op : Operation) (l r : NodeId) : Stable (p.operandType op l r) := by
  unfold operandType
  refine (stable_exprType l).bind fun tl => (stable_exprType r).bind fun tr => ?_
  split
  · exact stable_throw_bind _ _
  · exact stable_pure _

/-- Handing a value over is stable. -/
theorem stable_handOver (t : Ty) (v : Value) : Stable (handOver t v) := by
  unfold handOver
  split
  · refine stable_get_bind (fun _ => rfl) fun g => ?_
    split
    · exact stable_pure _
    · exact (stable_fresh _).bind fun _ => (stable_instr _).bind fun _ => stable_useRuntime.bind fun _ => stable_pure _
  · exact stable_pure _

/-- Declarations are stable. -/
theorem stable_lowerDeclarations (syms : List SymbolId) : Stable (p.lowerDeclarations syms) := by
  refine stable_forM fun s => ?_
  dsimp only
  split
  · exact stable_write (by simp)
  · split
    · exact stable_write (by simp)
    · exact stable_instr _

section Walk

variable (hw : w.Stable)
include hw

/-- Lowering an operand is stable when the walk below is. -/
theorem stable_valueOf (id : NodeId) : Stable (p.valueOf w id) := by
  unfold valueOf
  refine (hw.expr id).bind fun v => ?_
  split
  · exact (stable_fresh _).bind fun _ => (stable_instr _).bind fun _ => stable_pure _
  · exact stable_pure _

/-- Lowering a condition is stable when the walk below is. -/
theorem stable_testOf (id : NodeId) : Stable (p.testOf w id) := by
  unfold testOf
  refine (stable_exprType id).bind fun t => ?_
  split
  · exact hw.expr id
  · split
    · exact (stable_valueOf hw id).bind fun _ => (stable_fresh _).bind fun _ => (stable_instr _).bind fun _ =>
        stable_pure _
    · exact stable_throw _

/-- Lowering the arguments of a call is stable when the walk below is. -/
theorem stable_arguments (callee : String) (i : Nat) (args : List (NodeId × SymbolId)) :
    Stable (p.arguments w callee i args) := by
  induction args generalizing i with
  | nil => exact stable_pure _
  | cons a args ih =>
    obtain ⟨a, s⟩ := a
    unfold arguments
    refine (stable_exprType a).bind fun found => ?_
    split
    · exact stable_throw_bind _ _
    · exact (stable_valueOf hw a).bind fun _ => (ih _).bind fun _ => stable_pure _

/-- Lowering an expression by its form is stable when the walk below is. -/
theorem stable_lowerForm (id : NodeId) (e : Expr) : Stable (p.lowerForm w id e) := by
  cases e with
  | read s =>
    exact (stable_storage s).bind fun _ => (stable_fresh _).bind fun _ => (stable_instr _).bind fun _ =>
      stable_remember _ _
  | int v => exact stable_remember _ _
  | str raw =>
    exact (stable_fresh _).bind fun _ => (stable_instr _).bind fun _ => (stable_queueConstant _ _).bind fun _ =>
      stable_remember _ _
  | neg x =>
    refine (stable_exprType x).bind fun t => ?_
    split
    · exact stable_throw_bind _ _
    · exact (stable_valueOf hw x).bind fun _ => (stable_fresh _).bind fun _ => (stable_instr _).bind fun _ =>
        stable_remember _ _
  | arith op l r =>
    refine (stable_operandType _ l r).bind fun t => ?_
    cases t
    · dsimp only
      split
      · exact stable_throw_bind _ _
      · exact (stable_valueOf hw l).bind fun _ => (stable_valueOf hw r).bind fun _ => (stable_fresh _).bind fun _ =>
          (stable_instr _).bind fun _ => stable_remember _ _
    · dsimp only
      split
      · exact stable_throw_bind _ _
      · exact (stable_valueOf hw l).bind fun _ => (stable_valueOf hw r).bind fun _ => (stable_fresh _).bind fun _ =>
          (stable_instr _).bind fun _ => stable_useRuntime.bind fun _ => (stable_own _).bind fun _ =>
          stable_remember _ _
  | cmp op l r =>
    refine (stable_operandType _ l r).bind fun t => ?_
    cases t
    · dsimp only
      split
      · exact stable_throw_bind _ _
      · exact (stable_valueOf hw l).bind fun _ => (stable_valueOf hw r).bind fun _ => (stable_fresh _).bind fun _ =>
          (stable_instr _).bind fun _ => stable_remember _ _
    · dsimp only
      split
      · exact stable_throw_bind _ _
      · exact (stable_valueOf hw l).bind fun _ => (stable_valueOf hw r).bind fun _ => (stable_fresh _).bind fun _ =>
          (stable_instr _).bind fun _ => stable_useRuntime.bind fun _ => stable_remember _ _
  | assign s x =>
    refine (stable_exprType x).bind fun t => ?_
    split
    · exact stable_throw_bind _ _
    · exact (stable_valueOf hw x).bind fun _ => (stable_storage s).bind fun _ => (stable_instr _).bind fun _ =>
        stable_remember _ _
  | call f args =>
    dsimp only [lowerForm]
    split
    · exact stable_throw_bind _ _
    · refine (stable_arguments hw _ 0 _).bind fun _ => (stable_fresh _).bind fun _ => (stable_instr _).bind fun _ => ?_
      split
      · exact (stable_own _).bind fun _ => stable_remember _ _
      · exact stable_remember _ _

/-- Lowering an expression node is stable when the walk below is. -/
theorem stable_lowerExpr (id : NodeId) : Stable (p.lowerExpr w id) := by
  unfold lowerExpr
  refine stable_get_bind (fun _ => rfl) fun g => ?_
  split
  · exact stable_pure _
  · split
    · exact stable_throw _
    · exact stable_lowerForm hw id _
    · exact stable_throw _

/-- A choice is stable when the walk below is: its banner and blank lines are not in the plain view. -/
theorem stable_lowerChoice (c t : NodeId) (e : Option NodeId) : Stable (p.lowerChoice w c t e) := by
  unfold lowerChoice
  refine (stable_banner _).bind fun _ => stable_newLabel.bind fun _ => stable_newLabel.bind fun _ =>
    stable_newLabel.bind fun _ => (stable_inScope (stable_testOf hw c)).bind fun _ =>
    (stable_branch _ _ _).bind fun _ => (stable_placeLabel _).bind fun _ => (stable_inScope (hw.emit t)).bind fun _ =>
    (stable_jump _).bind fun _ => (stable_placeLabel _).bind fun _ => ?_
  cases e with
  | some e => exact (stable_inScope (hw.emit e)).bind fun _ => (stable_jump _).bind fun _ => stable_placeLabel _
  | none => exact (stable_jump _).bind fun _ => stable_placeLabel _

/-- A while loop is stable when the walk below is. -/
theorem stable_lowerWhile (c b : NodeId) : Stable (p.lowerWhile w c b) :=
  (stable_banner _).bind fun _ => stable_newLabel.bind fun _ => stable_newLabel.bind fun _ =>
    stable_newLabel.bind fun _ => (stable_jump _).bind fun _ => (stable_placeLabel _).bind fun _ =>
    (stable_inScope (stable_testOf hw c)).bind fun _ => (stable_branch _ _ _).bind fun _ =>
    (stable_placeLabel _).bind fun _ => (stable_inScope (hw.emit b)).bind fun _ => (stable_jump _).bind fun _ =>
    stable_placeLabel _

/-- A do loop is stable when the walk below is. -/
theorem stable_lowerDo (b c : NodeId) : Stable (p.lowerDo w b c) :=
  (stable_banner _).bind fun _ => stable_newLabel.bind fun _ => stable_newLabel.bind fun _ =>
    stable_newLabel.bind fun _ => (stable_jump _).bind fun _ => (stable_placeLabel _).bind fun _ =>
    (stable_inScope (hw.emit b)).bind fun _ => (stable_jump _).bind fun _ => (stable_placeLabel _).bind fun _ =>
    (stable_inScope (stable_testOf hw c)).bind fun _ => (stable_branch _ _ _).bind fun _ => stable_placeLabel _

/-- A for loop is stable when the walk below is. -/
theorem stable_lowerFor (i c st b : NodeId) : Stable (p.lowerFor w i c st b) :=
  (stable_banner _).bind fun _ => stable_newLabel.bind fun _ => stable_newLabel.bind fun _ =>
    stable_newLabel.bind fun _ => stable_newLabel.bind fun _ => (stable_discard (hw.expr i)).bind fun _ =>
    (stable_jump _).bind fun _ => (stable_placeLabel _).bind fun _ =>
    (stable_inScope (stable_testOf hw c)).bind fun _ => (stable_branch _ _ _).bind fun _ =>
    (stable_placeLabel _).bind fun _ => (stable_inScope (hw.emit b)).bind fun _ => (stable_jump _).bind fun _ =>
    (stable_placeLabel _).bind fun _ => (stable_inScope (stable_discard (hw.expr st))).bind fun _ =>
    (stable_jump _).bind fun _ => stable_placeLabel _

/-- A return is stable when the walk below is. -/
theorem stable_lowerReturn (x : NodeId) : Stable (p.lowerReturn w x) := by
  unfold lowerReturn
  refine (stable_exprType x).bind fun t => (stable_valueOf hw x).bind fun v => (stable_handOver t v).bind fun r => ?_
  obtain ⟨v, kept⟩ := r
  refine stable_get_bind (fun _ => rfl) fun g => ?_
  exact (stable_freeAll _).bind fun _ => (stable_terminate _).bind fun _ => stable_modify fun _ => by rfl

/-- A definition is stable when the walk below is. -/
theorem stable_lowerDefinition (f : FunctionId) (b : NodeId) : Stable (p.lowerDefinition w f b) := by
  unfold lowerDefinition
  refine (stable_write (by simp)).bind fun _ => (stable_write (by simp)).bind fun _ =>
    (stable_modify fun _ => by rfl).bind fun _ =>
    (stable_forM fun _ => (stable_instr _).bind fun _ => stable_instr _).bind fun _ =>
    stable_get_bind (fun _ => rfl) fun g => (stable_modify fun _ => by rfl).bind fun _ => (hw.emit b).bind fun _ =>
    stable_get_bind (fun _ => rfl) fun g' => ?_
  have close : Stable (do write .close; flushConstants; writeBlank; declareRuntime) :=
    (stable_write (by simp)).bind fun _ => stable_flushConstants.bind fun _ => stable_writeBlank.bind fun _ =>
      stable_declareRuntime
  -- the epilogue runs only when the body falls off its end
  dsimp only
  split
  · exact (stable_modify fun _ => by rfl).bind fun _ => close
  · exact stable_freeOwned.bind fun _ => (stable_terminate _).bind fun _ => (stable_modify fun _ => by rfl).bind fun _ =>
      close

/-- Every statement rule is stable when the walk below is. -/
theorem stable_lowerStmt (s : Stmt) : Stable (p.lowerStmt w s) := by
  cases s with
  | declare syms => exact stable_lowerDeclarations syms
  | eval e => exact stable_discard (hw.expr e)
  | ite c t e => exact stable_lowerChoice hw c t e
  | whileLoop c b => exact stable_lowerWhile hw c b
  | doLoop b c => exact stable_lowerDo hw b c
  | forLoop i c st b => exact stable_lowerFor hw i c st b
  | ret x => exact stable_lowerReturn hw x
  | block items => exact stable_forM hw.emit
  | prototype f => exact stable_write (by simp)
  | define f b => exact stable_lowerDefinition hw f b

/-- Emitting a node is stable when the walk below is. -/
theorem stable_emitNode (id : NodeId) : Stable (p.emitNode w id) := by
  unfold emitNode
  split
  · exact stable_throw _
  · refine stable_get_bind (fun _ => rfl) fun g => ?_
    split
    · exact stable_pure _
    · exact stable_discard (stable_lowerForm hw id _)
  · exact stable_lowerStmt hw _

end Walk

/-- Every walk is stable: the walk at depth zero only refuses, and the walk one level up runs the rules on the walk
below. -/
theorem stable_walk (n : Nat) : (p.walk n).Stable := by
  induction n with
  | zero => exact ⟨fun _ => stable_throw _, fun _ => stable_throw _⟩
  | succ n ih => exact ⟨stable_emitNode ih, stable_lowerExpr ih⟩

/-! ## A whole unit -/

/-- Lowering a unit's roots is stable. -/
theorem stable_roots (p : Program) : Stable (p.ast.roots.toList.forM (p.walk (p.ast.size + 1)).emit) :=
  stable_forM (stable_walk _).emit

/-- Fresh generators of one indentation, annotating or not, have one plain view. -/
theorem new_plain (ind : String) : (Generator.new ⟨ind, true⟩).plain = (Generator.new ⟨ind, false⟩).plain := rfl

/-- Under one indentation, a unit fails to compile with annotations exactly when it fails without, and with the same
error. -/
theorem compile_error_iff (p : Program) (ind : String) (e : CodegenError) :
    p.compile ⟨ind, true⟩ = .error e ↔ p.compile ⟨ind, false⟩ = .error e := by
  have h := (stable_roots p (new_plain ind)).1
  unfold compile
  rcases ha : (p.ast.roots.toList.forM (p.walk (p.ast.size + 1)).emit).run.run (Generator.new ⟨ind, true⟩) with ⟨ra, ga⟩
  rcases hc : (p.ast.roots.toList.forM (p.walk (p.ast.size + 1)).emit).run.run (Generator.new ⟨ind, false⟩) with
    ⟨rc, gc⟩
  rw [ha, hc] at h
  dsimp only at h
  subst h
  dsimp only
  rw [ha, hc]
  cases ra <;> simp

/-- Under one indentation, the generators a unit is finished from, with and without annotations, have one plain
view: the listings agree once the blank lines and banners are dropped. -/
theorem finished_alike {p : Program} {ind : String} {ga gc : Generator}
    (ha : Runs (p.ast.roots.toList.forM (p.walk (p.ast.size + 1)).emit) (Generator.new ⟨ind, true⟩) () ga)
    (hc : Runs (p.ast.roots.toList.forM (p.walk (p.ast.size + 1)).emit) (Generator.new ⟨ind, false⟩) () gc) :
    ga.withConstantsWritten.withRuntimeWritten.plain = gc.withConstantsWritten.withRuntimeWritten.plain := by
  have h₁ := (stable_roots p (new_plain ind)).2
  rw [ha, hc] at h₁
  have hf : ∀ g : Generator, Runs (flushConstants >>= fun _ => declareRuntime) g () g.withConstantsWritten.withRuntimeWritten :=
    fun g => Runs.bind_iff.mpr ⟨(), _, runs_flushConstants.mpr rfl, runs_declareRuntime.mpr rfl⟩
  have h₂ := ((stable_flushConstants.bind fun _ => stable_declareRuntime) h₁).2
  rwa [hf, hf] at h₂

end Program

namespace Generator

/-- The plain view's lines are the lines that are neither blank nor banners. -/
theorem plain_lines (g : Generator) : g.plain.lines.toList = g.lines.toList.filter Line.shown := by
  simp [plain]

end Generator

end Lowering
