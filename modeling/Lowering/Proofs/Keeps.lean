import Mathlib
import Lowering.Proofs.TypedCode
import Lowering.Session

/-!
# What every run keeps, whether it succeeds or fails

`Keeps P x` is the triple `⦃P⦄ x ⦃P⦄` with `P` also after a failure: the step `x`, started from a generator with the
property `P`, leaves one with `P` whether it succeeds or fails. A failed lowering is not undone, so what a session
shows after a failure is what such a property says, and what a compiled unit shows after success too.

Lowering changes a generator only by a few kinds of moves (`Program.Move`): writing a declaration, a label, a banner
or a plain instruction, taking a register or a label, remembering an operand, lowering a string literal (a register,
the line that takes its constant's address, and the constant queued, together), owning and freeing strings, opening
and closing a string scope, and the start and the end of a function body. Every run of every rule goes from its
generator by moves (`moves_walk`), so a property that one move keeps is kept by every walk, so by lowering any node of
any program (`walk_keeps_of_moves`): an invariant of another module states what one move does to it, once, and is
kept by all of lowering without a walk of its own. The rules are taken apart by `mvcgen`, with the triples of the
steps that cannot fail as its specifications. Each of those steps also has its exact specification (`instr_spec` and
the like, through `spec_of_run`), for the invariants that are not kept by every move but only by the runs that
succeed.

A property of the listing and the counters that each line written keeps, and that reads no bookkeeping
(`StepsKeep`), is kept by every move, so by every walk (`keeps_walk`).
-/

set_option mvcgen.warning false

namespace Lowering

open Std.Do Ir Generator

/-- The step `x`, started from a generator with `P`, leaves a generator with `P`, whether it succeeds or fails. -/
abbrev Keeps (P : Generator → Prop) {α : Type} (x : GenM α) : Prop :=
  ⦃fun g => ⌜P g⌝⦄ x ⦃post⟨fun _ g => ⌜P g⌝, fun _ g => ⌜P g⌝⟩⦄

section Combinators

variable {P : Generator → Prop} {α β : Type}

/-- What a kept property says of a run: the generator it leaves has the property. -/
theorem Keeps.run {x : GenM α} (h : Keeps P x) {g : Generator} (hg : P g) : P (x.run.run g).2 := by
  have hw := h g hg
  simp only [wp, PredTrans.apply_pushExcept, PredTrans.apply_pushArg] at hw
  rcases hx : x.run.run g with ⟨_ | _, g'⟩ <;> simpa [hx, Id.run] using hw

/-- A triple read off the two outcomes of each run. -/
theorem triple_of_outcomes {x : GenM α} {Q : α → Generator → Prop} {E : CodegenError → Generator → Prop}
    (hok : ∀ g a g', P g → x.run.run g = (.ok a, g') → Q a g')
    (herr : ∀ g e g', P g → x.run.run g = (.error e, g') → E e g') :
    ⦃fun g => ⌜P g⌝⦄ x ⦃post⟨fun a g => ⌜Q a g⌝, fun e g => ⌜E e g⌝⟩⦄ := by
  intro g hg
  simp only [wp, PredTrans.apply_pushExcept, PredTrans.apply_pushArg]
  rcases hx : x.run.run g with ⟨_ | a, g'⟩
  · simpa [Id.run, hx] using herr g _ g' hg hx
  · simpa [Id.run, hx] using hok g a g' hg hx

/-- A step that cannot fail, from a generator with `R`, leaves one with `P` when the generator it leaves from such a
one has `P`. -/
theorem triple_of_run {R : Generator → Prop} {x : GenM α} {F : Generator → Generator} {a : Generator → α}
    (hx : ∀ g, x.run.run g = (.ok (a g), F g)) (hF : ∀ g, R g → P (F g)) :
    ⦃fun g => ⌜R g⌝⦄ x ⦃post⟨fun _ g => ⌜P g⌝, fun _ g => ⌜P g⌝⟩⦄ := by
  intro g hg
  simpa [wp, hx, Id.run] using hF g hg

/-- A step that cannot fail keeps `P` when the generator it leaves does. -/
theorem keeps_of_run {x : GenM α} {F : Generator → Generator} {a : Generator → α}
    (hx : ∀ g, x.run.run g = (.ok (a g), F g)) (hF : ∀ g, P g → P (F g)) : Keeps P x :=
  triple_of_run hx hF

/-- A kept property is kept from a stronger start. -/
theorem Keeps.and_pre {R : Generator → Prop} {x : GenM α} (h : Keeps P x) :
    ⦃fun g => ⌜P g ∧ R g⌝⦄ x ⦃post⟨fun _ g => ⌜P g⌝, fun _ g => ⌜P g⌝⟩⦄ :=
  fun g hg => h g hg.1

/-- A property each iteration keeps is kept by the whole loop. -/
theorem keeps_forM {xs : List α} {f : α → GenM PUnit} (hf : ∀ a, Keeps P (f a)) : Keeps P (xs.forM f) := by
  induction xs with
  | nil => mvcgen
  | cons a xs ih =>
    rw [List.forM_eq_forM, List.forM_cons]
    mvcgen [hf, ih]

end Combinators

/-- A step that cannot fail, given by the result it gives and the generator it leaves, meets every postcondition
that holds of those two. -/
theorem spec_of_run {α : Type} {x : GenM α} {a : Generator → α} {F : Generator → Generator}
    (hx : ∀ g, x.run.run g = (.ok (a g), F g)) (Q : PostCond α (.except CodegenError (.arg Generator .pure))) :
    ⦃fun g => Q.1 (a g) (F g)⦄ x ⦃Q⦄ := by
  intro g hg
  simpa [wp, hx, Id.run] using hg

namespace Generator

/-! Steps that cannot fail, each given exactly by the result it gives and the generator it leaves. -/

section Specs

variable (Q : PostCond Unit (.except CodegenError (.arg Generator .pure)))

/-- Writing an instruction is exactly `withInstr`. -/
theorem instr_spec (i : Instr) : ⦃fun g => Q.1 () (g.withInstr i)⦄ instr i ⦃Q⦄ := spec_of_run (run_instr i) Q

/-- Writing a terminator is exactly `withTerminator`: the instruction, and the block closed. -/
theorem terminate_spec (i : Instr) : ⦃fun g => Q.1 () (g.withTerminator i)⦄ terminate i ⦃Q⦄ :=
  spec_of_run (run_terminate i) Q

/-- A jump is exactly `withJump`. -/
theorem jump_spec (l : Label) : ⦃fun g => Q.1 () (g.withJump l)⦄ jump l ⦃Q⦄ := spec_of_run (run_jump l) Q

/-- A branch is exactly a terminator to its two labels. -/
theorem branch_spec (c : Value) (l₁ l₂ : Label) :
    ⦃fun g => Q.1 () (g.withTerminator (.branch c l₁ l₂))⦄ branch c l₁ l₂ ⦃Q⦄ := spec_of_run (run_branch c l₁ l₂) Q

/-- Placing a label is exactly `withLabel`. -/
theorem placeLabel_spec (l : Label) : ⦃fun g => Q.1 () (g.withLabel l)⦄ placeLabel l ⦃Q⦄ :=
  spec_of_run (run_placeLabel l) Q

/-- A construct's banner is exactly `withBanner`. -/
theorem banner_spec (c : Construct) : ⦃fun g => Q.1 () (g.withBanner c)⦄ banner c ⦃Q⦄ := spec_of_run (run_banner c) Q

/-- Writing an item is exactly `withItem`. -/
theorem write_spec (i : Item) : ⦃fun g => Q.1 () (g.withItem i)⦄ write i ⦃Q⦄ := spec_of_run (run_write i) Q

/-- Writing a blank line is exactly `withBlank`. -/
theorem writeBlank_spec : ⦃fun g => Q.1 () g.withBlank⦄ writeBlank ⦃Q⦄ := spec_of_run run_writeBlank Q

/-- Freeing strings is exactly `withFrees`. -/
theorem freeAll_spec (rs : List Reg) : ⦃fun g => Q.1 () (g.withFrees rs)⦄ freeAll rs ⦃Q⦄ :=
  spec_of_run (run_freeAll rs) Q

/-- Freeing every string owned is exactly `withFrees` of them, with none owned after. -/
theorem freeOwned_spec : ⦃fun g => Q.1 () ({ g with owned := [] }.withFrees g.owned)⦄ freeOwned ⦃Q⦄ :=
  spec_of_run run_freeOwned Q

/-- Marking the runtime used is exactly `withRuntime`. -/
theorem useRuntime_spec : ⦃fun g => Q.1 () g.withRuntime⦄ useRuntime ⦃Q⦄ := spec_of_run run_useRuntime Q

/-- Owning a string is exactly `withOwned`. -/
theorem own_spec (r : Reg) : ⦃fun g => Q.1 () (g.withOwned r)⦄ own r ⦃Q⦄ := spec_of_run (run_own r) Q

/-- Queueing a constant is exactly `withConstant`. -/
theorem queueConstant_spec (r : Reg) (bytes : List UInt8) :
    ⦃fun g => Q.1 () (g.withConstant r bytes)⦄ queueConstant r bytes ⦃Q⦄ := spec_of_run (run_queueConstant r bytes) Q

/-- Opening a string scope is exactly `withScope`. -/
theorem openScope_spec : ⦃fun g => Q.1 () g.withScope⦄ openScope ⦃Q⦄ := spec_of_run run_openScope Q

/-- Closing a string scope is exactly `withoutScope`. -/
theorem closeScope_spec : ⦃fun g => Q.1 () g.withoutScope⦄ closeScope ⦃Q⦄ := spec_of_run run_closeScope Q

/-- Writing the queued constants is exactly `withConstantsWritten`. -/
theorem flushConstants_spec : ⦃fun g => Q.1 () g.withConstantsWritten⦄ flushConstants ⦃Q⦄ :=
  spec_of_run (fun g => (runs_flushConstants.mpr rfl : Runs flushConstants g () _)) Q

/-- Writing the runtime's prototypes, if owed, is exactly `withRuntimeWritten`. -/
theorem declareRuntime_spec : ⦃fun g => Q.1 () g.withRuntimeWritten⦄ declareRuntime ⦃Q⦄ :=
  spec_of_run (fun g => (runs_declareRuntime.mpr rfl : Runs declareRuntime g () _)) Q

end Specs

/-- Taking a register gives the next of its base and counts it. -/
theorem fresh_spec (b : String) (Q : PostCond Reg (.except CodegenError (.arg Generator .pure))) :
    ⦃fun g => Q.1 (g.nextReg b) (g.withFresh b)⦄ fresh b ⦃Q⦄ := spec_of_run (run_fresh b) Q

/-- Taking a label gives the next one and counts it. -/
theorem newLabel_spec (Q : PostCond Label (.except CodegenError (.arg Generator .pure))) :
    ⦃fun g => Q.1 ⟨g.labels⟩ (g.withLabels 1)⦄ newLabel ⦃Q⦄ := spec_of_run run_newLabel Q

/-- Recording an operand gives it back and records it. -/
theorem remember_spec (id : NodeId) (v : Value) (Q : PostCond Value (.except CodegenError (.arg Generator .pure))) :
    ⦃fun g => Q.1 v (g.withValue id v)⦄ remember id v ⦃Q⦄ := spec_of_run (run_remember id v) Q

end Generator

/-- The generator after a string literal is lowered: a fresh `str` register takes the address of the constant
queued for it. -/
def Generator.withLiteral (g : Generator) (id : NodeId) (bytes : List UInt8) : Generator :=
  (((g.withFresh "str").withInstr (.literal (g.nextReg "str") (bytes.length + 1))).withConstant (g.nextReg "str")
    bytes).withValue id (.reg (g.nextReg "str"))

/-- Lowering a string literal cannot fail: it is `withLiteral` of the bytes the literal decodes to. -/
theorem Program.run_lowerForm_str (p : Program) (w : Walk) (id : NodeId) (raw : String) (g : Generator) :
    (p.lowerForm w id (.str raw)).run.run g = (.ok (.reg (g.nextReg "str")), g.withLiteral id (Literal.decode raw)) := by
  simp only [Program.lowerForm, Runs.run_bind, run_fresh, run_instr, run_queueConstant, run_remember]
  rfl

/-- Lowering a string literal is exactly `withLiteral`, giving the fresh register. -/
theorem Program.lowerForm_str_spec (p : Program) (w : Walk) (id : NodeId) (raw : String)
    (Q : PostCond Value (.except CodegenError (.arg Generator .pure))) :
    ⦃fun g => Q.1 (.reg (g.nextReg "str")) (g.withLiteral id (Literal.decode raw))⦄ p.lowerForm w id (.str raw) ⦃Q⦄ :=
  spec_of_run (p.run_lowerForm_str w id raw) Q

/-- Both ways of lowering through a walk keep `P`. -/
structure Walk.Keeps (P : Generator → Prop) (w : Walk) : Prop where
  emit : ∀ id, Lowering.Keeps P (w.emit id)
  expr : ∀ id, Lowering.Keeps P (w.expr id)

/-! ## The moves of lowering -/

namespace Ir

/-- Whether an instruction calls a function of the string runtime. -/
def Instr.callsRuntime : Instr → Bool
  | .strTest .. | .concat .. | .copy .. | .free _ => true
  | _ => false

/-- Whether an item declares a global, an external variable or a function of another unit. -/
def Item.isDeclaration : Item → Bool
  | .global .. | .external .. | .prototype .. => true
  | _ => false

end Ir

namespace Program

/-- An instruction that is not the address of a constant. -/
abbrev Plain (i : Instr) : Prop := ∀ r n, i ≠ .literal r n

/-- The moves that lowering makes on a generator, each taken as one whole. Lowering declares a variable or a function
of another unit; places a label or a banner; takes a label or a register; records the operand of a node that is not a
string literal, or lowers a string literal at once (its register, the line that takes its constant's address, the
constant queued and the operand recorded); owns a string; writes an instruction, one that calls the runtime together
with the mark that the runtime is used, or a terminator; frees strings; opens or closes a string scope, or forgets the
strings of the innermost one at a return; starts a definition's body, and ends it once the body has been lowered. -/
inductive Move (p : Program) : Generator → Generator → Prop
  | declare {g : Generator} (i : Item) : i.isDeclaration = true → p.Move g (g.withItem i)
  | label {g : Generator} (l : Label) : p.Move g (g.withLabel l)
  | banner {g : Generator} (c : Construct) : p.Move g (g.withBanner c)
  | newLabel {g : Generator} : p.Move g (g.withLabels 1)
  | fresh {g : Generator} (b : String) : p.Move g (g.withFresh b)
  | value {g : Generator} (id : NodeId) (v : Value) :
      (∀ raw t, p.ast.get? id ≠ some (.expr (.str raw) t)) → p.Move g (g.withValue id v)
  | literal {g : Generator} (id : NodeId) (raw : String) (t : Option Ty) : p.ast.get? id = some (.expr (.str raw) t) →
      g.values[id]? = none → p.Move g (g.withLiteral id (Literal.decode raw))
  | own {g : Generator} (r : Reg) : p.Move g (g.withOwned r)
  | instr {g : Generator} (i : Instr) : Plain i → i.callsRuntime = false → p.Move g (g.withInstr i)
  | call {g : Generator} (i : Instr) : i.callsRuntime = true → p.Move g (g.withInstr i).withRuntime
  | terminate {g : Generator} (i : Instr) : Plain i → i.callsRuntime = false → p.Move g (g.withTerminator i)
  | frees {g : Generator} (rs : List Reg) : p.Move g (g.withFrees rs)
  | openScope {g : Generator} : p.Move g g.withScope
  | closeScope {g : Generator} : p.Move g g.withoutScope
  | dropInner {g : Generator} : p.Move g g.withoutInner
  | start {g : Generator} (f : FunctionId) : p.Move g (p.bodyStart f g)
  | finish {g g₁ : Generator} (n : Nat) (f : FunctionId) (b : NodeId) :
      Runs ((p.walk n).emit b) (p.bodyStart f g) () g₁ → p.Move g₁ (p.bodyEnd f g g₁)

/-- The generators that moves of lowering lead to from `g₀`. -/
abbrev MovesTo (p : Program) (g₀ : Generator) : Generator → Prop := Relation.ReflTransGen p.Move g₀

variable {p : Program} {P : Generator → Prop} {w : Walk}

/-- A property that every move keeps holds wherever moves lead. -/
theorem MovesTo.keeps (hP : ∀ g g', p.Move g g' → P g → P g') {g₀ g : Generator} (h : p.MovesTo g₀ g) (hg : P g₀) :
    P g := by
  induction h with
  | refl => exact hg
  | tail _ hm ih => exact hP _ _ hm ih

section Steps

variable (g₀ : Generator)

/-- A step that cannot fail and that each generator leaves by a move goes by moves. -/
theorem moves_of_run {α : Type} {x : GenM α} {F : Generator → Generator} {a : Generator → α}
    (hx : ∀ g, x.run.run g = (.ok (a g), F g)) (hF : ∀ g, p.Move g (F g)) : Keeps (p.MovesTo g₀) x :=
  keeps_of_run hx fun g h => h.tail (hF g)

/-- Writing a declaration is a move. -/
theorem moves_write {i : Item} (hi : i.isDeclaration = true) : Keeps (p.MovesTo g₀) (write i) :=
  moves_of_run g₀ (run_write i) fun _ => .declare i hi

/-- Placing a label is a move. -/
theorem moves_placeLabel (l : Label) : Keeps (p.MovesTo g₀) (placeLabel l) :=
  moves_of_run g₀ (run_placeLabel l) fun _ => .label l

/-- A banner is a move. -/
theorem moves_banner (c : Construct) : Keeps (p.MovesTo g₀) (banner c) := moves_of_run g₀ (run_banner c) fun _ => .banner c

/-- Taking a label is a move. -/
theorem moves_newLabel : Keeps (p.MovesTo g₀) newLabel := moves_of_run g₀ run_newLabel fun _ => .newLabel

/-- Taking a register is a move. -/
theorem moves_fresh (b : String) : Keeps (p.MovesTo g₀) (fresh b) := moves_of_run g₀ (run_fresh b) fun _ => .fresh b

/-- Owning a string is a move. -/
theorem moves_own (r : Reg) : Keeps (p.MovesTo g₀) (own r) := moves_of_run g₀ (run_own r) fun _ => .own r

/-- Opening a string scope is a move. -/
theorem moves_openScope : Keeps (p.MovesTo g₀) openScope := moves_of_run g₀ run_openScope fun _ => .openScope

/-- Closing a string scope is a move. -/
theorem moves_closeScope : Keeps (p.MovesTo g₀) closeScope := moves_of_run g₀ run_closeScope fun _ => .closeScope

/-- Freeing strings is a move. -/
theorem moves_freeAll (rs : List Reg) : Keeps (p.MovesTo g₀) (freeAll rs) :=
  moves_of_run g₀ (run_freeAll rs) fun _ => .frees rs

/-- Recording an operand for a node that is not a string literal is a move. -/
theorem moves_remember {id : NodeId} (hn : ∀ raw t, p.ast.get? id ≠ some (.expr (.str raw) t)) (v : Value) :
    Keeps (p.MovesTo g₀) (remember id v) :=
  moves_of_run g₀ (run_remember id v) fun _ => .value id v hn

/-- A terminator that is plain and calls nothing of the runtime is a move. -/
theorem moves_terminate {i : Instr} (hi : Plain i) (hr : i.callsRuntime = false) : Keeps (p.MovesTo g₀) (terminate i) :=
  moves_of_run g₀ (run_terminate i) fun _ => .terminate i hi hr

/-- A branch is a move. -/
theorem moves_branch (c : Value) (l₁ l₂ : Label) : Keeps (p.MovesTo g₀) (branch c l₁ l₂) :=
  moves_of_run g₀ (run_branch c l₁ l₂) fun _ => .terminate _ (by simp [Plain]) rfl

/-- A jump is a move. -/
theorem moves_jump (l : Label) : Keeps (p.MovesTo g₀) (jump l) := by
  refine keeps_of_run (run_jump l) fun g h => ?_
  unfold Generator.withJump
  split
  · exact h
  · exact h.tail (.terminate _ (by simp [Plain]) rfl)

/-- An instruction: one that calls the runtime is followed, wherever lowering writes it, by the mark that the runtime
is used, and the moves lead to the generator with that mark. -/
theorem moves_instr {i : Instr} (hi : Plain i) :
    ⦃fun g => ⌜p.MovesTo g₀ g⌝⦄ instr i
    ⦃post⟨fun _ g => ⌜p.MovesTo g₀ (if i.callsRuntime then g.withRuntime else g)⌝, fun _ _ => ⌜False⌝⟩⦄ := by
  refine triple_of_outcomes (fun g _ g' h hg => ?_) fun g _ g' _ hg => by rw [run_instr] at hg; cases hg
  obtain ⟨-, rfl⟩ := Prod.mk.inj ((run_instr i g).symm.trans hg)
  by_cases hr : i.callsRuntime
  · rw [if_pos hr]
    exact h.tail (.call i hr)
  · rw [if_neg hr]
    exact h.tail (.instr i hi (Bool.eq_false_iff.mpr hr))

end Steps

/-! ## Every run goes by moves -/

theorem keeps_storage (s : SymbolId) : Keeps P (p.storage s) := by
  mvcgen [Program.storage]

/-- Reading an expression's type changes nothing. -/
theorem keeps_exprType (id : NodeId) : Keeps P (p.exprType id) := by
  mvcgen [Program.exprType]

/-- Reading the operand type of an operation changes nothing, whether it is refused or not. -/
theorem keeps_operandType (op : Operation) (l r : NodeId) : Keeps P (p.operandType op l r) := by
  have ht : ∀ id, Keeps P (p.exprType id) := keeps_exprType
  mvcgen [Program.operandType, ht]

section Rules

variable (g₀ : Generator)

/-- Declarations go by moves: each writes a declaration or an allocation. -/
theorem moves_lowerDeclarations (syms : List SymbolId) : Keeps (p.MovesTo g₀) (p.lowerDeclarations syms) := by
  have hwr := @moves_write p g₀
  have hi := @moves_instr p g₀
  exact keeps_forM fun s => by mvcgen [hwr, hi] <;> simp_all [Plain, Item.isDeclaration, Instr.callsRuntime]

/-- Handing a value over goes by moves; a string is copied by a call to the runtime. -/
theorem moves_handOver (t : Ty) (v : Value) : Keeps (p.MovesTo g₀) (handOver t v) := by
  have hf := moves_fresh (p := p) g₀
  have hi := @moves_instr p g₀
  mvcgen [handOver, temp, hf, hi, useRuntime_spec]
  all_goals simp_all [Plain, Instr.callsRuntime]

variable {g₀} (hw : w.Keeps (p.MovesTo g₀))
include hw

/-- Lowering an expression as an operand goes by moves when the walk below does. -/
theorem moves_valueOf (id : NodeId) : Keeps (p.MovesTo g₀) (p.valueOf w id) := by
  have hx := hw.expr
  have hf := moves_fresh (p := p) g₀
  have hi := @moves_instr p g₀
  mvcgen [Program.valueOf, temp, hx, hf, hi]
  all_goals simp_all [Plain, Instr.callsRuntime]

/-- Lowering a condition goes by moves when the walk below does. -/
theorem moves_testOf (id : NodeId) : Keeps (p.MovesTo g₀) (p.testOf w id) := by
  have hx := hw.expr
  have hv := moves_valueOf hw
  have hf := moves_fresh (p := p) g₀
  have hi := @moves_instr p g₀
  have ht : ∀ id, Keeps (p.MovesTo g₀) (p.exprType id) := keeps_exprType
  mvcgen [Program.testOf, temp, ht, hx, hv, hf, hi]
  all_goals simp_all [Plain, Instr.callsRuntime]

/-- Lowering the arguments of a call goes by moves when the walk below does. -/
theorem moves_arguments (callee : String) (i : Nat) (args : List (NodeId × SymbolId)) :
    Keeps (p.MovesTo g₀) (p.arguments w callee i args) := by
  have hv := moves_valueOf hw
  have ht : ∀ id, Keeps (p.MovesTo g₀) (p.exprType id) := keeps_exprType
  induction args generalizing i with
  | nil => mvcgen [Program.arguments]
  | cons a args ih => mvcgen [Program.arguments, ht, hv, ih]

/-- A node's form, lowered when no operand is recorded for it: a string literal is lowered by one move. -/
theorem moves_lowerForm {id : NodeId} {e : Expr} {t : Option Ty} (he : p.ast.get? id = some (.expr e t)) :
    ⦃fun g => ⌜p.MovesTo g₀ g ∧ g.values[id]? = none⌝⦄ p.lowerForm w id e
    ⦃post⟨fun _ g => ⌜p.MovesTo g₀ g⌝, fun _ g => ⌜p.MovesTo g₀ g⌝⟩⦄ := by
  cases e
  case str raw => exact triple_of_run (p.run_lowerForm_str w id raw) fun g hg => hg.1.tail (.literal id raw t he hg.2)
  all_goals
    refine Keeps.and_pre ?_
    have hr : ∀ v, Keeps (p.MovesTo g₀) (remember id v) := moves_remember g₀ (by simp [he])
    have hs : ∀ s, Keeps (p.MovesTo g₀) (p.storage s) := keeps_storage
    have ht : ∀ id, Keeps (p.MovesTo g₀) (p.exprType id) := keeps_exprType
    have ho : ∀ op l r, Keeps (p.MovesTo g₀) (p.operandType op l r) := keeps_operandType
    have hv := moves_valueOf hw
    have ha := moves_arguments hw
    have hf := moves_fresh (p := p) g₀
    have hi := @moves_instr p g₀
    have hn := moves_own (p := p) g₀
    mvcgen [Program.lowerForm, temp, hr, hs, ht, ho, hv, ha, hf, hi, hn, useRuntime_spec]
  all_goals simp_all [Plain, Instr.callsRuntime]

/-- Lowering an expression node goes by moves when the walk below does. -/
theorem moves_lowerExpr (id : NodeId) : Keeps (p.MovesTo g₀) (p.lowerExpr w id) := by
  have hf : ∀ {e t}, p.ast.get? id = some (.expr e t) →
      ⦃fun g => ⌜p.MovesTo g₀ g ∧ g.values[id]? = none⌝⦄ p.lowerForm w id e
      ⦃post⟨fun _ g => ⌜p.MovesTo g₀ g⌝, fun _ g => ⌜p.MovesTo g₀ g⌝⟩⦄ :=
    moves_lowerForm hw
  mvcgen [Program.lowerExpr, hf]

/-- A return goes by moves when the walk below does. -/
theorem moves_lowerReturn (x : NodeId) : Keeps (p.MovesTo g₀) (p.lowerReturn w x) := by
  have ht : ∀ id, Keeps (p.MovesTo g₀) (p.exprType id) := keeps_exprType
  have hv := moves_valueOf hw
  have hh := moves_handOver (p := p) g₀
  have hf := moves_freeAll (p := p) g₀
  have hr := @moves_terminate p g₀
  mvcgen [Program.lowerReturn, ht, hv, hh, hf, hr]
  all_goals first
    | simp [Plain]
    | exact (‹p.MovesTo g₀ _›).tail .dropInner

end Rules

/-- A definition starts its body by one move and, once the body has been lowered, ends it by another; a failure is
the body's. -/
theorem moves_lowerDefinition {g₀ : Generator} {n : Nat} (hw : (p.walk n).Keeps (p.MovesTo g₀)) (f : FunctionId)
    (b : NodeId) : Keeps (p.MovesTo g₀) (p.lowerDefinition (p.walk n) f b) := by
  refine triple_of_outcomes (fun g _ g' hg h => ?_) fun g _ g' hg h => ?_
  · obtain ⟨g₁, hb, rfl⟩ := runs_lowerDefinition h
    have h₁ := (hw.emit b).run (hg.tail (.start f))
    rw [hb] at h₁
    exact h₁.tail (.finish n f b hb)
  · have h₁ := (hw.emit b).run (hg.tail (.start f))
    rwa [run_lowerDefinition_error h] at h₁

section Walk

variable {g₀ : Generator} {n : Nat} (hw : (p.walk n).Keeps (p.MovesTo g₀))
include hw

/-- Every statement rule goes by moves when the walk below does. -/
theorem moves_lowerStmt (s : Stmt) : Keeps (p.MovesTo g₀) (p.lowerStmt (p.walk n) s) := by
  have hd := moves_lowerDeclarations (p := p) g₀
  have hx := hw.expr
  have hb := moves_banner (p := p) g₀
  have hl := moves_newLabel (p := p) g₀
  have ho := moves_openScope (p := p) g₀
  have hc := moves_closeScope (p := p) g₀
  have hv := moves_testOf hw
  have hbr := moves_branch (p := p) g₀
  have hpl := moves_placeLabel (p := p) g₀
  have he := hw.emit
  have hj := moves_jump (p := p) g₀
  have hr := moves_lowerReturn hw
  have hs : ∀ items : List NodeId, Keeps (p.MovesTo g₀) (items.forM (p.walk n).emit) := fun _ => keeps_forM he
  have hwr := @moves_write p g₀
  have hf := moves_lowerDefinition hw
  cases s <;> mvcgen [Program.lowerStmt, Program.lowerChoice, Program.lowerWhile, Program.lowerDo, Program.lowerFor,
    Program.lowerPrototype, inScope, Runs.discard_eq, hd, hx, hb, hl, ho, hc, hv, hbr, hpl, he, hj, hr, hs, hwr, hf]
  all_goals simp [Item.isDeclaration]

/-- Emitting a node goes by moves when the walk below does. -/
theorem moves_emitNode (id : NodeId) : Keeps (p.MovesTo g₀) (p.emitNode (p.walk n) id) := by
  have hs := moves_lowerStmt hw
  have hf : ∀ {e t}, p.ast.get? id = some (.expr e t) →
      ⦃fun g => ⌜p.MovesTo g₀ g ∧ g.values[id]? = none⌝⦄ p.lowerForm (p.walk n) id e
      ⦃post⟨fun _ g => ⌜p.MovesTo g₀ g⌝, fun _ g => ⌜p.MovesTo g₀ g⌝⟩⦄ :=
    moves_lowerForm hw
  mvcgen [Program.emitNode, Runs.discard_eq, hs, hf]
  rename_i hg hc
  exact ⟨hg, getElem?_neg _ id hc⟩

end Walk

/-- Every run of every walk, successful or not, goes by moves: the walk at depth zero fails at once, and the walk one
level up runs the rules on the walk below. -/
theorem moves_walk (g₀ : Generator) (n : Nat) : (p.walk n).Keeps (p.MovesTo g₀) := by
  induction n with
  | zero => exact ⟨fun id => by mvcgen [walk, stuck], fun id => by mvcgen [walk, stuck]⟩
  | succ n ih => exact ⟨moves_emitNode ih, moves_lowerExpr ih⟩

/-- A step whose every run goes by moves keeps what every move keeps, whether it succeeds or fails. -/
theorem keeps_of_moves {α : Type} {x : GenM α} (hP : ∀ g g', p.Move g g' → P g → P g')
    (hx : ∀ g₀, Keeps (p.MovesTo g₀) x) : Keeps P x := by
  refine triple_of_outcomes (fun g _ g' hg h => ?_) fun g _ g' hg h => ?_ <;>
  · have hm := (hx g).run (Relation.ReflTransGen.refl : p.MovesTo g g)
    rw [h] at hm
    exact hm.keeps hP hg

/-- Every walk keeps what every move keeps. -/
theorem walk_keeps_of_moves (hP : ∀ g g', p.Move g g' → P g → P g') (n : Nat) : (p.walk n).Keeps P :=
  ⟨fun id => keeps_of_moves hP fun g₀ => (moves_walk g₀ n).emit id,
    fun id => keeps_of_moves hP fun g₀ => (moves_walk g₀ n).expr id⟩

/-! ## What the listing and the counters keep -/

/-- The changes that lowering makes to a generator, each keeping `P`: `P` reads only the lines, the register counters,
the operands remembered, the queued constants and the layout; and `P` is kept by writing any item but a constant or
the address of one, by a blank line, by taking a register, by remembering the operand of a node that is not a string
literal, by lowering as a whole a string literal whose operand is not recorded yet, and by writing the queued
constants. -/
structure StepsKeep (p : Program) (P : Generator → Prop) : Prop where
  frame : ∀ g g', P g → g'.lines = g.lines → g'.counters = g.counters → g'.values = g.values →
    g'.pending = g.pending → g'.layout = g.layout → P g'
  item : ∀ g k i, P g → (∀ r n, i ≠ .instr (.literal r n)) → (∀ r bytes, i ≠ .constant r bytes) →
    P { g with lines := g.lines.push (.item k i) }
  blank : ∀ g, P g → P g.withBlank
  fresh : ∀ g b, P g → P (g.withFresh b)
  value : ∀ g id v, P g → (∀ raw t, p.ast.get? id ≠ some (.expr (.str raw) t)) → P (g.withValue id v)
  literal : ∀ g id raw t, P g → p.ast.get? id = some (.expr (.str raw) t) → g.values[id]? = none →
    P (g.withLiteral id (Literal.decode raw))
  flush : ∀ g, P g → P g.withConstantsWritten

namespace StepsKeep

variable (hP : p.StepsKeep P) {g : Generator}
include hP

/-- A change of bookkeeping alone keeps `P`. -/
theorem keep (hg : P g) {g' : Generator} (hl : g'.lines = g.lines) (hc : g'.counters = g.counters)
    (hv : g'.values = g.values) (hq : g'.pending = g.pending) (ho : g'.layout = g.layout) : P g' :=
  hP.frame g g' hg hl hc hv hq ho

/-- An item other than a string literal's line and a constant keeps the property. -/
theorem withItem {i : Item} (hg : P g) (hi : ∀ r n, i ≠ .instr (.literal r n)) (hc : ∀ r bytes, i ≠ .constant r bytes) :
    P (g.withItem i) :=
  hP.item g g.depth i hg hi hc

/-- A label keeps the property. -/
theorem withLabel (l : Label) (hg : P g) : P (g.withLabel l) := by
  unfold Generator.withLabel
  have h₁ : P { g with lines := if g.layout.annotate then g.lines.push .blank else g.lines } := by
    split
    · exact hP.blank g hg
    · exact hP.keep hg rfl rfl rfl rfl rfl
  exact hP.keep (hP.item _ (g.depth - 1) (.label l) h₁ (by simp) (by simp)) rfl rfl rfl rfl rfl

/-- A banner keeps the property. -/
theorem withBanner (c : Construct) (hg : P g) : P (g.withBanner c) := by
  unfold Generator.withBanner
  split
  · exact hP.item _ (g.depth - 1) (.banner c) (hP.blank g hg) (by simp) (by simp)
  · exact hg

/-- A plain instruction keeps the property. -/
theorem withInstr {i : Instr} (hi : Plain i) (hg : P g) : P (g.withInstr i) := by
  unfold Generator.withInstr
  refine hP.withItem ?_ (fun r n h => hi r n (Item.instr.inj h)) (by simp)
  split
  · exact hP.withLabel _ (hP.keep hg rfl rfl rfl rfl rfl)
  · exact hg

/-- A plain terminator keeps the property. -/
theorem withTerminator {i : Instr} (hi : Plain i) (hg : P g) : P (g.withTerminator i) :=
  hP.keep (hP.withInstr hi hg) rfl rfl rfl rfl rfl

/-- Freeing strings keeps the property. -/
theorem withFrees (rs : List Reg) (hg : P g) : P (g.withFrees rs) := by
  induction rs generalizing g with
  | nil => exact hg
  | cons r rs ih => exact ih (hP.keep (hP.withInstr (by simp [Plain]) hg) rfl rfl rfl rfl rfl)

/-- Closing a string scope keeps the property. -/
theorem withoutScope (hg : P g) : P g.withoutScope := by
  unfold Generator.withoutScope
  split
  · split
    · exact hP.keep hg rfl rfl rfl rfl rfl
    · exact hP.withFrees _ (hP.keep hg rfl rfl rfl rfl rfl)
  · exact hP.keep hg rfl rfl rfl rfl rfl

/-- Items other than string literals' lines and constants keep the property. -/
theorem withItems {is : List Item} (hi : ∀ i ∈ is, (∀ r n, i ≠ .instr (.literal r n)) ∧ ∀ r bytes, i ≠ .constant r bytes)
    (hg : P g) : P (g.withItems is) := by
  induction is generalizing g with
  | nil => exact hg
  | cons i is ih =>
    obtain ⟨h₁, h₂⟩ := hi i List.mem_cons_self
    exact ih (fun j hj => hi j (List.mem_cons_of_mem i hj)) (hP.withItem hg h₁ h₂)

/-- Writing the runtime's prototypes keeps the property. -/
theorem withRuntimeWritten (hg : P g) : P g.withRuntimeWritten := by
  unfold Generator.withRuntimeWritten
  split
  · refine hP.keep (hP.blank _ (hP.withItems (fun i hi => ?_) hg)) rfl rfl rfl rfl rfl
    obtain ⟨h, -, rfl⟩ := List.mem_map.mp hi
    exact ⟨by simp, by simp⟩
  · exact hg

/-- Spilling the parameters keeps the property. -/
theorem withSpills (ps : List Symbol) (hg : P g) : P (ps.foldl withSpill g) := by
  induction ps generalizing g with
  | nil => exact hg
  | cons s ps ih => exact ih (hP.withInstr (by simp [Plain]) (hP.withInstr (by simp [Plain]) hg))

/-- The start of a function body keeps the property. -/
theorem bodyStart (f : FunctionId) (hg : P g) : P (p.bodyStart f g) := by
  have h₀ : P { ((g.withItem (p.headerOf f)).withItem .entry) with
      depth := g.depth + 1, closed := false, owned := [], marks := [] } :=
    hP.keep (hP.withItem (hP.withItem hg (by simp [headerOf]) (by simp [headerOf])) (by simp) (by simp))
      rfl rfl rfl rfl rfl
  exact hP.keep (hP.withSpills _ h₀) rfl rfl rfl rfl rfl

/-- The epilogue keeps the property. -/
theorem withEpilogue (r : Ty) (hg : P g) : P (g.withEpilogue r) := by
  unfold Generator.withEpilogue
  split
  · exact hg
  · exact hP.withTerminator (by simp [Plain]) (hP.withFrees _ (hP.keep hg rfl rfl rfl rfl rfl))

/-- The end of a function body keeps the property. -/
theorem bodyEnd (f : FunctionId) (g₀ : Generator) (hg : P g) : P (p.bodyEnd f g₀ g) :=
  hP.withRuntimeWritten (hP.blank _ (hP.flush _
    (hP.withItem (hP.keep (hP.withEpilogue _ hg) rfl rfl rfl rfl rfl) (by simp) (by simp))))

/-- Every move keeps what the steps keep. -/
theorem move {g' : Generator} (hm : p.Move g g') (hg : P g) : P g' := by
  cases hm with
  | declare i hi => exact hP.withItem hg (by cases i <;> simp_all [Item.isDeclaration]) (by
      cases i <;> simp_all [Item.isDeclaration])
  | label l => exact hP.withLabel l hg
  | banner c => exact hP.withBanner c hg
  | fresh b => exact hP.fresh _ b hg
  | value id v hn => exact hP.value _ id v hg hn
  | literal id raw t hn hv => exact hP.literal _ id raw t hg hn hv
  | instr i hi _ => exact hP.withInstr hi hg
  | call i hr => exact hP.keep (hP.withInstr (by cases i <;> simp_all [Instr.callsRuntime, Plain]) hg) rfl rfl rfl rfl rfl
  | terminate i hi _ => exact hP.withTerminator hi hg
  | frees rs => exact hP.withFrees rs hg
  | closeScope => exact hP.withoutScope hg
  | start f => exact hP.bodyStart f hg
  | finish n f b _ => exact hP.bodyEnd f _ hg
  | newLabel | own _ | openScope | dropInner => exact hP.keep hg rfl rfl rfl rfl rfl

end StepsKeep

/-- Every walk keeps what the steps keep. -/
theorem keeps_walk (hP : p.StepsKeep P) (n : Nat) : (p.walk n).Keeps P := walk_keeps_of_moves (fun _ _ hm => hP.move hm) n

/-- Lowering any node keeps what the steps keep, whether it succeeds or fails. -/
theorem keeps_emit (hP : p.StepsKeep P) (id : NodeId) : Keeps P (p.emit id) := (keeps_walk hP _).emit id

/-! ## The layout -/

theorem withItems_layout (g : Generator) (is : List Item) : (g.withItems is).layout = g.layout := by
  induction is generalizing g with
  | nil => rfl
  | cons i is ih => exact ih (g.withItem i)

/-- No step of lowering changes the layout. -/
theorem stepsKeep_layout (L : Layout) : p.StepsKeep fun g => g.layout = L where
  frame _ _ hg _ _ _ _ ho := ho.trans hg
  item _ _ _ hg _ _ := hg
  blank _ hg := hg
  fresh _ _ hg := hg
  value _ _ _ hg _ := hg
  literal g _ raw _ hg _ _ := (Generator.withInstr_layout _ (.literal (g.nextReg "str") ((Literal.decode raw).length + 1))).trans hg
  flush _ hg := (withItems_layout _ _).trans hg

end Program

namespace Generator

variable (g : Generator)

/-! ## The steps that leave the recorded operands alone

Only remembering an operand changes what a generator records. -/

/-- An item records no operand. -/
@[simp] theorem withItem_values (i : Item) : (g.withItem i).values = g.values := rfl

/-- A blank line records no operand. -/
@[simp] theorem withBlank_values : g.withBlank.values = g.values := rfl

/-- A label records no operand. -/
@[simp] theorem withLabel_values (l : Label) : (g.withLabel l).values = g.values := rfl

/-- A banner records no operand. -/
@[simp] theorem withBanner_values (c : Construct) : (g.withBanner c).values = g.values := by
  unfold withBanner
  split <;> rfl

/-- Taking labels records no operand. -/
@[simp] theorem withLabels_values (n : Nat) : (g.withLabels n).values = g.values := rfl

/-- A terminator records no operand. -/
@[simp] theorem withTerminator_values (i : Instr) : (g.withTerminator i).values = g.values := withInstr_values g i

/-- A jump records no operand. -/
@[simp] theorem withJump_values (l : Label) : (g.withJump l).values = g.values := by
  unfold withJump
  split <;> simp

/-- Freeing strings records no operand. -/
@[simp] theorem withFrees_values (rs : List Reg) : (g.withFrees rs).values = g.values := by
  induction rs generalizing g with
  | nil => rfl
  | cons r rs ih => exact (ih _).trans (withInstr_values g (.free (.reg r)))

/-- Opening a string scope records no operand. -/
@[simp] theorem withScope_values : g.withScope.values = g.values := rfl

/-- Closing a string scope records no operand. -/
@[simp] theorem withoutScope_values : g.withoutScope.values = g.values := by
  unfold withoutScope
  split
  · split <;> simp
  · rfl

/-- Taking a register records no operand. -/
@[simp] theorem withFresh_values (b : String) : (g.withFresh b).values = g.values := rfl

/-- Owning a string records no operand. -/
@[simp] theorem withOwned_values (r : Reg) : (g.withOwned r).values = g.values := rfl

/-- Marking the runtime used records no operand. -/
@[simp] theorem withRuntime_values : g.withRuntime.values = g.values := rfl

/-- Queueing a constant records no operand. -/
@[simp] theorem withConstant_values (r : Reg) (bytes : List UInt8) : (g.withConstant r bytes).values = g.values := rfl

/-- Dropping the innermost scope records no operand. -/
@[simp] theorem withoutInner_values : g.withoutInner.values = g.values := rfl

/-- Recording an operand for a node replaces whatever was recorded for it. -/
@[simp] theorem withValue_values (id : NodeId) (v : Value) : (g.withValue id v).values = g.values.insert id v := rfl

/-- A declaration records no operand. -/
@[simp] theorem withDeclaration_values (sym : Symbol) : (g.withDeclaration sym).values = g.values := by
  unfold withDeclaration
  split
  · rfl
  · split <;> simp

/-- Items record no operand. -/
@[simp] theorem withItems_values (is : List Item) : (g.withItems is).values = g.values := by
  induction is generalizing g with
  | nil => rfl
  | cons i is ih => exact ih (g.withItem i)

/-- Writing the queued constants records no operand. -/
@[simp] theorem withConstantsWritten_values : g.withConstantsWritten.values = g.values := by
  simp [withConstantsWritten]

/-- Writing the runtime's prototypes records no operand. -/
@[simp] theorem withRuntimeWritten_values : g.withRuntimeWritten.values = g.values := by
  unfold withRuntimeWritten
  split <;> simp

/-- Spilling the parameters records no operand. -/
@[simp] theorem foldl_withSpill_values (ps : List Symbol) : (ps.foldl withSpill g).values = g.values := by
  induction ps generalizing g with
  | nil => rfl
  | cons s ps ih => simp [ih, withSpill]

/-- Declarations record no operand. -/
@[simp] theorem foldl_withDeclaration_values {α : Type} (f : α → Symbol) (syms : List α) :
    (syms.foldl (fun g s => g.withDeclaration (f s)) g).values = g.values := by
  induction syms generalizing g with
  | nil => rfl
  | cons s syms ih => simp [ih]

/-- The epilogue records no operand. -/
@[simp] theorem withEpilogue_values (r : Ty) : (g.withEpilogue r).values = g.values := by
  unfold withEpilogue
  split <;> simp

end Generator

/-! ## Sessions -/

/-- The generator after the steps of a session, in order. -/
def Generator.afterSteps (g : Generator) (p : Program) (steps : List SessionStep) : Generator :=
  steps.foldl (fun g s => (g.apply p s).2) g

/-- A session keeps what every emit keeps whether it succeeds or fails: the other steps leave the generator as it
is. -/
theorem Generator.keeps_afterSteps {p : Program} {P : Generator → Prop} (hP : ∀ id, Keeps P (p.emit id))
    {g : Generator} (hg : P g) (steps : List SessionStep) : P (g.afterSteps p steps) := by
  induction steps generalizing g with
  | nil => exact hg
  | cons s steps ih =>
    refine ih ?_
    cases s with
    | emit id => exact (hP id).run hg
    | register id => exact hg
    | emitRefused id => exact hg
    | output => exact hg

/-- A session keeps what the steps of lowering keep. -/
theorem Program.StepsKeep.afterSteps {p : Program} {P : Generator → Prop} (hP : p.StepsKeep P) {g : Generator}
    (hg : P g) (steps : List SessionStep) : P (g.afterSteps p steps) :=
  Generator.keeps_afterSteps (Program.keeps_emit hP) hg steps

end Lowering
