import Lowering.Proofs.Recorded
import Lowering.Proofs.Termination

/-!
# The operands recorded for expressions

Lowering an expression records the operand holding its value, and a second use reads it back instead of lowering the
expression again. The record is sound whatever a session does. In every state, each operand recorded belongs to an
expression node and is an integer constant or a register that the code written defines (`Program.Memo`); a lowering,
successful or not, forgets and changes no operand recorded before it (`Program.Tracks`); and a successful lowering of a
node with a type records an operand for it, the one that lowering it as an operand gives (`records_walk`).

The invariant is carried through the rules by `mvcgen`, rule by rule rather than move by move
(`Program.walk_keeps_of_moves`): a memo is kept because each operand recorded is one the rule has just made, which the
moves do not see. Steps that only write code or change bookkeeping keep it (`tracks_of_run`). Where a rule records an operand, the steps before it are given exactly, by the generator they leave
(`spec_of_run`), so that the register recorded is seen to be defined by the instruction written just before.
-/

set_option mvcgen.warning false

namespace Lowering

open Std.Do Ir Generator

/-- Every step keeps the property that always holds. -/
theorem keeps_true {α : Type} (x : GenM α) : Keeps (fun _ => True) x :=
  triple_of_outcomes (fun _ _ _ _ _ => trivial) fun _ _ _ _ _ => trivial

/-- What a triple says of a successful run. -/
theorem Runs.post {α : Type} {x : GenM α} {P : Generator → Prop} {Q : α → Generator → Prop}
    {E : CodegenError → Generator → Prop}
    (hx : ⦃fun g => ⌜P g⌝⦄ x ⦃post⟨fun a g => ⌜Q a g⌝, fun e g => ⌜E e g⌝⟩⦄) {g g' : Generator} {a : α}
    (h : Runs x g a g') (hg : P g) : Q a g' := by
  have hw := hx g hg
  simp only [wp, PredTrans.apply_pushExcept, PredTrans.apply_pushArg] at hw
  rw [Runs] at h
  simpa [h, Id.run] using hw

namespace Generator

/-- An operand that stands for a value of the code written: an integer constant, or a register the code defines. -/
def Holds (g : Generator) : Value → Prop
  | .int _ => True
  | .reg r => ∃ τ, (r, τ) ∈ defs g.mark.code
  | .null | .arg _ => False

/-- `g'` is `g` with code written after it and the same operands recorded. -/
structure Adds (g g' : Generator) : Prop where
  values : g'.values = g.values
  code : g.mark.code <+: g'.mark.code

namespace Adds

variable {g g' : Generator}

/-- A generator adds nothing to itself. -/
@[simp] theorem refl (g : Generator) : g.Adds g := ⟨rfl, List.prefix_refl _⟩

/-- A change of bookkeeping adds nothing. -/
theorem of_lines (h : g.Adds g') {g'' : Generator} (hv : g''.values = g'.values) (hl : g''.lines = g'.lines) :
    g.Adds g'' :=
  ⟨hv.trans h.values, by simpa [mark, hl] using h.code⟩

/-- Code appended, with the operands left alone, is added. -/
theorem append (h : g.Adds g') {g'' : Generator} (hv : g''.values = g'.values) {s : List Item}
    (hc : g''.mark.code = g'.mark.code ++ s) : g.Adds g'' :=
  ⟨hv.trans h.values, hc ▸ h.code.trans (List.prefix_append _ _)⟩

/-! Writing code adds it. -/

/-- An instruction is added. -/
@[simp] theorem withInstr (h : g.Adds g') (i : Instr) : g.Adds (g'.withInstr i) :=
  h.append (by simp) (code_withInstr g' i)

/-- A terminator is added. -/
@[simp] theorem withTerminator (h : g.Adds g') (i : Instr) : g.Adds (g'.withTerminator i) :=
  h.append (by simp) (code_withTerminator g' i)

/-- An item is added. -/
@[simp] theorem withItem (h : g.Adds g') (i : Item) : g.Adds (g'.withItem i) := h.append (s := i.code) (by simp) (by simp)

/-- A blank line adds no code. -/
@[simp] theorem withBlank (h : g.Adds g') : g.Adds g'.withBlank := h.append (s := []) (by simp) (by simp)

/-- A label is added. -/
@[simp] theorem withLabel (h : g.Adds g') (l : Label) : g.Adds (g'.withLabel l) :=
  h.append (s := [.label l]) (by simp) (by simp)

/-- A banner adds no code. -/
@[simp] theorem withBanner (h : g.Adds g') (c : Construct) : g.Adds (g'.withBanner c) :=
  h.append (s := []) (by simp) (by simp)

/-- The frees of a closed scope are added. -/
@[simp] theorem withoutScope (h : g.Adds g') : g.Adds g'.withoutScope := h.append (by simp) (code_withoutScope g')

/-- A jump, if the block is open, is added. -/
@[simp] theorem withJump (h : g.Adds g') (l : Label) : g.Adds (g'.withJump l) := by
  unfold Generator.withJump
  split
  · exact h
  · exact h.withTerminator _

/-- Frees are added. -/
@[simp] theorem withFrees (h : g.Adds g') (rs : List Reg) : g.Adds (g'.withFrees rs) := by
  induction rs generalizing g' with
  | nil => exact h
  | cons r rs ih => exact ih ((h.withInstr (.free (.reg r))).of_lines rfl rfl)

/-- Items are added. -/
@[simp] theorem withItems (h : g.Adds g') (is : List Item) : g.Adds (g'.withItems is) :=
  h.append (by simp) (code_withItems g' is)

/-- The queued constants are added. -/
@[simp] theorem withConstantsWritten (h : g.Adds g') : g.Adds g'.withConstantsWritten :=
  h.append (by simp) (code_withConstantsWritten g')

/-- The runtime's prototypes, if owed, are added. -/
@[simp] theorem withRuntimeWritten (h : g.Adds g') : g.Adds g'.withRuntimeWritten := by
  unfold Generator.withRuntimeWritten
  split
  · exact ((h.withItems _).withBlank).of_lines rfl rfl
  · exact h

end Adds

/-! Bookkeeping adds nothing: these rewrite without side conditions, so that `simp` takes them at no depth. -/

theorem adds_of_lines {g g' g'' : Generator} (hv : g''.values = g'.values) (hl : g''.lines = g'.lines) :
    g.Adds g'' ↔ g.Adds g' :=
  ⟨fun h => h.of_lines (hv.symm) (hl.symm), fun h => h.of_lines hv hl⟩

/-- Taking a register adds nothing. -/
@[simp] theorem adds_withFresh (g g' : Generator) (b : String) : g.Adds (g'.withFresh b) ↔ g.Adds g' :=
  adds_of_lines rfl rfl

/-- Owning a string adds nothing. -/
@[simp] theorem adds_withOwned (g g' : Generator) (r : Reg) : g.Adds (g'.withOwned r) ↔ g.Adds g' :=
  adds_of_lines rfl rfl

/-- Marking the runtime used adds nothing. -/
@[simp] theorem adds_withRuntime (g g' : Generator) : g.Adds g'.withRuntime ↔ g.Adds g' := adds_of_lines rfl rfl

/-- Queueing a constant adds nothing. -/
@[simp] theorem adds_withConstant (g g' : Generator) (r : Reg) (bytes : List UInt8) :
    g.Adds (g'.withConstant r bytes) ↔ g.Adds g' :=
  adds_of_lines rfl rfl

/-- Taking labels adds nothing. -/
@[simp] theorem adds_withLabels (g g' : Generator) (n : Nat) : g.Adds (g'.withLabels n) ↔ g.Adds g' :=
  adds_of_lines rfl rfl

/-- Opening a string scope adds nothing. -/
@[simp] theorem adds_withScope (g g' : Generator) : g.Adds g'.withScope ↔ g.Adds g' := adds_of_lines rfl rfl

/-- An operand that stands for a value of the code written still does once more code is written. -/
theorem Holds.adds {g g' : Generator} {v : Value} (hv : g.Holds v) (h : g.Adds g') : g'.Holds v := by
  cases v with
  | reg r =>
    obtain ⟨τ, hr⟩ := hv
    obtain ⟨s, hs⟩ := h.code
    exact ⟨τ, by rw [← hs, defs_append]; exact List.mem_append_left _ hr⟩
  | int => trivial
  | null | arg => exact hv.elim

/-- An integer constant always stands for a value. -/
@[simp] theorem holds_int (g : Generator) (n : Int32) : g.Holds (.int n) := trivial

/-- Writing an instruction: an operand stands for a value afterwards when it did before, or is the register the
instruction defines. -/
@[simp] theorem holds_withInstr_iff (g : Generator) (i : Instr) (v : Value) :
    (g.withInstr i).Holds v ↔ g.Holds v ∨ ∃ r τ, v = .reg r ∧ i.def? = some (r, τ) := by
  cases v with
  | reg r =>
    have hl : defs (if g.closed then [Item.label ⟨g.labels⟩] else []) = [] := by split <;> rfl
    simp only [Holds, code_withInstr, defs_append, hl, defs_cons, Item.defs_instr, defs_nil, List.nil_append,
      List.append_nil, List.mem_append, exists_or, Value.reg.injEq]
    rcases i.def? with _ | ⟨r', τ'⟩ <;> simp [eq_comm]
  | int | null | arg => simp [Holds]

/-- Taking a register defines nothing. -/
@[simp] theorem holds_withFresh (g : Generator) (b : String) (v : Value) : (g.withFresh b).Holds v ↔ g.Holds v := by
  cases v <;> rfl

/-- Owning a string defines nothing. -/
@[simp] theorem holds_withOwned (g : Generator) (r : Reg) (v : Value) : (g.withOwned r).Holds v ↔ g.Holds v := by
  cases v <;> rfl

/-- Marking the runtime used defines nothing. -/
@[simp] theorem holds_withRuntime (g : Generator) (v : Value) : g.withRuntime.Holds v ↔ g.Holds v := by
  cases v <;> rfl

/-- Queueing a constant defines nothing. -/
@[simp] theorem holds_withConstant (g : Generator) (r : Reg) (bytes : List UInt8) (v : Value) :
    (g.withConstant r bytes).Holds v ↔ g.Holds v := by
  cases v <;> rfl

/-- Recording an operand defines nothing. -/
@[simp] theorem holds_withValue (g : Generator) (id : NodeId) (u v : Value) : (g.withValue id u).Holds v ↔ g.Holds v := by
  cases v <;> rfl

end Generator

namespace Program

/-- Every operand recorded is recorded for an expression node of the tree, and stands for a value of the code
written. -/
def Memo (p : Program) (g : Generator) : Prop :=
  ∀ (id : NodeId) (v : Value), g.values[id]? = some v → (∃ e t, p.ast.get? id = some (.expr e t)) ∧ g.Holds v

/-- The operands recorded by `g`, against those recorded by `g₀` when lowering began: they are a memo, and every
operand `g₀` recorded is still recorded, unchanged. -/
structure Tracks (p : Program) (g₀ g : Generator) : Prop where
  memo : p.Memo g
  kept : ∀ (id : NodeId) (v : Value), g₀.values[id]? = some v → g.values[id]? = some v

variable {p : Program} {g₀ g g' : Generator}

/-- Code added with no operand recorded keeps what is tracked. -/
theorem Tracks.adds (h : p.Tracks g₀ g) (ha : g.Adds g') : p.Tracks g₀ g' where
  memo id v hv := by
    rw [ha.values] at hv
    obtain ⟨hn, hh⟩ := h.memo id v hv
    exact ⟨hn, hh.adds ha⟩
  kept id v hv := by
    rw [ha.values]
    exact h.kept id v hv

/-- A memo tracks itself. -/
theorem Memo.tracks (h : p.Memo g) : p.Tracks g g := ⟨h, fun _ _ hv => hv⟩

/-- What is tracked from `g₀` to `g`, and from `g` on, is tracked from `g₀`. -/
theorem Tracks.trans (h₁ : p.Tracks g₀ g) (h₂ : p.Tracks g g') : p.Tracks g₀ g' :=
  ⟨h₂.memo, fun id v hv => h₂.kept id v (h₁.kept id v hv)⟩

/-- A change of bookkeeping keeps what is tracked. -/
theorem Tracks.keep (h : p.Tracks g₀ g) (hv : g'.values = g.values) (hl : g'.lines = g.lines) : p.Tracks g₀ g' :=
  h.adds ((Adds.refl g).of_lines hv hl)

/-- Recording an operand that stands for a value, for an expression node that `g₀` had not recorded. -/
theorem Tracks.withValue (h : p.Tracks g₀ g) {id : NodeId} {v : Value} {e : Expr} {t : Option Ty}
    (hn : p.ast.get? id = some (.expr e t)) (h₀ : g₀.values[id]? = none) (hv : g.Holds v) :
    p.Tracks g₀ (g.withValue id v) where
  memo x u hu := by
    by_cases hx : id = x
    · subst hx
      simp only [withValue_values, Std.HashMap.getElem?_insert_self, Option.some.injEq] at hu
      subst hu
      exact ⟨⟨e, t, hn⟩, hv⟩
    · simp only [withValue_values, Std.HashMap.getElem?_insert, beq_iff_eq, hx, if_false] at hu
      exact h.memo x u hu
  kept x u hu := by
    have hx : id ≠ x := fun e => by rw [e] at h₀; rw [h₀] at hu; cases hu
    simp only [withValue_values, Std.HashMap.getElem?_insert, beq_iff_eq, hx, if_false]
    exact h.kept x u hu

/-- The step `x`, started where `Tracks g₀` holds, leaves it holding, success or not, and when it succeeds the operand it
gives stands for a value of the code written. -/
abbrev Gives (p : Program) (g₀ : Generator) (x : GenM Value) : Prop :=
  ⦃fun g => ⌜p.Tracks g₀ g⌝⦄ x ⦃post⟨fun v g => ⌜p.Tracks g₀ g ∧ g.Holds v⌝, fun _ g => ⌜p.Tracks g₀ g⌝⟩⦄

/-- A step that gives operands standing for values keeps what is tracked. -/
theorem Gives.keeps {x : GenM Value} (h : p.Gives g₀ x) : Keeps (p.Tracks g₀) x := by
  mvcgen [h]
  exact fun h _ => h

end Program

/-- Lowering one level down keeps what is tracked, success or not, and gives operands that stand for values. -/
structure Walk.Tracks (p : Program) (w : Walk) : Prop where
  emit : ∀ g₀ id, Lowering.Keeps (p.Tracks g₀) (w.emit id)
  expr : ∀ g₀ id, p.Gives g₀ (w.expr id)

namespace Program

variable {p : Program} {g₀ g g' : Generator}

/-! ## Steps that record nothing -/

section Steps

variable (g₀ : Generator)

/-- A step that cannot fail and records nothing keeps what is tracked. -/
theorem tracks_of_run {α : Type} {x : GenM α} {F : Generator → Generator} {a : Generator → α}
    (hx : ∀ g, x.run.run g = (.ok (a g), F g)) (hF : ∀ g : Generator, g.Adds (F g)) : Keeps (p.Tracks g₀) x :=
  keeps_of_run hx fun g h => h.adds (hF g)

/-- An instruction keeps what is tracked. -/
theorem tracks_instr (i : Instr) : Keeps (p.Tracks g₀) (instr i) := tracks_of_run g₀ (run_instr i) fun g => by simp

/-- A terminator keeps what is tracked. -/
theorem tracks_terminate (i : Instr) : Keeps (p.Tracks g₀) (terminate i) :=
  tracks_of_run g₀ (run_terminate i) fun g => by simp

/-- Taking a register keeps what is tracked. -/
theorem tracks_fresh (b : String) : Keeps (p.Tracks g₀) (fresh b) := tracks_of_run g₀ (run_fresh b) fun g => by simp

/-- Taking a label keeps what is tracked. -/
theorem tracks_newLabel : Keeps (p.Tracks g₀) newLabel := tracks_of_run g₀ run_newLabel fun g => by simp

/-- Placing a label keeps what is tracked. -/
theorem tracks_placeLabel (l : Label) : Keeps (p.Tracks g₀) (placeLabel l) :=
  tracks_of_run g₀ (run_placeLabel l) fun g => by simp

/-- A banner keeps what is tracked. -/
theorem tracks_banner (c : Construct) : Keeps (p.Tracks g₀) (banner c) :=
  tracks_of_run g₀ (run_banner c) fun g => by simp

/-- A jump keeps what is tracked. -/
theorem tracks_jump (l : Label) : Keeps (p.Tracks g₀) (jump l) := tracks_of_run g₀ (run_jump l) fun g => by simp

/-- A branch keeps what is tracked. -/
theorem tracks_branch (c : Value) (l₁ l₂ : Label) : Keeps (p.Tracks g₀) (branch c l₁ l₂) :=
  tracks_of_run g₀ (run_branch c l₁ l₂) fun g => by simp

/-- Freeing strings keeps what is tracked. -/
theorem tracks_freeAll (rs : List Reg) : Keeps (p.Tracks g₀) (freeAll rs) :=
  tracks_of_run g₀ (run_freeAll rs) fun g => by simp

/-- Freeing every string owned keeps what is tracked. -/
theorem tracks_freeOwned : Keeps (p.Tracks g₀) freeOwned := by
  refine tracks_of_run g₀ run_freeOwned fun g => ?_
  have h : g.Adds { g with owned := [] } := (Adds.refl g).of_lines rfl rfl
  exact h.withFrees g.owned

/-- Marking the runtime used keeps what is tracked. -/
theorem tracks_useRuntime : Keeps (p.Tracks g₀) useRuntime := tracks_of_run g₀ run_useRuntime fun g => by simp

/-- Opening a string scope keeps what is tracked. -/
theorem tracks_openScope : Keeps (p.Tracks g₀) openScope := tracks_of_run g₀ run_openScope fun g => by simp

/-- Closing a string scope keeps what is tracked. -/
theorem tracks_closeScope : Keeps (p.Tracks g₀) closeScope := tracks_of_run g₀ run_closeScope fun g => by simp

/-- Writing an item keeps what is tracked. -/
theorem tracks_write (i : Item) : Keeps (p.Tracks g₀) (write i) := tracks_of_run g₀ (run_write i) fun g => by simp

/-- A blank line keeps what is tracked. -/
theorem tracks_writeBlank : Keeps (p.Tracks g₀) writeBlank := tracks_of_run g₀ run_writeBlank fun g => by simp

/-- Writing the queued constants keeps what is tracked. -/
theorem tracks_flushConstants : Keeps (p.Tracks g₀) flushConstants :=
  tracks_of_run g₀ (fun g => (runs_flushConstants.mpr rfl : Runs flushConstants g () _)) fun g => by simp

/-- Writing the runtime's prototypes keeps what is tracked. -/
theorem tracks_declareRuntime : Keeps (p.Tracks g₀) declareRuntime :=
  tracks_of_run g₀ (fun g => (runs_declareRuntime.mpr rfl : Runs declareRuntime g () _)) fun g => by simp

/-- Declarations keep what is tracked. -/
theorem tracks_lowerDeclarations (syms : List SymbolId) : Keeps (p.Tracks g₀) (p.lowerDeclarations syms) := by
  have hwr := tracks_write (p := p) g₀
  have hi := tracks_instr (p := p) g₀
  exact keeps_forM fun s => by mvcgen [hwr, hi]

/-- Handing a value over keeps what is tracked. -/
theorem tracks_handOver (t : Ty) (v : Value) : Keeps (p.Tracks g₀) (handOver t v) := by
  have hf := tracks_fresh (p := p) g₀
  have hi := tracks_instr (p := p) g₀
  have hu := tracks_useRuntime (p := p) g₀
  mvcgen [handOver, temp, hf, hi, hu]

end Steps

section Rules

variable {w : Walk} (hw : Walk.Tracks p w) (g₀ : Generator)
include hw

/-- Lowering an operand keeps what is tracked and gives an operand that stands for a value. -/
theorem gives_valueOf (id : NodeId) : p.Gives g₀ (p.valueOf w id) := by
  have hx := hw.expr g₀ id
  mvcgen [Program.valueOf, temp, hx, instr_spec, fresh_spec]
  rename_i h
  exact ⟨h.1.adds (by simp), by simp [Instr.def?]⟩

/-- Lowering a condition keeps what is tracked. -/
theorem tracks_testOf (id : NodeId) : Keeps (p.Tracks g₀) (p.testOf w id) := by
  have hx := (hw.expr g₀ id).keeps
  have hv := (gives_valueOf hw g₀ id).keeps
  mvcgen [Program.testOf, Program.exprType, temp, hx, hv, instr_spec, fresh_spec]
  all_goals exact (‹p.Tracks g₀ _›).adds (by simp)

/-- Lowering the arguments of a call keeps what is tracked. -/
theorem tracks_arguments (callee : String) (i : Nat) (args : List (NodeId × SymbolId)) :
    Keeps (p.Tracks g₀) (p.arguments w callee i args) := by
  have hv := fun id => (gives_valueOf hw g₀ id).keeps
  induction args generalizing i with
  | nil => mvcgen [Program.arguments]
  | cons a args ih =>
    mvcgen [Program.arguments, Program.exprType, hv, ih]

/-- Lowering an expression that `g₀` had not recorded keeps what is tracked, and records and gives an operand that
stands for a value. -/
theorem gives_lowerForm {id : NodeId} {e : Expr} {t : Option Ty} (hn : p.ast.get? id = some (.expr e t))
    (h₀ : g₀.values[id]? = none) : p.Gives g₀ (p.lowerForm w id e) := by
  have ha := tracks_arguments hw g₀
  have hrec : ∀ {g g' : Generator} {v : Value}, p.Tracks g₀ g → g.Adds g' → g'.Holds v →
      p.Tracks g₀ (g'.withValue id v) ∧ (g'.withValue id v).Holds v :=
    fun h ha hv => ⟨(h.adds ha).withValue hn h₀ hv, by simpa using hv⟩
  cases e
  case str raw =>
    mvcgen [lowerForm_str_spec]
    simp only [withLiteral]
    exact hrec ‹_› (by simp) (by simp [Instr.def?])
  case assign s x =>
    -- the only rule that records an operand it did not make: the assigned value's
    have hv := gives_valueOf hw g₀ x
    mvcgen [Program.lowerForm, Program.storage, Program.exprType, remember_spec, hv, instr_spec]
    all_goals
      obtain ⟨h, hx⟩ := ‹p.Tracks g₀ _ ∧ _›
      exact hrec h (by simp) (by simp [hx])
  all_goals
    have hv := fun x => (gives_valueOf hw g₀ x).keeps
    mvcgen [Program.lowerForm, Program.storage, Program.operandType, Program.exprType, temp, remember_spec, hv, ha,
      fresh_spec, instr_spec, useRuntime_spec, own_spec]
  all_goals exact hrec ‹_› (by simp) (by simp [Instr.def?])

/-- Lowering a node that no operand is recorded for: what `g₀` recorded stays, so the node was not recorded by `g₀`
either, and the operand the rule records is new to it. -/
theorem gives_lowerForm_unrecorded {id : NodeId} {e : Expr} {t : Option Ty} (hn : p.ast.get? id = some (.expr e t)) :
    ⦃fun g => ⌜p.Tracks g₀ g ∧ g.values[id]? = none⌝⦄ p.lowerForm w id e
    ⦃post⟨fun v g => ⌜p.Tracks g₀ g ∧ g.Holds v⌝, fun _ g => ⌜p.Tracks g₀ g⌝⟩⦄ := by
  intro g ⟨h, hg⟩
  have h₀ : g₀.values[id]? = none := by
    rcases hv : g₀.values[id]? with _ | v
    · rfl
    · rw [h.kept id v hv] at hg
      cases hg
  exact gives_lowerForm hw g₀ hn h₀ g h

/-- Lowering an expression node keeps what is tracked and gives an operand that stands for a value. -/
theorem gives_lowerExpr (id : NodeId) : p.Gives g₀ (p.lowerExpr w id) := by
  have hf : ∀ {e t}, p.ast.get? id = some (.expr e t) → _ := gives_lowerForm_unrecorded hw g₀
  mvcgen [Program.lowerExpr, hf]
  rename_i h v hv
  exact ⟨h, (h.memo id v hv).2⟩

/-- A return keeps what is tracked. -/
theorem tracks_lowerReturn (x : NodeId) : Keeps (p.Tracks g₀) (p.lowerReturn w x) := by
  have hv := (gives_valueOf hw g₀ x).keeps
  have hh := tracks_handOver (p := p) g₀
  have hf := tracks_freeAll (p := p) g₀
  have hr := tracks_terminate (p := p) g₀
  mvcgen [Program.lowerReturn, Program.exprType, hv, hh, hf, hr]
  exact ‹p.Tracks g₀ _›.keep (by rfl) (by rfl)

/-- A definition keeps what is tracked. -/
theorem tracks_lowerDefinition (f : FunctionId) (b : NodeId) : Keeps (p.Tracks g₀) (p.lowerDefinition w f b) := by
  have hwr := tracks_write (p := p) g₀
  have hi := tracks_instr (p := p) g₀
  have hr := tracks_terminate (p := p) g₀
  have hx := hw.emit g₀
  have ho := tracks_freeOwned (p := p) g₀
  have hc := tracks_flushConstants (p := p) g₀
  have hb := tracks_writeBlank (p := p) g₀
  have hd := tracks_declareRuntime (p := p) g₀
  have hs : ∀ ps : List Symbol, Keeps (p.Tracks g₀) (ps.forM fun s => do
      instr (.alloca (s.name ++ ".addr") s.ty)
      instr (.store s.ty (.arg s.name) (.slot (s.name ++ ".addr")))) :=
    fun _ => keeps_forM fun s => by mvcgen [hi]
  mvcgen [Program.lowerDefinition, hwr, hi, hr, hx, ho, hc, hb, hd, hs]
  all_goals exact ‹p.Tracks g₀ _›.keep (by rfl) (by rfl)

/-- Every statement rule keeps what is tracked. -/
theorem tracks_lowerStmt (s : Stmt) : Keeps (p.Tracks g₀) (p.lowerStmt w s) := by
  have hd := tracks_lowerDeclarations (p := p) g₀
  have hx := fun id => (hw.expr g₀ id).keeps
  have hb := tracks_banner (p := p) g₀
  have hl := tracks_newLabel (p := p) g₀
  have ho := tracks_openScope (p := p) g₀
  have hc := tracks_closeScope (p := p) g₀
  have hv := tracks_testOf hw g₀
  have hbr := tracks_branch (p := p) g₀
  have hpl := tracks_placeLabel (p := p) g₀
  have he := hw.emit g₀
  have hj := tracks_jump (p := p) g₀
  have hr := tracks_lowerReturn hw g₀
  have hs : ∀ items : List NodeId, Keeps (p.Tracks g₀) (items.forM w.emit) := fun _ => keeps_forM he
  have hwr := tracks_write (p := p) g₀
  have hf := tracks_lowerDefinition hw g₀
  cases s <;> mvcgen [Program.lowerStmt, Program.lowerChoice, Program.lowerWhile, Program.lowerDo, Program.lowerFor,
    Program.lowerPrototype, inScope, Runs.discard_eq, hd, hx, hb, hl, ho, hc, hv, hbr, hpl, he, hj, hr, hs, hwr, hf]

/-- Emitting a node keeps what is tracked. -/
theorem tracks_emitNode (id : NodeId) : Keeps (p.Tracks g₀) (p.emitNode w id) := by
  have hs := tracks_lowerStmt hw g₀
  have hf : ∀ {e t}, p.ast.get? id = some (.expr e t) → _ := gives_lowerForm_unrecorded hw g₀
  mvcgen [Program.emitNode, Runs.discard_eq, hs, hf]
  · -- an expression is lowered only when no operand is recorded for it
    rename_i h hc
    exact ⟨h, Std.HashMap.getElem?_eq_none_of_contains_eq_false (Bool.eq_false_iff.mpr hc)⟩
  · exact ‹_ ∧ _›.1

end Rules

/-- Every walk keeps what is tracked, whether it succeeds or fails: the walk at depth zero fails at once, and the walk
one level up runs the rules on the walk below. -/
theorem tracks_walk (n : Nat) : Walk.Tracks p (p.walk n) := by
  induction n with
  | zero => exact ⟨fun g₀ id => by mvcgen [walk, stuck], fun g₀ id => by mvcgen [walk, stuck]⟩
  | succ n ih => exact ⟨tracks_emitNode ih, gives_lowerExpr ih⟩

/-- Lowering any node keeps what is tracked, whether it succeeds or fails. -/
theorem tracks_emit (g₀ : Generator) (id : NodeId) : Keeps (p.Tracks g₀) (p.emit id) := (tracks_walk _).emit g₀ id

/-! ## What a successful lowering records -/

/-- Lowering an expression ends by recording the operand it gives. -/
theorem lowerForm_records (w : Walk) (id : NodeId) (e : Expr) :
    ⦃fun _ => ⌜True⌝⦄ p.lowerForm w id e ⦃post⟨fun v g => ⌜g.values[id]? = some v⌝, fun _ _ => ⌜True⌝⟩⦄ := by
  have hv : ∀ x, Keeps (fun _ => True) (p.valueOf w x) := fun x => keeps_true _
  have ha : ∀ c i args, Keeps (fun _ => True) (p.arguments w c i args) := fun c i args => keeps_true _
  cases e
  case str raw =>
    mvcgen [lowerForm_str_spec]
    simp [withLiteral]
  all_goals
    mvcgen [Program.lowerForm, Program.storage, Program.operandType, Program.exprType, temp, remember_spec, hv, ha,
      instr_spec, fresh_spec, useRuntime_spec, own_spec]
  all_goals simp

/-- Lowering an expression node succeeds only with the operand it records for the node. -/
theorem lowerExpr_records {w : Walk} {id : NodeId} {v : Value} (h : Runs (p.lowerExpr w id) g v g') :
    g'.values[id]? = some v := by
  rcases runs_lowerExpr h with ⟨hv, rfl⟩ | ⟨-, e, t, -, h⟩
  · exact hv
  · exact Runs.post (lowerForm_records w id e) h trivial

/-- Emitting a node that has a type records an operand for it: it was recorded already, or it is lowered now. -/
theorem emitNode_records {w : Walk} {id : NodeId} {t : Ty} (h : Runs (p.emitNode w id) g () g')
    (ht : p.ast.ty? id = some t) : ∃ v, g'.values[id]? = some v := by
  rcases runs_emitNode h with ⟨e, t', -, ⟨hc, rfl⟩ | ⟨-, v, h⟩⟩ | ⟨s, hn, -⟩
  · rw [Std.HashMap.contains_eq_isSome_getElem?, Option.isSome_iff_exists] at hc
    exact hc
  · exact ⟨v, Runs.post (lowerForm_records w id e) h trivial⟩
  · simp [Ast.ty?, hn, Node.ty] at ht

/-- At every depth, a node with a type that lowers is recorded, and the operand an expression lowers to is the one
recorded for it. -/
theorem records_walk (n : Nat) :
    (p.walk n).Sound (fun id _ g' => ∀ t, p.ast.ty? id = some t → ∃ v, g'.values[id]? = some v)
      (fun id _ v g' => g'.values[id]? = some v) :=
  walk_induction _ _ (fun _ _ => ⟨fun h _ ht => emitNode_records h ht, fun h => lowerExpr_records h⟩) n

/-! ## Sessions -/

theorem memo_new (layout : Layout) : p.Memo (Generator.new layout) := by
  intro id v h
  simp [Generator.new] at h

/-- A session tracks the memo it starts from: every step keeps it a memo and forgets no operand. -/
theorem tracks_afterSteps (hg : p.Memo g) (steps : List SessionStep) : p.Tracks g (g.afterSteps p steps) := by
  induction steps generalizing g with
  | nil => exact hg.tracks
  | cons s steps ih =>
    have h₁ : p.Tracks g (g.apply p s).2 := by
      cases s with
      | emit id => exact (tracks_emit g id).run hg.tracks
      | register _ | emitRefused _ | output => exact hg.tracks
    exact h₁.trans (ih h₁.memo)

/-- Emitting an expression that is recorded appends nothing and changes nothing. -/
theorem emit_recorded (hg : p.Memo g) {id : NodeId} {v : Value} (hv : g.values[id]? = some v) :
    (p.emit id).run.run g = (.ok (), g) := by
  obtain ⟨⟨e, t, hn⟩, -⟩ := hg id v hv
  have hc : g.values.contains id = true := by
    rw [Std.HashMap.contains_eq_isSome_getElem?, hv]
    rfl
  simp only [Program.emit, walk, step, emitNode, hn, Runs.run_bind, Runs.run_get, hc, if_true]
  rfl

/-- Lowering a recorded expression as an operand gives the operand recorded and changes nothing. -/
theorem lowerExpr_recorded (w : Walk) {id : NodeId} {v : Value} (hv : g.values[id]? = some v) :
    (p.lowerExpr w id).run.run g = (.ok v, g) := by
  simp only [lowerExpr, Runs.run_bind, Runs.run_get, hv]
  rfl

/-- What a session records for expressions, whatever nodes it emits and whether the emits succeed or fail.
(i) At every depth, a node with a type that lowers gets an operand recorded, and lowering an expression as an operand
gives the operand recorded for it. (ii) In every state a session reaches, a recorded operand stays recorded, unchanged,
through every later step, and emitting the node or lowering it as an operand again succeeds, appends nothing and
changes nothing. (iii) In every such state, every recorded operand is recorded for an expression node and is an
integer constant or a register that the code written so far defines. -/
theorem session_records_operands (layout : Layout) (steps : List SessionStep) :
    (∀ n id t g g', p.ast.ty? id = some t → Runs ((p.walk n).emit id) g () g' → ∃ v, g'.values[id]? = some v) ∧
    (∀ n id g v g', Runs ((p.walk n).expr id) g v g' → g'.values[id]? = some v) ∧
    let g := (Generator.new layout).afterSteps p steps
    (∀ id v, g.values[id]? = some v →
      (∀ more, (g.afterSteps p more).values[id]? = some v) ∧
      (p.emit id).run.run g = (.ok (), g) ∧ ∀ w, (p.lowerExpr w id).run.run g = (.ok v, g)) ∧
    p.Memo g := by
  refine ⟨fun n _ t _ _ ht h => (records_walk n).emit h t ht, fun n _ _ _ _ h => (records_walk n).expr h, ?_⟩
  intro g
  have hg : p.Memo g := (tracks_afterSteps (memo_new layout) steps).memo
  refine ⟨fun id v hv => ⟨fun more => ?_, emit_recorded hg hv, fun w => lowerExpr_recorded w hv⟩, hg⟩
  exact (tracks_afterSteps hg more).kept id v hv

end Program

end Lowering
