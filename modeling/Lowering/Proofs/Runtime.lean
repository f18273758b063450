import Lowering.Proofs.Memo

/-!
# The runtime's prototypes

Lowered code that calls the string runtime (a string comparison, a concatenation, a copy or a free) marks the runtime
used, and the prototypes of its five functions are written once, as one block, when a function definition ends or the
unit is finished, whichever comes first after the first such call. `Generator.RuntimeShape` is what this leaves in the
lines at every step: the mark says whether some line calls the runtime; no prototype stands before they are written,
and after, they stand as one block, after a line that calls the runtime, with no other prototype anywhere.

Every move of lowering keeps the shape (`Generator.RuntimeShape.move`), so every step does, whether it succeeds or
fails, every session does, and so does finishing (`session_runtime_block`). The moves that write lines keep it one by
one (`Generator.Grows`); the only line that does not is an instruction calling the runtime, which keeps it together with
the mark that follows it, and the two make one move.

The shape is a property of the listing. A text can still call a function named like one of the runtime's without any
prototype being written: names are not restricted (`namesake_calls_without_prototypes`).
-/

set_option mvcgen.warning false

namespace Lowering

open Std.Do Ir Generator

namespace Ir

/-- Whether an item is an instruction calling the string runtime. -/
def Item.callsRuntime : Item → Bool
  | .instr i => i.callsRuntime
  | _ => false

/-- Whether an item is the prototype of a runtime function. -/
def Item.isHelper : Item → Bool
  | .helper _ => true
  | _ => false

/-- Whether a line is an instruction calling the string runtime. -/
def Line.callsRuntime : Line → Bool
  | .item _ i => i.callsRuntime
  | .blank => false

/-- Whether a line is the prototype of a runtime function. -/
def Line.isHelper : Line → Bool
  | .item _ i => i.isHelper
  | .blank => false

/-- The runtime's prototypes, one per line, at a nesting level, in the order they are written. -/
def helperBlock (k : Nat) : List Line := Helper.all.map fun h => .item k (.helper h)

end Ir

namespace Generator

/-- The runtime's prototypes in the lines, against the two marks: the runtime is marked used exactly when some line
calls it; until the prototypes are marked written no line is one, and once they are, they stand as one block of lines
after a line that calls the runtime, and no other line is a prototype. -/
structure RuntimeShape (g : Generator) : Prop where
  used : g.runtimeUsed = g.lines.toList.any Line.callsRuntime
  undeclared : g.runtimeDeclared = false → ∀ l ∈ g.lines.toList, l.isHelper = false
  declared : g.runtimeDeclared = true → ∃ pre k post, g.lines.toList = pre ++ helperBlock k ++ post ∧
    pre.any Line.callsRuntime = true ∧ ∀ l ∈ pre ++ post, l.isHelper = false

/-- `g'` is `g` with lines written none of which is a prototype, and the runtime marked used when one of them calls
it. -/
structure Grows (g g' : Generator) : Prop where
  lines : ∃ new, g'.lines.toList = g.lines.toList ++ new ∧ (∀ l ∈ new, l.isHelper = false) ∧
    g'.runtimeUsed = (g.runtimeUsed || new.any Line.callsRuntime)
  declared : g'.runtimeDeclared = g.runtimeDeclared

namespace Grows

variable {g g₁ g' : Generator}

/-- A generator grows into itself. -/
theorem refl (g : Generator) : g.Grows g := ⟨⟨[], by simp, by simp, by simp⟩, rfl⟩

/-- Lines written, then more lines written, are lines written. -/
theorem trans (h₁ : g.Grows g₁) (h₂ : g₁.Grows g') : g.Grows g' := by
  obtain ⟨⟨n₁, hl₁, hh₁, hu₁⟩, hd₁⟩ := h₁
  obtain ⟨⟨n₂, hl₂, hh₂, hu₂⟩, hd₂⟩ := h₂
  refine ⟨⟨n₁ ++ n₂, by rw [hl₂, hl₁, List.append_assoc], ?_, ?_⟩, hd₂.trans hd₁⟩
  · intro l hl
    rcases List.mem_append.mp hl with hl | hl
    · exact hh₁ l hl
    · exact hh₂ l hl
  · rw [hu₂, hu₁, List.any_append, Bool.or_assoc]

/-- A change of bookkeeping writes nothing. -/
theorem of_lines (hl : g'.lines = g.lines) (hu : g'.runtimeUsed = g.runtimeUsed)
    (hd : g'.runtimeDeclared = g.runtimeDeclared) : g.Grows g' :=
  ⟨⟨[], by simp [hl], by simp, by simp [hu]⟩, hd⟩

/-- One line written that is not a prototype. -/
theorem push {x : Line} (hl : g'.lines = g.lines.push x) (hx : x.isHelper = false)
    (hu : g'.runtimeUsed = (g.runtimeUsed || x.callsRuntime)) (hd : g'.runtimeDeclared = g.runtimeDeclared) :
    g.Grows g' :=
  ⟨⟨[x], by simp [hl], by simpa using hx, by simpa using hu⟩, hd⟩

end Grows

/-- Lines written that are no prototype keep the shape. -/
theorem RuntimeShape.grows {g g' : Generator} (h : g.RuntimeShape) (hg : g.Grows g') : g'.RuntimeShape := by
  obtain ⟨⟨new, hl, hh, hu⟩, hd⟩ := hg
  refine ⟨by rw [hu, hl, List.any_append, h.used], fun hf => ?_, fun ht => ?_⟩
  · intro l hl'
    rw [hl] at hl'
    rcases List.mem_append.mp hl' with hl' | hl'
    · exact h.undeclared (hd ▸ hf) l hl'
    · exact hh l hl'
  · obtain ⟨pre, k, post, he, hpre, hno⟩ := h.declared (hd ▸ ht)
    refine ⟨pre, k, post ++ new, by rw [hl, he]; simp, hpre, fun l hl' => ?_⟩
    rcases List.mem_append.mp hl' with hl' | hl'
    · exact hno l (List.mem_append_left _ hl')
    · rcases List.mem_append.mp hl' with hl' | hl'
      · exact hno l (List.mem_append_right _ hl')
      · exact hh l hl'

/-- A change of bookkeeping keeps the shape. -/
theorem RuntimeShape.keep {g g' : Generator} (h : g.RuntimeShape) (hl : g'.lines = g.lines)
    (hu : g'.runtimeUsed = g.runtimeUsed) (hd : g'.runtimeDeclared = g.runtimeDeclared) : g'.RuntimeShape :=
  h.grows (.of_lines hl hu hd)

/-! ## The steps that write lines -/

variable (g : Generator)

/-- An item that is neither a prototype nor a call of the runtime is written as a line. -/
theorem grows_withItem {i : Item} (hh : i.isHelper = false) (hr : i.callsRuntime = false) : g.Grows (g.withItem i) :=
  .push rfl hh (by simp [withItem, Line.callsRuntime, hr]) rfl

/-- A blank line is written as a line. -/
theorem grows_withBlank : g.Grows g.withBlank := .push rfl rfl (by simp [withBlank, Line.callsRuntime]) rfl

/-- Taking labels grows the generator: no line is written or lost. -/
theorem grows_withLabels (n : Nat) : g.Grows (g.withLabels n) := .of_lines rfl rfl rfl

/-- A label, with or without its blank line, is written as lines. -/
theorem grows_withLabel (l : Label) : g.Grows (g.withLabel l) := by
  unfold withLabel
  split
  · have h₁ : g.Grows { g with lines := g.lines.push .blank } := .push rfl rfl (by simp [Line.callsRuntime]) rfl
    exact h₁.trans (.push rfl rfl (by simp [Line.callsRuntime, Item.callsRuntime]) rfl)
  · exact .push rfl rfl (by simp [Line.callsRuntime, Item.callsRuntime]) rfl

/-- A banner, with its blank line when annotating, is written as lines. -/
theorem grows_withBanner (c : Construct) : g.Grows (g.withBanner c) := by
  unfold withBanner
  split
  · have h₁ : g.Grows { g with lines := g.lines.push .blank } := .push rfl rfl (by simp [Line.callsRuntime]) rfl
    exact h₁.trans (.push rfl rfl (by simp [Line.callsRuntime, Item.callsRuntime]) rfl)
  · exact .refl g

/-- An instruction that does not call the runtime is written, at a fresh label if the block has ended. -/
theorem grows_withInstr {i : Instr} (hi : i.callsRuntime = false) : g.Grows (g.withInstr i) := by
  unfold withInstr
  split
  · exact ((grows_withLabels g 1).trans (grows_withLabel _ _)).trans (grows_withItem _ rfl hi)
  · exact grows_withItem g rfl hi

/-- An instruction calling the runtime, with the mark that the runtime is used. -/
theorem grows_withInstr_withRuntime {i : Instr} (hi : i.callsRuntime = true) : g.Grows (g.withInstr i).withRuntime := by
  have hw : g.Grows (if g.closed then (g.withLabels 1).withLabel ⟨g.labels⟩ else g) := by
    split
    · exact (grows_withLabels g 1).trans (grows_withLabel _ _)
    · exact .refl g
  exact hw.trans (.push rfl rfl (by simp [withRuntime, Line.callsRuntime, Item.callsRuntime, hi]) rfl)

/-- A terminator that does not call the runtime is written. -/
theorem grows_withTerminator {i : Instr} (hi : i.callsRuntime = false) : g.Grows (g.withTerminator i) :=
  (grows_withInstr g hi).trans (.of_lines rfl rfl rfl)

/-- A jump is written if the block is open. -/
theorem grows_withJump (l : Label) : g.Grows (g.withJump l) := by
  unfold withJump
  split
  · exact .refl g
  · exact grows_withTerminator g rfl

/-- Frees are written as lines, each a call of the runtime that marks it used. -/
theorem grows_withFrees (rs : List Reg) : g.Grows (g.withFrees rs) := by
  induction rs generalizing g with
  | nil => exact .refl g
  | cons r rs ih =>
    rw [withFrees, List.foldl_cons, ← withFrees]
    exact (grows_withInstr_withRuntime g rfl).trans (ih _)

/-- Closing a string scope writes its frees. -/
theorem grows_withoutScope : g.Grows g.withoutScope := by
  unfold withoutScope
  split
  · have h₁ : g.Grows { g with marks := g.marks.tail, owned := g.owned.take (g.marks.headD 0) } := .of_lines rfl rfl rfl
    split
    · exact h₁
    · exact h₁.trans (grows_withFrees _ _)
  · exact .of_lines rfl rfl rfl

/-- Items that are neither prototypes nor calls of the runtime are written as lines. -/
theorem grows_withItems {is : List Item} (hi : ∀ i ∈ is, i.isHelper = false ∧ i.callsRuntime = false) :
    g.Grows (g.withItems is) := by
  induction is generalizing g with
  | nil => exact .refl g
  | cons i is ih =>
    exact (grows_withItem g (hi i List.mem_cons_self).1 (hi i List.mem_cons_self).2).trans
      (ih _ fun j hj => hi j (List.mem_cons_of_mem _ hj))

/-- The queued constants are written as lines. -/
theorem grows_withConstantsWritten : g.Grows g.withConstantsWritten := by
  have h₁ : g.Grows { g with pending := #[] } := .of_lines rfl rfl rfl
  refine h₁.trans (grows_withItems _ fun i hi => ?_)
  obtain ⟨⟨r, bytes⟩, -, rfl⟩ := List.mem_map.mp hi
  exact ⟨rfl, rfl⟩

/-- A string literal's line is written. -/
theorem grows_withLiteral (id : NodeId) (bytes : List UInt8) : g.Grows (g.withLiteral id bytes) :=
  (((Grows.of_lines rfl rfl rfl : g.Grows (g.withFresh "str")).trans (grows_withInstr _ rfl)).trans
    (.of_lines rfl rfl rfl))

/-- The spills are written as lines. -/
theorem grows_withSpills (ps : List Symbol) : g.Grows (ps.foldl withSpill g) := by
  induction ps generalizing g with
  | nil => exact .refl g
  | cons s ps ih => exact ((grows_withInstr g rfl).trans (grows_withInstr _ rfl)).trans (ih _)

/-- The epilogue, when the block is open, writes its frees and its return as lines. -/
theorem grows_withEpilogue (r : Ty) : g.Grows (g.withEpilogue r) := by
  unfold withEpilogue
  split
  · exact .refl g
  · exact ((Grows.of_lines rfl rfl rfl : g.Grows { g with owned := [] }).trans (grows_withFrees _ g.owned)).trans
      (grows_withTerminator _ rfl)

/-- Items are written one per line, at the current nesting level. -/
theorem withItems_lines (is : List Item) :
    (g.withItems is).lines.toList = g.lines.toList ++ is.map (.item g.depth ·) := by
  induction is generalizing g with
  | nil => simp [withItems]
  | cons i is ih =>
    show (List.foldl withItem (g.withItem i) is).lines.toList = _
    rw [← withItems, ih]
    simp [withItem]

/-- Writing items does not mark the runtime used. -/
theorem withItems_runtimeUsed (is : List Item) : (g.withItems is).runtimeUsed = g.runtimeUsed := by
  induction is generalizing g with
  | nil => rfl
  | cons i is ih => exact ih (g.withItem i)

/-- Writing the prototypes when the runtime is used and they are owed puts them, as one block, after the lines
written so far. -/
theorem RuntimeShape.withRuntimeWritten {g : Generator} (h : g.RuntimeShape) : g.withRuntimeWritten.RuntimeShape := by
  unfold Generator.withRuntimeWritten
  split
  · rename_i hc
    simp only [Bool.and_eq_true, Bool.not_eq_eq_eq_not, Bool.not_true] at hc
    have hl : ({ (g.withItems (Helper.all.map .helper)).withBlank with runtimeDeclared := true } : Generator).lines.toList =
        g.lines.toList ++ helperBlock g.depth ++ [.blank] := by
      simp [withBlank, withItems_lines, helperBlock]
    refine ⟨?_, fun hf => absurd hf (by simp), fun _ => ⟨g.lines.toList, g.depth, [.blank], hl, ?_, ?_⟩⟩
    · rw [hl, List.any_append, List.any_append, ← h.used]
      simp [withBlank, withItems_runtimeUsed, helperBlock, Helper.all, Line.callsRuntime, Item.callsRuntime]
    · rw [← h.used]
      exact hc.1
    · intro l hl'
      rcases List.mem_append.mp hl' with hl' | hl'
      · exact h.undeclared hc.2 l hl'
      · rw [List.mem_singleton.mp hl']
        rfl
  · exact h

/-! ## Lowering keeps the shape -/

theorem grows_bodyStart {p : Program} (f : FunctionId) (g : Generator) : g.Grows (p.bodyStart f g) := by
  have h₀ : g.Grows { ((g.withItem (p.headerOf f)).withItem .entry) with
      depth := g.depth + 1, closed := false, owned := [], marks := [] } :=
    ((grows_withItem g rfl rfl).trans (grows_withItem _ rfl rfl)).trans (.of_lines rfl rfl rfl)
  exact (h₀.trans (grows_withSpills _ _)).trans (.of_lines rfl rfl rfl)

/-- A definition ends by writing its epilogue, the closing brace, the constants and a blank line, none of them a
prototype, and then the prototypes owed. -/
theorem RuntimeShape.bodyEnd {p : Program} {g₁ : Generator} (h : g₁.RuntimeShape) (f : FunctionId) (g : Generator) :
    (p.bodyEnd f g g₁).RuntimeShape := by
  let E := g₁.withEpilogue (p.symbols.signature f).result
  have hE : g₁.Grows { E with spilled := g.spilled, depth := E.depth - 1, closed := false } :=
    (grows_withEpilogue g₁ _).trans (.of_lines rfl rfl rfl)
  exact (h.grows (((hE.trans (grows_withItem _ rfl rfl)).trans (grows_withConstantsWritten _)).trans
    (grows_withBlank _))).withRuntimeWritten

/-- Every move keeps the shape: only an instruction calling the runtime writes a line that calls it, and it marks the
runtime used; only the end of a definition writes prototypes, those owed. -/
theorem RuntimeShape.move {p : Program} {g g' : Generator} (hm : p.Move g g') (h : g.RuntimeShape) : g'.RuntimeShape := by
  cases hm with
  | declare i hi =>
    exact h.grows (grows_withItem g (by cases i <;> simp_all [Item.isDeclaration, Item.isHelper])
      (by cases i <;> simp_all [Item.isDeclaration, Item.callsRuntime]))
  | label l => exact h.grows (grows_withLabel g l)
  | banner c => exact h.grows (grows_withBanner g c)
  | literal id raw t _ _ => exact h.grows (grows_withLiteral g id _)
  | instr i _ hr => exact h.grows (grows_withInstr g hr)
  | call i hr => exact h.grows (grows_withInstr_withRuntime g hr)
  | terminate i _ hr => exact h.grows (grows_withTerminator g hr)
  | frees rs => exact h.grows (grows_withFrees g rs)
  | closeScope => exact h.grows (grows_withoutScope g)
  | start f => exact h.grows (grows_bodyStart f g)
  | finish n f b _ => exact h.bodyEnd f _
  | newLabel | fresh _ | value _ _ _ | own _ | openScope | dropInner => exact h.keep rfl rfl rfl

end Generator

namespace Program

variable {p : Program}

/-- Lowering any node keeps the shape, whether it succeeds or fails. -/
theorem shape_emit (id : NodeId) : Keeps RuntimeShape (p.emit id) :=
  (walk_keeps_of_moves (fun _ _ hm h => h.move hm) _).emit id

/-- A session keeps the shape: an emit keeps it whether it succeeds or fails, and the other steps leave the generator
as it is. -/
theorem shape_afterSteps {g : Generator} (hg : g.RuntimeShape) (steps : List SessionStep) :
    (g.afterSteps p steps).RuntimeShape :=
  keeps_afterSteps shape_emit hg steps

/-- An empty generator has the shape: no line, and the runtime neither used nor declared. -/
theorem shape_new (layout : Layout) : (Generator.new layout).RuntimeShape :=
  ⟨rfl, fun _ l hl => by simp [Generator.new] at hl, fun h => by simp [Generator.new] at h⟩

/-- Once the prototypes owed are written, a runtime marked used has its prototypes marked written. -/
theorem Generator.declared_withRuntimeWritten (g : Generator) (h : g.withRuntimeWritten.runtimeUsed = true) :
    g.withRuntimeWritten.runtimeDeclared = true := by
  unfold Generator.withRuntimeWritten at h ⊢
  split
  · rfl
  · rename_i hc
    rw [if_neg hc] at h
    simpa [h] using hc

/-- The runtime's prototypes in the text a session finishes with, whatever nodes it emits and whether the emits
succeed or fail. The text is the rendering of a listing in which, if some line is an instruction calling the runtime,
the five prototypes stand once, as one block of consecutive lines after such a line, and no other line is a prototype;
if no line calls the runtime, no line is a prototype. -/
theorem session_runtime_block (layout : Layout) (steps : List SessionStep) :
    ∃ lines : List Line, ((Generator.new layout).afterSteps p steps).finish = render layout.indentation lines ∧
      (lines.any Line.callsRuntime = true → ∃ pre k post, lines = pre ++ helperBlock k ++ post ∧
        pre.any Line.callsRuntime = true ∧ ∀ l ∈ pre ++ post, l.isHelper = false) ∧
      (lines.any Line.callsRuntime = false → ∀ l ∈ lines, l.isHelper = false) := by
  let g := (Generator.new layout).afterSteps p steps
  have hL : p.StepsKeep fun g => g.layout = layout := stepsKeep_layout layout
  have hl : g.withConstantsWritten.withRuntimeWritten.layout = layout :=
    hL.withRuntimeWritten (hL.flush g (hL.afterSteps rfl steps))
  have hs : g.withConstantsWritten.withRuntimeWritten.RuntimeShape :=
    ((shape_afterSteps (shape_new layout) steps).grows (grows_withConstantsWritten g)).withRuntimeWritten
  refine ⟨_, by rw [Generator.finish_eq, hl], fun hu => hs.declared ?_, fun hu => hs.undeclared ?_⟩
  · exact Generator.declared_withRuntimeWritten _ (hs.used.trans hu)
  · -- written prototypes stand after a line calling the runtime, and there is none
    cases hd : g.withConstantsWritten.withRuntimeWritten.runtimeDeclared
    · rfl
    · obtain ⟨pre, k, post, he, hpre, -⟩ := hs.declared hd
      rw [he, List.any_append, List.any_append, hpre] at hu
      cases hu

/-- A unit whose only node calls a function of its own named `__string_free__`, which takes nothing and returns an
integer. -/
def namesakeUnit : Program where
  symbols := { functions := #[{ name := "__string_free__", result := .int, params := [] }] }
  ast := { nodes := #[.expr (.call 0 []) (some .int)], roots := #[0] }

/-- The unit above, emitted and finished, is rendered from a listing whose prototypes stand as the shape says. -/
theorem namesakeUnit_runtime_block :
    ∃ lines : List Line, ((Generator.new {}).afterSteps namesakeUnit [.emit 0]).finish =
        render ({} : Layout).indentation lines ∧
      (lines.any Line.callsRuntime = true → ∃ pre k post, lines = pre ++ helperBlock k ++ post ∧
        pre.any Line.callsRuntime = true ∧ ∀ l ∈ pre ++ post, l.isHelper = false) ∧
      (lines.any Line.callsRuntime = false → ∀ l ∈ lines, l.isHelper = false) :=
  session_runtime_block {} [.emit 0]

/-- The shape is one of the listing, not of the text: function names are not restricted, so emitting the unit above
writes a line that calls `@__string_free__`, yet no line calls the runtime and no prototype is written. -/
theorem namesake_calls_without_prototypes :
    ((Generator.new {}).afterSteps namesakeUnit [.emit 0]).finish = "%tmp.1 = call i32 @__string_free__()\n" := by
  have hn : namesakeUnit.ast.get? 0 = some (.expr (.call 0 []) (some .int)) := rfl
  have hs : namesakeUnit.symbols.signature 0 = { name := "__string_free__", result := .int, params := [] } := rfl
  have hc : (Generator.new {}).values.contains 0 = false := by simp [Generator.new]
  have hnext : (Generator.new {}).nextReg "tmp" = ⟨"tmp", 1⟩ := by simp [nextReg, nextIndex, Generator.new]
  -- the emit, run step by step: the register is the first of its base, found without hashing its name
  have hrun : (namesakeUnit.emit 0).run.run (Generator.new {}) =
      (.ok (), ((((Generator.new {}).withFresh "tmp").withInstr
        (.call ((Generator.new {}).nextReg "tmp") .int "__string_free__" [])).withValue 0
        (.reg ((Generator.new {}).nextReg "tmp")))) := by
    simp only [Program.emit, walk, step, emitNode, hn, Runs.run_bind, Runs.run_get, hc, Program.lowerForm, hs,
      Runs.discard_eq, List.zip_nil_left, Program.arguments.eq_1, temp, run_fresh, run_instr, run_remember,
      List.length_nil, ne_eq, not_true_eq_false, ↓reduceIte, reduceCtorEq, Bool.false_eq_true]
    rfl
  simp only [Generator.afterSteps, List.foldl_cons, List.foldl_nil, Generator.apply, Generator.emitIn, hrun, hnext]
  decide +kernel

end Program

end Lowering
