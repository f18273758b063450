import Lowering.Proofs.Rules

/-!
# The listing read as code

A unit's text is the rendering of its lines. Read as code, a listing drops its blank lines and its banners and keeps
each item without its nesting level. This module gives that reading its vocabulary: the labels code places and the
labels its branches target, the body of each function (what stands between its entry label and its closing brace),
and when a body splits at its labels into basic blocks.

The block discipline of a generator depends on three things only: the code written so far, whether the current
block has ended, and how many labels have been made. `Generator.mark` is that view, and each step that cannot fail
has an equation for it, so that proofs about blocks never look at lines, levels or annotations.
-/

namespace Lowering

namespace Ir

/-- Whether an instruction ends its block: a jump, a branch or a return. -/
def Instr.terminates : Instr → Bool
  | .jump _ | .branch .. | .ret .. => true
  | _ => false

/-- The labels an instruction continues at. -/
def Instr.targets : Instr → List Label
  | .jump l => [l]
  | .branch _ t f => [t, f]
  | _ => []

/-- Whether an item starts a block: a label, or a function's entry. -/
def Item.startsBlock : Item → Bool
  | .label _ | .entry => true
  | _ => false

/-- An item read as code: a banner is a comment, and no code. -/
def Item.code : Item → List Item
  | .banner _ => []
  | i => [i]

/-- A line read as code: its item, unless the line is blank. -/
def Line.code : Line → List Item
  | .item _ i => i.code
  | .blank => []

/-- The label an item places, if it is a label. -/
def Item.placed : Item → List Label
  | .label l => [l]
  | _ => []

/-- The labels an item may continue at. -/
def Item.targets : Item → List Label
  | .instr i => i.targets
  | _ => []

end Ir

open Ir

/-- The labels that code places, in order. -/
def placed (code : List Item) : List Label := code.flatMap Item.placed

/-- The labels that the branches of code target, in order. -/
def targets (code : List Item) : List Label := code.flatMap Item.targets

/-- No code places no label. -/
@[simp] theorem placed_nil : placed [] = [] := rfl

/-- Code placed one piece after another places the labels of each. -/
@[simp] theorem placed_append (a b : List Item) : placed (a ++ b) = placed a ++ placed b := List.flatMap_append

/-- An item followed by code places the item's label, if any, then the labels of the code. -/
@[simp] theorem placed_cons (i : Item) (a : List Item) : placed (i :: a) = i.placed ++ placed a := List.flatMap_cons

/-- No code targets no label. -/
@[simp] theorem targets_nil : targets [] = [] := rfl

/-- Code one piece after another targets the labels of each. -/
@[simp] theorem targets_append (a b : List Item) : targets (a ++ b) = targets a ++ targets b := List.flatMap_append

/-- An item followed by code targets the item's targets, then those of the code. -/
@[simp] theorem targets_cons (i : Item) (a : List Item) : targets (i :: a) = i.targets ++ targets a :=
  List.flatMap_cons

/-! ## Basic blocks -/

/-- Reads code block by block, from whether the current block has ended: a label may only start a block after a
terminator, an instruction may only go into a block that has not ended, and a terminator ends it. The result says
whether the last block has ended; it is none where the code breaks this discipline or holds an item that is neither a
label nor an instruction. -/
def blockRun : Bool → List Item → Option Bool
  | c, [] => some c
  | c, .label _ :: rest => if c then blockRun false rest else none
  | c, .instr i :: rest => if c then none else blockRun i.terminates rest
  | _, _ :: _ => none

/-- Code read one piece after another is read from where the first piece leaves the block. -/
theorem blockRun_append (c : Bool) (a b : List Item) : blockRun c (a ++ b) = (blockRun c a).bind (blockRun · b) := by
  induction a generalizing c with
  | nil => rfl
  | cons i a ih =>
    cases i <;> simp only [List.cons_append, blockRun, Option.bind_none] <;> split <;> simp [ih]

/-- Instructions that make a basic block: at least one, the last a terminator and no other. -/
def Terminated (is : List Instr) : Prop :=
  ∃ body t, is = body ++ [t] ∧ t.terminates = true ∧ ∀ i ∈ body, i.terminates = false

/-- Code that splits at its labels into basic blocks: each label, or the entry, is followed by the instructions of
one block, up to the next label. -/
inductive BasicBlocks : List Item → Prop
  | nil : BasicBlocks []
  | block {head : Item} {is : List Instr} {rest : List Item} :
      head.startsBlock = true → Terminated is → BasicBlocks rest → BasicBlocks (head :: is.map .instr ++ rest)

namespace ListingAux

/-- Code read from an open block up to an ended one: the instructions of the block, then code read from the end of
a block. -/
theorem blockRun_open {xs : List Item} (h : blockRun false xs = some true) :
    ∃ is rest, xs = is.map .instr ++ rest ∧ Terminated is ∧ blockRun true rest = some true := by
  induction xs with
  | nil => simp [blockRun] at h
  | cons x xs ih =>
    cases x with
    | instr i =>
      simp only [blockRun, Bool.false_eq_true, if_false] at h
      cases ht : i.terminates with
      | true => exact ⟨[i], xs, rfl, ⟨[], i, rfl, ht, by simp⟩, ht ▸ h⟩
      | false =>
        obtain ⟨is, rest, rfl, ⟨body, t, rfl, htt, hb⟩, hr⟩ := ih (ht ▸ h)
        refine ⟨i :: (body ++ [t]), rest, rfl, ⟨i :: body, t, rfl, htt, ?_⟩, hr⟩
        simpa [ht] using hb
    | label l => simp [blockRun] at h
    | _ => simp [blockRun] at h

end ListingAux

open ListingAux in
/-- Code read from the end of a block up to an ended block splits into basic blocks. -/
theorem basicBlocks_of_blockRun {xs : List Item} (h : blockRun true xs = some true) : BasicBlocks xs := by
  induction hn : xs.length using Nat.strongRecOn generalizing xs with
  | ind n ih =>
    cases xs with
    | nil => exact .nil
    | cons x xs =>
      cases x with
      | label l =>
        obtain ⟨is, rest, rfl, ht, hr⟩ := blockRun_open (by simpa [blockRun] using h)
        have hlt : rest.length < n := by simp at hn; omega
        exact .block rfl ht (ih _ hlt hr rfl)
      | instr i => simp [blockRun] at h
      | _ => simp [blockRun] at h

open ListingAux in
/-- A function body read from its entry up to an ended block splits, with its entry, into basic blocks. -/
theorem basicBlocks_entry {body : List Item} (h : blockRun false body = some true) : BasicBlocks (.entry :: body) := by
  obtain ⟨is, rest, rfl, ht, hr⟩ := blockRun_open h
  exact .block rfl ht (basicBlocks_of_blockRun hr)

/-! ## Function bodies -/

/-- The body of each function in code: what stands between an entry label and the next closing brace. -/
def bodies : List Item → List (List Item)
  | [] => []
  | .entry :: rest => rest.takeWhile (· != .close) :: bodies (rest.dropWhile (· != .close))
  | _ :: rest => bodies rest
termination_by xs => xs.length
decreasing_by
  all_goals simp only [List.length_cons]
  · have : (rest.dropWhile (· != Item.close)).length ≤ rest.length := (List.dropWhile_suffix _).length_le
    omega
  · omega

/-- No code holds no function body. -/
@[simp] theorem bodies_nil : bodies [] = [] := by rw [bodies]

/-- At an entry label, a body runs up to the next closing brace, and the bodies after it follow. -/
theorem bodies_entry (rest : List Item) :
    bodies (.entry :: rest) = rest.takeWhile (· != .close) :: bodies (rest.dropWhile (· != .close)) := by
  rw [bodies]

/-- An item other than an entry label starts no body. -/
theorem bodies_cons {i : Item} (h : i ≠ .entry) (rest : List Item) : bodies (i :: rest) = bodies rest := by
  rw [bodies]
  exact h

/-- A function body standing before its closing brace, then more code. -/
theorem bodies_function {body : List Item} (h : .close ∉ body) (rest : List Item) :
    bodies (.entry :: body ++ .close :: rest) = body :: bodies (.close :: rest) := by
  have hb : ∀ i ∈ body, (i != .close) = true := fun i hi => bne_iff_ne.mpr fun e => h (e ▸ hi)
  rw [List.cons_append, bodies_entry, List.takeWhile_append_of_pos hb, List.dropWhile_append_of_pos hb]
  simp

/-! ## What a generator has written -/

/-- What a generator has written, read as code, with whether its current block has ended and how many labels it
has made, which is everything the block discipline depends on, and the layout the code is printed in. -/
structure Mark where
  code : List Item
  closed : Bool
  labels : Nat
  layout : Layout

namespace Mark

/-- An item written as it is. -/
def write (a : Mark) (i : Item) : Mark := { a with code := a.code ++ i.code }

/-- A block started at a label. -/
def label (a : Mark) (l : Label) : Mark := { a with code := a.code ++ [.label l], closed := false }

/-- The next `n` labels taken. -/
def alloc (a : Mark) (n : Nat) : Mark := { a with labels := a.labels + n }

/-- An instruction written into the current block, or into a fresh block at the next label after a terminator. -/
def instr (a : Mark) (i : Instr) : Mark :=
  if a.closed then { a with code := a.code ++ [.label ⟨a.labels⟩, .instr i], closed := false, labels := a.labels + 1 }
  else { a with code := a.code ++ [.instr i], closed := false }

/-- A terminator written: the block has ended. -/
def terminate (a : Mark) (i : Instr) : Mark := { a.instr i with closed := true }

variable (a : Mark)

/-- Writing an item adds its code. -/
@[simp] theorem write_code (i : Item) : (a.write i).code = a.code ++ i.code := rfl

/-- Writing an item leaves the block open or closed. -/
@[simp] theorem write_closed (i : Item) : (a.write i).closed = a.closed := rfl

/-- Writing an item takes no label. -/
@[simp] theorem write_labels (i : Item) : (a.write i).labels = a.labels := rfl

/-- A label adds itself. -/
@[simp] theorem label_code (l : Label) : (a.label l).code = a.code ++ [.label l] := rfl

/-- A label in a listing opens a block. -/
@[simp] theorem label_closed (l : Label) : (a.label l).closed = false := rfl

/-- Placing a label takes none. -/
@[simp] theorem label_labels (l : Label) : (a.label l).labels = a.labels := rfl

/-- Taking labels writes nothing into the listing. -/
@[simp] theorem alloc_code (n : Nat) : (a.alloc n).code = a.code := rfl

/-- Taking labels leaves the listing's block open or closed. -/
@[simp] theorem alloc_closed (n : Nat) : (a.alloc n).closed = a.closed := rfl

/-- Taking labels from a listing counts them. -/
@[simp] theorem alloc_labels (n : Nat) : (a.alloc n).labels = a.labels + n := rfl

/-- A terminator ends the listing's block. -/
@[simp] theorem terminate_closed (i : Instr) : (a.terminate i).closed = true := rfl

/-- Writing an item keeps the layout. -/
@[simp] theorem write_layout (i : Item) : (a.write i).layout = a.layout := rfl

/-- A label keeps the layout. -/
@[simp] theorem label_layout (l : Label) : (a.label l).layout = a.layout := rfl

/-- Taking labels keeps the layout. -/
@[simp] theorem alloc_layout (n : Nat) : (a.alloc n).layout = a.layout := rfl

/-- An instruction keeps the listing's layout. -/
@[simp] theorem instr_layout (i : Instr) : (a.instr i).layout = a.layout := by
  unfold instr
  split <;> rfl

/-- A terminator keeps the layout. -/
@[simp] theorem terminate_layout (i : Instr) : (a.terminate i).layout = a.layout := instr_layout a i

end Mark

namespace Generator

open Ir

/-- The generator's code, block state and label count. -/
def mark (g : Generator) : Mark := ⟨g.lines.toList.flatMap Line.code, g.closed, g.labels, g.layout⟩

variable (g : Generator)

/-- The mark knows whether the block has ended. -/
@[simp] theorem mark_closed : g.mark.closed = g.closed := rfl

/-- The mark counts the labels made. -/
@[simp] theorem mark_labels : g.mark.labels = g.labels := rfl

/-- The mark keeps the layout. -/
@[simp] theorem mark_layout : g.mark.layout = g.layout := rfl

/-- An item is written to the mark as it is. -/
@[simp] theorem mark_withItem (i : Item) : (g.withItem i).mark = g.mark.write i := by
  simp [mark, withItem, Mark.write, Line.code]

/-- A blank line is not code. -/
@[simp] theorem mark_withBlank : g.withBlank.mark = g.mark := by
  simp [mark, withBlank, Line.code]

/-- A label, with or without its blank line, starts a block in the mark. -/
@[simp] theorem mark_withLabel (l : Label) : (g.withLabel l).mark = g.mark.label l := by
  unfold withLabel
  split <;> simp [mark, Mark.label, Line.code, Item.code]

/-- A banner is not code. -/
@[simp] theorem mark_withBanner (c : Construct) : (g.withBanner c).mark = g.mark := by
  unfold withBanner
  split <;> simp [mark, Line.code, Item.code]

/-- Taking labels counts them in the mark. -/
@[simp] theorem mark_withLabels (n : Nat) : (g.withLabels n).mark = g.mark.alloc n := rfl

/-- An instruction is written to the mark, at a fresh label if the block has ended. -/
@[simp] theorem mark_withInstr (i : Instr) : (g.withInstr i).mark = g.mark.instr i := by
  unfold withInstr Mark.instr
  cases hc : g.closed <;> simp [hc, Mark.write, Mark.label, Mark.alloc, Item.code]

/-- A terminator is written to the mark and ends the block. -/
@[simp] theorem mark_withTerminator (i : Instr) : (g.withTerminator i).mark = g.mark.terminate i := by
  simp only [withTerminator, Mark.terminate, ← mark_withInstr]
  rfl

/-- A jump is written to the mark only if the block has not ended. -/
theorem mark_withJump (l : Label) : (g.withJump l).mark = if g.closed then g.mark else g.mark.terminate (.jump l) := by
  unfold withJump
  split <;> simp

/-- Taking a register leaves the mark alone. -/
@[simp] theorem mark_withFresh (b : String) : (g.withFresh b).mark = g.mark := rfl

/-- Recording an operand leaves the mark alone. -/
@[simp] theorem mark_withValue (id : NodeId) (v : Value) : (g.withValue id v).mark = g.mark := rfl

/-- Owning a string leaves the mark alone. -/
@[simp] theorem mark_withOwned (r : Reg) : (g.withOwned r).mark = g.mark := rfl

/-- Marking the runtime used leaves the mark alone. -/
@[simp] theorem mark_withRuntime : g.withRuntime.mark = g.mark := rfl

/-- Queueing a constant leaves the mark alone. -/
@[simp] theorem mark_withConstant (r : Reg) (bytes : List UInt8) : (g.withConstant r bytes).mark = g.mark := rfl

/-- Opening a string scope leaves the mark alone. -/
@[simp] theorem mark_withScope : g.withScope.mark = g.mark := rfl

/-- Dropping the innermost scope leaves the mark alone. -/
@[simp] theorem mark_withoutInner : g.withoutInner.mark = g.mark := rfl

/-- Freeing strings writes one instruction each. -/
theorem mark_withFrees (rs : List Reg) : (g.withFrees rs).mark = rs.foldl (fun a r => a.instr (.free (.reg r))) g.mark := by
  induction rs generalizing g with
  | nil => rfl
  | cons r rs ih =>
    simp only [withFrees, List.foldl_cons] at ih ⊢
    rw [ih]
    congr 1
    exact mark_withInstr g _

end Generator

end Lowering
