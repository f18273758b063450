import Lowering.Proofs.Agreement

/-!
# Where a generator stands in a function body

The code of a function body is written piece by piece, and a generator's mark says how much has been written. While a
body is lowered, each mark lies between the code written before the body and the end of the body (`Site.Holds`), and
what follows the mark in the body (`Site.rest`) is the code a run of the body continues with from there. The body places
each of its labels once, so a jump to a label continues at the mark where the label was placed (`Site.after_label`).

`Site.Flows` says that a run of the body goes from one mark to another, and from one frame to another. Each step that
writes code gives one: a label is passed, an instruction that does not end its block runs, and a terminator continues
at its target.
-/

namespace Lowering

open Ir Generator

namespace Mark

/-- The items written after a mark to start an instruction: after a terminator, the label of a fresh block. -/
def opening (a : Mark) : List Item := if a.closed then [.label ⟨a.labels⟩] else []

/-- An instruction is written after the label of a fresh block, if the block has ended. -/
theorem instr_code (a : Mark) (i : Instr) : (a.instr i).code = a.code ++ a.opening ++ [.instr i] := by
  unfold instr opening
  split <;> simp

/-- After an instruction the block is open, until a terminator ends it. -/
@[simp] theorem instr_closed (a : Mark) (i : Instr) : (a.instr i).closed = false := by
  unfold instr
  split <;> rfl

/-- A terminator is written as an instruction. -/
@[simp] theorem terminate_code (a : Mark) (i : Instr) : (a.terminate i).code = (a.instr i).code := rfl

/-- Mark `a` has written no more than mark `b`, and nothing else. -/
def Before (a b : Mark) : Prop := a.code <+: b.code

/-- Marks before marks are before. -/
instance : Trans Before Before Before := ⟨List.IsPrefix.trans⟩

/-- A label only adds to the code. -/
theorem before_label (a : Mark) (l : Label) : a.Before (a.label l) := ⟨[.label l], rfl⟩

/-- An instruction only adds to the code. -/
theorem before_instr (a : Mark) (i : Instr) : a.Before (a.instr i) :=
  ⟨a.opening ++ [.instr i], by rw [instr_code, List.append_assoc]⟩

/-- A terminator only adds to the code. -/
theorem before_terminate (a : Mark) (i : Instr) : a.Before (a.terminate i) := before_instr a i

end Mark

namespace Ir

/-- The opening of a block is passed. -/
theorem Steps.opening {body : List Item} {init : String → Int32} (a : Mark) (code : List Item) (fr : Frame) :
    Steps body init (a.opening ++ code) fr code fr := by
  unfold Mark.opening
  split
  · exact Steps.label _ _ _
  · exact .refl _ _

/-- A function body being lowered: the code written before it, and the body, which places each label once. -/
structure Site where
  pre : List Item
  body : List Item
  nodup : (placed body).Nodup

namespace Site

variable (S : Site) (init : String → Int32)

/-- A mark lies in the body: it has written what stands before the body, and no more than the body. -/
def Holds (a : Mark) : Prop := S.pre <+: a.code ∧ a.code <+: S.pre ++ S.body

/-- What follows a mark in the body. -/
def rest (a : Mark) : List Item := (S.pre ++ S.body).drop a.code.length

/-- A run of the body goes from mark `a` with frame `fr` to mark `b` with frame `fr'`. -/
def Flows (a b : Mark) (fr fr' : Frame) : Prop := Steps S.body init (S.rest a) fr (S.rest b) fr'

variable {S init} {a b c : Mark} {fr fr₁ fr₂ : Frame}

/-- Between two marks of the body lies what the first wrote before the second. -/
theorem rest_eq (hb : S.Holds b) {s : List Item} (h : b.code = a.code ++ s) : S.rest a = s ++ S.rest b := by
  obtain ⟨t, ht⟩ := hb.2
  have hb' : S.rest b = t := by simp [rest, ← ht]
  have ha' : S.rest a = s ++ t := by rw [rest, ← ht, h, List.append_assoc, List.drop_left]
  rw [ha', hb']

/-- A mark between two marks of the body lies in the body. -/
theorem Holds.between (ha : S.Holds a) (hc : S.Holds c) (h₁ : a.code <+: b.code) (h₂ : b.code <+: c.code) :
    S.Holds b :=
  ⟨ha.1.trans h₁, h₂.trans hc.2⟩

/-- The body is what a mark of it has written of it, then what follows the mark. -/
theorem body_eq (ha : S.Holds a) : ∃ u, a.code = S.pre ++ u ∧ S.body = u ++ S.rest a := by
  obtain ⟨u, hu⟩ := ha.1
  obtain ⟨t, ht⟩ := ha.2
  refine ⟨u, hu.symm, ?_⟩
  have e : S.rest a = t := by simp [rest, ← ht]
  rw [e]
  rw [← hu, List.append_assoc] at ht
  exact (List.append_cancel_left ht).symm

/-- A jump to a label placed at a mark of the body continues there. -/
theorem after_label {l : Label} (ha : S.Holds a) (hl : S.Holds (a.label l)) : after l S.body = some (S.rest (a.label l)) := by
  obtain ⟨u, -, hu⟩ := body_eq ha
  have e := rest_eq hl (Mark.label_code a l)
  rw [e] at hu
  rw [hu]
  apply after_of_not_mem
  intro hm
  have hn := S.nodup
  rw [hu] at hn
  simp only [placed_append, placed_cons, Item.placed, List.singleton_append, List.nodup_append, List.nodup_cons] at hn
  exact hn.2.2 l hm l (by simp) rfl

/-- The marks of a chain, each written after the one before, lie in the body when the first and the last do. -/
theorem holds_chain (ms : List Mark) (h : List.IsChain Mark.Before (a :: (ms ++ [b])))
    (ha : S.Holds a) (hb : S.Holds b) : ∀ m ∈ ms, S.Holds m := by
  have hp := h.pairwise
  rw [List.pairwise_cons, List.pairwise_append] at hp
  intro m hm
  exact ⟨ha.1.trans (hp.1 m (by simp [hm])), (hp.2.2.2 m hm b (by simp)).trans hb.2⟩

/-- A mark further on in the body leaves less of the body to run. -/
theorem rest_length_lt (hb : S.Holds b) (h : a.code.length < b.code.length) :
    (S.rest b).length < (S.rest a).length := by
  have hl := hb.2.length_le
  simp only [rest, List.length_drop]
  omega

/-- A run from a mark to one further on takes steps: what returns from the first returns from the second within
fewer steps. -/
theorem run_lt {n : Nat} {r : Int32 × (String → Int32)} (hb : S.Holds b) (h : a.code.length < b.code.length)
    (hf : S.Flows init a b fr fr₁) (hr : run S.body init n (S.rest a) fr = some r) :
    ∃ m < n, run S.body init m (S.rest b) fr₁ = some r :=
  run_lt_of_steps hf (fun e => (rest_length_lt hb h).ne (congrArg List.length e).symm) hr

/-- Code flows from a mark to itself. -/
theorem Flows.refl (a : Mark) (fr : Frame) : S.Flows init a a fr fr := Steps.refl _ _

/-- Code that flows to a mark and on from there flows all the way. -/
theorem Flows.trans (h₁ : S.Flows init a b fr fr₁) (h₂ : S.Flows init b c fr₁ fr₂) : S.Flows init a c fr fr₂ :=
  Steps.trans h₁ h₂

/-- Flow passes a label without changing the frame. -/
theorem flows_label {l : Label} (hl : S.Holds (a.label l)) : S.Flows init a (a.label l) fr fr := by
  unfold Flows
  rw [rest_eq hl (Mark.label_code a l)]
  exact Steps.label _ _ _

/-- What follows a mark before an instruction written after it: the opening of a block, then the instruction. -/
theorem rest_instr {i : Instr} (hi : S.Holds (a.instr i)) : S.rest a = a.opening ++ .instr i :: S.rest (a.instr i) := by
  rw [rest_eq hi (by rw [Mark.instr_code, List.append_assoc])]
  simp

/-- An instruction that continues with the next item runs. -/
theorem flows_instr {i : Instr} (hi : S.Holds (a.instr i))
    (hs : ∀ code, step S.body init (.instr i :: code) fr = some (.go code fr')) : S.Flows init a (a.instr i) fr fr' := by
  unfold Flows
  rw [rest_instr hi]
  exact (Steps.opening a _ fr).trans (Steps.single (hs _))

/-- An instruction written after a mark is reached from it. -/
theorem steps_instr {i : Instr} (hi : S.Holds (a.instr i)) :
    Steps S.body init (S.rest a) fr (.instr i :: S.rest (a.instr i)) fr := by
  rw [rest_instr hi]
  exact Steps.opening a _ fr

/-- A jump, or a branch, to a label placed at a mark continues at that mark. -/
theorem flows_goto {i : Instr} {l : Label} (hi : S.Holds (a.instr i)) (hc : S.Holds c) (hl : S.Holds (c.label l))
    (hs : ∀ code, step S.body init (.instr i :: code) fr = (after l S.body).map (.go · fr)) :
    S.Flows init a (c.label l) fr fr :=
  (steps_instr hi).trans (Steps.single (by rw [hs, after_label hc hl]; rfl))

/-- An instruction that cannot run stops the run. -/
theorem fails_instr {i : Instr} (hi : S.Holds (a.instr i)) (hs : ∀ code, step S.body init (.instr i :: code) fr = none) :
    Fails S.body init (S.rest a) fr :=
  Fails.of_steps (steps_instr hi) (fails_of_step (hs _))

end Site

end Ir

end Lowering
