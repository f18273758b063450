import Lowering.Proofs.Paths
import Lowering.Proofs.TypedCode
import Lowering.Proofs.Blocks

/-!
# Runs that keep string ownership

A generator owns a list of string registers, each made once, and a stack of marks, one per open string scope: the
number of strings owned when the scope opened. `Generator.Owning` is what lowering keeps of that bookkeeping.

`Program.Owned` says what a run appends, started from a generator with the invariant. It keeps the invariant, and every
entry label it writes begins a function of the unit whose paths keep the rules of string ownership. Inside a function
body it also keeps the scopes and the strings owned when the innermost one opened, and its code flows: given any
assignment of owned strings to labels that agrees with the labels it placed, each with the strings owned there, and
with the exits it jumps to, the code flows from the state the generator was at to the state it ends at. Runs compose,
and each step of the generator that cannot fail is such a run.
-/

namespace Lowering

open Ir Generator

/-! ## Freeing -/

namespace OwnedAux

/-- Erasing, one by one, the strings after a prefix of a list without repeats leaves the prefix. -/
theorem foldl_erase_suffix {A B : List Reg} (h : (A ++ B).Nodup) : B.foldl List.erase (A ++ B) = A := by
  induction B generalizing A with
  | nil => simp
  | cons x B ih =>
    have hx : x ∉ A := fun hx => (List.nodup_append.mp h).2.2 x hx x List.mem_cons_self rfl
    rw [List.foldl_cons, List.erase_append_right _ hx, List.erase_cons_head]
    exact ih ((List.nodup_append.mpr ⟨(List.nodup_append.mp h).1, ((List.nodup_append.mp h).2.1).of_cons,
      fun a ha b hb => (List.nodup_append.mp h).2.2 a ha b (List.mem_cons_of_mem x hb)⟩))

/-- Erasing, one by one, the strings of a prefix of a list without repeats leaves the rest. -/
theorem foldl_erase_prefix {A B : List Reg} (h : (A ++ B).Nodup) : A.foldl List.erase (A ++ B) = B := by
  induction A with
  | nil => simp
  | cons x A ih =>
    rw [List.foldl_cons, List.cons_append, List.erase_cons_head]
    exact ih (List.nodup_cons.mp h).2

/-- Erasing, one by one, all strings but one of a list without repeats leaves that one. -/
theorem foldl_erase_skip {B C : List Reg} {x : Reg} (h : (B ++ x :: C).Nodup) :
    (B ++ C).foldl List.erase (B ++ x :: C) = [x] := by
  rw [List.foldl_append, foldl_erase_prefix h]
  exact foldl_erase_suffix (A := [x]) (List.nodup_append.mp h).2.1

/-- Erasing, one by one, the strings of a list without repeats leaves nothing. -/
theorem foldl_erase_self {A : List Reg} (h : A.Nodup) : A.foldl List.erase A = [] := by
  simpa using foldl_erase_prefix (B := []) (by simpa using h)

/-- Erasing, one by one, all strings of a list without repeats but the one at an index leaves that one. -/
theorem foldl_erase_eraseIdx {A : List Reg} (h : A.Nodup) {i : Nat} (hi : i < A.length) :
    (A.eraseIdx i).foldl List.erase A = [A[i]] := by
  have hA : A = A.take i ++ A[i] :: A.drop (i + 1) := by simp
  have he := foldl_erase_skip (hA ▸ h)
  rwa [← hA, ← List.eraseIdx_eq_take_drop_succ] at he

end OwnedAux

namespace Generator

variable (g : Generator)

/-- An instruction opens and closes no string scope. -/
@[simp] theorem withInstr_marks (i : Instr) : (g.withInstr i).marks = g.marks := by
  unfold withInstr; split <;> rfl

/-- A label owns no string. -/
@[simp] theorem withLabel_owned (l : Label) : (g.withLabel l).owned = g.owned := rfl

/-- Taking labels owns no string. -/
@[simp] theorem withLabels_owned (n : Nat) : (g.withLabels n).owned = g.owned := rfl

/-- Opening a string scope owns no string. -/
@[simp] theorem withScope_owned : g.withScope.owned = g.owned := rfl

/-- A banner owns no string. -/
@[simp] theorem withBanner_owned (c : Construct) : (g.withBanner c).owned = g.owned := by
  unfold withBanner; split <;> rfl

/-- A terminator owns no string. -/
@[simp] theorem withTerminator_owned (i : Instr) : (g.withTerminator i).owned = g.owned := withInstr_owned g i

/-- A terminator opens and closes no string scope. -/
@[simp] theorem withTerminator_marks (i : Instr) : (g.withTerminator i).marks = g.marks := withInstr_marks g i

/-- A terminator takes no register. -/
@[simp] theorem nextIndex_withTerminator (i : Instr) (b : String) : (g.withTerminator i).nextIndex b = g.nextIndex b :=
  nextIndex_withInstr g i b

/-- A jump owns no string. -/
@[simp] theorem withJump_owned (l : Label) : (g.withJump l).owned = g.owned := by
  unfold withJump; split <;> simp

/-- A jump opens and closes no string scope. -/
@[simp] theorem withJump_marks (l : Label) : (g.withJump l).marks = g.marks := by
  unfold withJump; split <;> simp

/-- A jump takes no register. -/
@[simp] theorem nextIndex_withJump (l : Label) (b : String) : (g.withJump l).nextIndex b = g.nextIndex b := by
  unfold withJump; split <;> simp

/-- Taking a register takes none back. -/
theorem nextIndex_le_withFresh (b b' : String) : g.nextIndex b' ≤ (g.withFresh b).nextIndex b' := by
  rw [nextIndex_withFresh]
  split
  · subst_vars
    exact Nat.le_succ _
  · exact Nat.le_refl _

/-- The marks of the open string scopes go down from the innermost outwards, and none is past the number of strings
owned. -/
structure ScopesNest : Prop where
  sorted : g.marks.Pairwise (· ≥ ·)
  within : ∀ m ∈ g.marks, m ≤ g.owned.length

/-- The strings a generator owns are registers it has made, none twice; the marks of its open string scopes go down
from the innermost, and none is past the number of strings owned. -/
structure Owning : Prop where
  made : ∀ r ∈ g.owned, r.index < g.nextIndex r.base
  nodup : g.owned.Nodup
  sorted : g.marks.Pairwise (· ≥ ·)
  within : ∀ m ∈ g.marks, m ≤ g.owned.length

/-- Where a generator stands in the flow of owned strings: none after a terminator, else owning what the state owns,
with any copy. -/
def At : Option (List Reg × Option Reg) → Prop
  | none => g.closed = true
  | some s => g.closed = false ∧ s.1 = g.owned

variable {g} {g' : Generator}

namespace ScopesNest

/-- The same marks, over at least as many strings. -/
theorem frame (h : g.ScopesNest) (hm : g'.marks = g.marks) (ho : g.owned.length ≤ g'.owned.length) :
    g'.ScopesNest where
  sorted := hm ▸ h.sorted
  within m hm' := Nat.le_trans (h.within m (hm ▸ hm')) ho

/-- With no scope open, the marks nest whatever is owned. -/
theorem of_nil (hm : g.marks = []) : g.ScopesNest where
  sorted := by simp [hm]
  within m hm' := by simp [hm] at hm'

/-- The innermost mark bounds every mark. -/
theorem le_headD (h : g.ScopesNest) {m : Nat} (hm : m ∈ g.marks) : m ≤ g.marks.headD 0 := by
  cases hg : g.marks with
  | nil => simp [hg] at hm
  | cons m' ms =>
    rw [hg] at hm
    rcases List.mem_cons.mp hm with rfl | hm
    · exact Nat.le_refl _
    · exact (List.pairwise_cons.mp (hg ▸ h.sorted)).1 m hm

/-- The innermost mark is within the strings owned. -/
theorem headD_le (h : g.ScopesNest) : g.marks.headD 0 ≤ g.owned.length := by
  cases hg : g.marks with
  | nil => exact Nat.zero_le _
  | cons m ms => exact h.within m (by simp [hg])

/-- Owning a string keeps the scopes nested: every mark is still within the strings owned. -/
theorem withOwned (h : g.ScopesNest) (r : Reg) : (g.withOwned r).ScopesNest :=
  h.frame rfl (by simp [Generator.withOwned])

/-- Opening a scope keeps the scopes nested: its mark is the number of strings owned. -/
theorem withScope (h : g.ScopesNest) : g.withScope.ScopesNest where
  sorted := List.pairwise_cons.mpr ⟨fun m hm => h.within m hm, h.sorted⟩
  within m hm := by
    rcases List.mem_cons.mp hm with rfl | hm
    · exact Nat.le_refl _
    · exact h.within m hm

/-- Forgetting the strings of the innermost scope keeps the strings every mark counts. -/
theorem withoutInner (h : g.ScopesNest) : g.withoutInner.ScopesNest where
  sorted := h.sorted
  within m hm := by
    have hle : m ≤ g.marks.headD 0 := h.le_headD hm
    have hh := h.headD_le
    simp only [Generator.withoutInner, List.length_take]
    omega

end ScopesNest

/-- A generator that owns strings soundly has its scopes nested. -/
theorem Owning.scopesNest (h : g.Owning) : g.ScopesNest := ⟨h.sorted, h.within⟩

/-- A generator that owns no string and has no scope open, as a unit and a function body start. -/
theorem Owning.of_nil (ho : g.owned = []) (hm : g.marks = []) : g.Owning where
  made r hr := by simp [ho] at hr
  nodup := by simp [ho]
  sorted := (ScopesNest.of_nil hm).sorted
  within := (ScopesNest.of_nil hm).within

/-- A step that keeps the strings owned and the marks, and takes no register back, keeps ownership sound. -/
theorem Owning.frame (h : g.Owning) (ho : g'.owned = g.owned) (hm : g'.marks = g.marks)
    (hn : ∀ b, g.nextIndex b ≤ g'.nextIndex b) : g'.Owning where
  made r hr := Nat.lt_of_lt_of_le (h.made r (ho ▸ hr)) (hn r.base)
  nodup := ho ▸ h.nodup
  sorted := hm ▸ h.sorted
  within m hm' := ho ▸ h.within m (hm ▸ hm')

/-- The next register of a base is not owned. -/
theorem Owning.fresh (h : g.Owning) (b : String) : g.nextReg b ∉ g.owned :=
  fun hr => Nat.lt_irrefl _ (h.made _ hr)

/-- Taking a register keeps ownership sound. -/
theorem Owning.withFresh (h : g.Owning) (b : String) : (g.withFresh b).Owning :=
  h.frame rfl rfl (nextIndex_le_withFresh g b)

/-- Owning a register made, not yet owned. -/
theorem Owning.withOwned (h : g.Owning) {r : Reg} (hm : r.index < g.nextIndex r.base) (hr : r ∉ g.owned) :
    (g.withOwned r).Owning where
  made r' hr' := by
    rcases List.mem_append.mp hr' with hr' | hr'
    · exact h.made r' hr'
    · rw [List.mem_singleton.mp hr']
      exact hm
  nodup := List.nodup_append.mpr ⟨h.nodup, by simp, fun a ha b hb => by
    rw [List.mem_singleton.mp hb]
    exact fun he => hr (he ▸ ha)⟩
  sorted := h.sorted
  within m hm' := by
    simp only [Generator.withOwned, List.length_append, List.length_singleton]
    exact Nat.le_succ_of_le (h.within m hm')

/-- Opening a string scope keeps ownership sound. -/
theorem Owning.withScope (h : g.Owning) : g.withScope.Owning where
  made := h.made
  nodup := h.nodup
  sorted := h.scopesNest.withScope.sorted
  within := h.scopesNest.withScope.within

/-- Forgetting the strings of the innermost scope, whose mark then bounds every mark. -/
theorem Owning.withoutInner (h : g.Owning) : g.withoutInner.Owning where
  made r hr := h.made r (List.mem_of_mem_take hr)
  nodup := h.nodup.sublist (List.take_sublist _ _)
  sorted := h.sorted
  within := h.scopesNest.withoutInner.within

/-- The innermost mark is within the strings owned. -/
theorem Owning.headD_le (h : g.Owning) : g.marks.headD 0 ≤ g.owned.length := h.scopesNest.headD_le

section Frees

variable (g : Generator) (rs : List Reg)

/-- Writing frees leaves the list of strings owned alone. -/
@[simp] theorem withFrees_owned : (g.withFrees rs).owned = g.owned := by
  induction rs generalizing g with
  | nil => rfl
  | cons r rs ih => exact (ih _).trans (withInstr_owned g (.free (.reg r)))

/-- Freeing strings opens and closes no string scope. -/
@[simp] theorem withFrees_marks : (g.withFrees rs).marks = g.marks := by
  induction rs generalizing g with
  | nil => rfl
  | cons r rs ih => exact (ih _).trans (withInstr_marks g (.free (.reg r)))

/-- Freeing strings takes no register. -/
@[simp] theorem nextIndex_withFrees (b : String) : (g.withFrees rs).nextIndex b = g.nextIndex b := by
  induction rs generalizing g with
  | nil => rfl
  | cons r rs ih => exact (ih _).trans (nextIndex_withInstr g (.free (.reg r)) b)

/-- Freeing strings in an open block appends one free each, and leaves the block open. -/
theorem code_withFrees (hc : g.closed = false) :
    (g.withFrees rs).mark.code = g.mark.code ++ rs.map (fun r => .instr (.free (.reg r))) ∧
      (g.withFrees rs).closed = false := by
  induction rs generalizing g with
  | nil => exact ⟨by simp [withFrees], hc⟩
  | cons r rs ih =>
    obtain ⟨h₁, h₂⟩ := ih { g.withInstr (.free (.reg r)) with runtimeUsed := true } (withInstr_closed g (.free (.reg r)))
    refine ⟨?_, h₂⟩
    show (({ g.withInstr (.free (.reg r)) with runtimeUsed := true } : Generator).withFrees rs).mark.code = _
    rw [h₁]
    show (g.withInstr (.free (.reg r))).mark.code ++ _ = _
    rw [code_withInstr, hc]
    simp

/-- Frees place no label. -/
@[simp] theorem placed_frees : placed (rs.map fun r => .instr (.free (.reg r))) = [] := by
  induction rs with
  | nil => rfl
  | cons r rs ih => simpa [Item.placed] using ih

/-- Freeing strings, then ending the block: after a terminator, at a fresh label. -/
theorem code_withFrees_withTerminator (i : Instr) :
    ((g.withFrees rs).withTerminator i).mark.code = g.mark.code ++
      ((if g.closed then [.label ⟨g.labels⟩] else []) ++ (rs.map (fun r => .instr (.free (.reg r))) ++ [.instr i])) := by
  cases rs with
  | nil =>
    show (g.withTerminator i).mark.code = _
    rw [code_withTerminator]
    simp
  | cons r rs =>
    obtain ⟨h₁, h₂⟩ := code_withFrees { g.withInstr (.free (.reg r)) with runtimeUsed := true } rs
      (withInstr_closed g (.free (.reg r)))
    show ((({ g.withInstr (.free (.reg r)) with runtimeUsed := true } : Generator).withFrees rs).withTerminator i).mark.code = _
    rw [code_withTerminator _ i, h₂, h₁]
    show (g.withInstr (.free (.reg r))).mark.code ++ _ ++ _ = _
    rw [code_withInstr]
    simp

end Frees

/-- Closing a scope keeps the strings owned when it opened. -/
theorem withoutScope_owned (g : Generator) : g.withoutScope.owned = g.owned.take (g.marks.headD 0) := by
  unfold withoutScope
  split
  · split <;> simp
  · rename_i h
    exact (List.take_of_length_le (Nat.le_of_not_lt h)).symm

/-- Closing a string scope pops its mark. -/
@[simp] theorem withoutScope_marks (g : Generator) : g.withoutScope.marks = g.marks.tail := by
  unfold withoutScope
  split
  · split <;> simp
  · rfl

/-- Closing a string scope takes no register. -/
@[simp] theorem nextIndex_withoutScope (g : Generator) (b : String) : g.withoutScope.nextIndex b = g.nextIndex b := by
  unfold withoutScope
  split
  · split
    · rfl
    · exact nextIndex_withFrees _ _ b
  · rfl

/-- Closing a string scope leaves the block open or closed. -/
theorem withoutScope_closed (g : Generator) : g.withoutScope.closed = g.closed := by
  unfold withoutScope
  dsimp only
  split
  · split
    · rfl
    · rename_i h
      exact ((code_withFrees { g with marks := g.marks.tail, owned := g.owned.take (g.marks.headD 0) } _
        (Bool.eq_false_iff.mpr h)).2).trans (Bool.eq_false_iff.mpr h).symm
  · rfl

/-- Closing a scope frees, in an open block, the strings made since it opened. -/
theorem code_withoutScope (g : Generator) : g.withoutScope.mark.code =
    g.mark.code ++ if g.closed then [] else (g.owned.drop (g.marks.headD 0)).map fun r => .instr (.free (.reg r)) := by
  unfold withoutScope
  dsimp only
  split
  · split
    · rename_i h
      simp only [h, List.append_nil]
      rfl
    · rename_i h
      rw [(code_withFrees { g with marks := g.marks.tail, owned := g.owned.take (g.marks.headD 0) } _
        (Bool.eq_false_iff.mpr h)).1]
      simp only [Bool.eq_false_iff.mpr h]
      rfl
  · rename_i h
    rw [List.drop_of_length_le (Nat.le_of_not_lt h)]
    simp only [List.map_nil, ite_self, List.append_nil]
    rfl

/-- Closing the innermost scope: the marks left are each at most the one dropped, and the strings owned are cut back
to it, or were not past it. -/
theorem ScopesNest.withoutScope (h : g.ScopesNest) : g.withoutScope.ScopesNest where
  sorted := by
    rw [withoutScope_marks]
    exact h.sorted.sublist (List.tail_sublist _)
  within m hm := by
    rw [withoutScope_marks] at hm
    have hle : m ≤ g.marks.headD 0 := h.le_headD (List.mem_of_mem_tail hm)
    have hh := h.headD_le
    rw [withoutScope_owned, List.length_take]
    omega

/-- Closing a string scope, freeing the strings made since it opened, keeps ownership sound. -/
theorem Owning.withoutScope (h : g.Owning) : g.withoutScope.Owning where
  made r hr := by
    rw [withoutScope_owned] at hr
    rw [nextIndex_withoutScope]
    exact h.made r (List.mem_of_mem_take hr)
  nodup := by
    rw [withoutScope_owned]
    exact h.nodup.sublist (List.take_sublist _ _)
  sorted := h.scopesNest.withoutScope.sorted
  within := h.scopesNest.withoutScope.within

/-- The label an instruction opens a block at, with the strings owned there, when the block has ended. -/
def reopen (g : Generator) : List (Label × List Reg) := if g.closed then [(⟨g.labels⟩, g.owned)] else []

/-- The label an instruction opens a block at is the one `reopen` lists. -/
theorem placed_opening (g : Generator) :
    placed (if g.closed then [.label ⟨g.labels⟩] else []) = g.reopen.map Prod.fst := by
  unfold reopen
  cases g.closed <;> simp [Item.placed]

end Generator

/-- S gives each label of M the strings M lists for it. -/
def Agrees (S : Label → List Reg) (M : List (Label × List Reg)) : Prop := ∀ x ∈ M, S x.1 = x.2

/-- What follows the label an instruction opens a block at, after a terminator, flows from the strings owned there;
in an open block, from the state reached. -/
theorem flow_opening {S : Label → List Reg} {g : Generator} {o : Option (List Reg × Option Reg)}
    (hM : Agrees S g.reopen) (ho : g.At o) (rest : List Item) :
    ∃ c, flow S o ((if g.closed then [.label ⟨g.labels⟩] else []) ++ rest) = flow S (some (g.owned, c)) rest := by
  cases o with
  | none =>
    have hcg : g.closed = true := ho
    have hS : S ⟨g.labels⟩ = g.owned := hM (⟨g.labels⟩, g.owned) (by simp [reopen, hcg])
    exact ⟨none, by simp [hcg, flow, hS]⟩
  | some s =>
    obtain ⟨hcg, hs⟩ := ho
    obtain ⟨s₁, c⟩ := s
    obtain rfl : s₁ = g.owned := hs
    exact ⟨c, by simp [hcg]⟩

namespace Program

/-- Where an entry label follows an item, after the code `before`: the item heads a definition of the unit, written
there by emitting the definition, and when the definition's body has only local nodes, what follows the entry label
is a body whose every path keeps the rules of string ownership, then the closing brace. -/
def OwnedAt (p : Program) (before : List Item) (hdr : Item) (rest : List Item) : Prop :=
  ∃ id f b, p.ast.get? id = some (.stmt (.define f b)) ∧ hdr = p.headerOf f ∧ p.WritesFunction id before hdr rest ∧
    (p.Within p.Local b → ∃ body post, rest = body ++ .close :: post ∧ .close ∉ body ∧
      ∀ tr, Path body body tr → StringsManaged tr)

/-- A function stays one with more code after it. -/
theorem OwnedAt.append {p : Program} {before : List Item} {hdr : Item} {rest : List Item}
    (h : p.OwnedAt before hdr rest) (more : List Item) : p.OwnedAt before hdr (rest ++ more) := by
  obtain ⟨id, f, b, hn, hh, hw, hb⟩ := h
  refine ⟨id, f, b, hn, hh, hw.append more, fun hl => ?_⟩
  obtain ⟨body, post, rfl, hc, ht⟩ := hb hl
  exact ⟨body, post ++ more, by simp, hc, ht⟩

/-- A run from a generator that keeps `Owning`: it keeps it, it closes scopes no more than it opens, and every entry
label it writes begins a function of the unit whose paths keep ownership. When L holds, as inside a function body, it also keeps the marks of the open scopes
and the strings owned when the innermost one opened; it places the labels of M, each with the strings owned there;
and its code flows from the state the generator was at to the state it ends at, for any strings owned at labels that
agree with M and with the exits X it jumps to. -/
structure Owned (p : Program) (L : Prop) (X M : List (Label × List Reg)) (g g' : Generator) : Prop where
  owning : g'.Owning
  grows : g.mark.code <+: g'.mark.code
  chunks : Chunks p.OwnedAt g.mark.code (g.added g')
  shrinks : g'.marks <:+ g.marks
  marks : L → g'.marks = g.marks
  kept : L → g'.owned.take (g.marks.headD 0) = g.owned.take (g.marks.headD 0)
  labels : L → M.map Prod.fst = placed (g.added g')
  flows : L → ∀ S, Agrees S M → Agrees S X → ∀ o, g.At o → ∃ o', flow S o (g.added g') = some o' ∧ g'.At o'

namespace Owned

variable {p : Program} {L L' : Prop} {X X' M M₁ M₂ : List (Label × List Reg)} {g g' g₁ g₂ : Generator}

/-- A run that appends code keeps ownership when its functions, its marks, its labels and its flow do. -/
theorem of_append (seg : List Item) (hT : g'.Owning) (hc : g'.mark.code = g.mark.code ++ seg)
    (hch : Chunks p.OwnedAt g.mark.code seg) (hs : g'.marks <:+ g.marks) (hm : L → g'.marks = g.marks)
    (hk : L → g'.owned.take (g.marks.headD 0) = g.owned.take (g.marks.headD 0))
    (hl : L → M.map Prod.fst = placed seg)
    (hf : L → ∀ S, Agrees S M → Agrees S X → ∀ o, g.At o → ∃ o', flow S o seg = some o' ∧ g'.At o') :
    p.Owned L X M g g' :=
  ⟨hT, ⟨seg, hc.symm⟩, (added_of_eq hc) ▸ hch, hs, hm, hk, (added_of_eq hc) ▸ hl, (added_of_eq hc) ▸ hf⟩

/-- A run that writes no code, keeps the block open or ended, and owns what it owned. -/
theorem of_frame (hT : g.Owning) (hc : g'.mark.code = g.mark.code) (hcl : g'.closed = g.closed)
    (ho : g'.owned = g.owned) (hm : g'.marks = g.marks) (hn : ∀ b, g.nextIndex b ≤ g'.nextIndex b) :
    p.Owned L X [] g g' := by
  refine of_append [] (hT.frame ho hm hn) (by simp [hc]) (Chunks.of_entry_not_mem (by simp)) (hm ▸ List.suffix_refl _)
    (fun _ => hm)
    (fun _ => by rw [ho]) (fun _ => rfl) fun _ S _ _ o ho' => ⟨o, rfl, ?_⟩
  cases o with
  | none => exact hcl.trans ho'
  | some s => exact ⟨hcl.trans ho'.1, ho'.2.trans ho.symm⟩

/-- Doing nothing keeps ownership. -/
theorem refl (hT : g.Owning) : p.Owned L X [] g g := of_frame hT rfl rfl rfl rfl fun _ => Nat.le_refl _

/-- A run that keeps ownership appends what it added. -/
theorem code_eq (h : p.Owned L X M g g') : g'.mark.code = g.mark.code ++ g.added g' := by
  obtain ⟨t, ht⟩ := h.grows
  rw [added_of_eq ht.symm, ht]

/-- Two runs that keep ownership, one after the other, keep it, placing the labels of both. -/
theorem trans (h₁ : p.Owned L X M₁ g g₁) (h₂ : p.Owned L X M₂ g₁ g₂) : p.Owned L X (M₁ ++ M₂) g g₂ := by
  have hc : g₂.mark.code = g.mark.code ++ (g.added g₁ ++ g₁.added g₂) := by
    rw [h₂.code_eq, h₁.code_eq, List.append_assoc]
  refine of_append _ h₂.owning hc (Chunks.append (fun _ _ _ more h => h.append more) h₁.chunks
      (h₂.chunks.rebase h₁.code_eq))
    (h₂.shrinks.trans h₁.shrinks) (fun hL => (h₂.marks hL).trans (h₁.marks hL)) (fun hL => ?_) (fun hL => by simp [h₁.labels hL, h₂.labels hL])
    fun hL S hM hX o ho => ?_
  · rw [← h₁.marks hL, h₂.kept hL, h₁.marks hL, h₁.kept hL]
  · obtain ⟨o₁, f₁, a₁⟩ := h₁.flows hL S (fun x hx => hM x (List.mem_append_left _ hx)) hX o ho
    obtain ⟨o₂, f₂, a₂⟩ := h₂.flows hL S (fun x hx => hM x (List.mem_append_right _ hx)) hX o₁ a₁
    exact ⟨o₂, by rw [flow_append, f₁]; exact f₂, a₂⟩

/-- Exits and placements matter only where L holds. -/
theorem mono (h : p.Owned L X M g g') (hL : L' → L) (hX : L' → ∀ x ∈ X, x ∈ X') : p.Owned L' X' M g g' :=
  ⟨h.owning, h.grows, h.chunks, h.shrinks, fun hl => h.marks (hL hl), fun hl => h.kept (hL hl), fun hl => h.labels (hL hl),
    fun hl S hM hX' => h.flows (hL hl) S hM fun x hx => hX' x (hX hl x hx)⟩

/-- The labels a run places may be listed another way. -/
theorem relabel (h : p.Owned L X M g g') (hM : L → M = M') : p.Owned L X M' g g' :=
  ⟨h.owning, h.grows, h.chunks, h.shrinks, h.marks, h.kept, fun hl => hM hl ▸ h.labels hl, fun hl => hM hl ▸ h.flows hl⟩

/-- A construct that places every label its code jumps to, with the strings owned at the jumps, has no exits. -/
theorem close (h : p.Owned L X M g g') (hX : L → ∀ x ∈ X, x ∈ M) : p.Owned L [] M g g' :=
  ⟨h.owning, h.grows, h.chunks, h.shrinks, h.marks, h.kept, h.labels,
    fun hl S hM _ => h.flows hl S hM fun x hx => hM x (hX hl x hx)⟩

/-- Outside a function body only the invariant and the functions written count. -/
theorem of_not (hL : ¬L) (hT : g'.Owning) (hg : g.mark.code <+: g'.mark.code) (hch : Chunks p.OwnedAt g.mark.code (g.added g'))
    (hs : g'.marks <:+ g.marks) : p.Owned L X M g g' :=
  ⟨hT, hg, hch, hs, fun hl => absurd hl hL, fun hl => absurd hl hL, fun hl => absurd hl hL, fun hl => absurd hl hL⟩

/-- A run inside a string scope, with the scope closed after it: the strings made inside are freed in an open block,
and in a function body the generator owns again what it owned when the scope opened. -/
theorem inScope (h : p.Owned L X M g.withScope g₁) :
    p.Owned L X M g g₁.withoutScope ∧ (L → g₁.withoutScope.owned = g.owned) := by
  have hown : L → g₁.withoutScope.owned = g.owned := fun hL => by
    have hm := h.marks hL
    have hk := h.kept hL
    simp only [withScope, List.headD_cons, List.take_length] at hm hk
    rw [withoutScope_owned, hm, List.headD_cons, hk]
  have hc : g₁.withoutScope.mark.code = g.mark.code ++ (g.withScope.added g₁ ++
      if g₁.closed then [] else (g₁.owned.drop (g₁.marks.headD 0)).map fun r => .instr (.free (.reg r))) := by
    rw [code_withoutScope, h.code_eq, List.append_assoc]
    rfl
  -- closing the scope pops the mark it pushed, unless a function defined inside dropped the marks
  have hs : g₁.withoutScope.marks <:+ g.marks := by
    rw [withoutScope_marks]
    rcases List.suffix_cons_iff.mp h.shrinks with he | he
    · rw [he]
      exact List.suffix_refl _
    · exact (List.tail_suffix _).trans he
  refine ⟨.of_append _ h.owning.withoutScope hc (Chunks.append (fun _ _ _ more h => h.append more) h.chunks
    (Chunks.of_entry_not_mem (by split <;> simp [-List.map_drop]))) hs (fun hL => ?_) (fun hL => by rw [hown hL])
    (fun hL => ?_) fun hL S hM hX o ho => ?_, hown⟩
  · simp [h.marks hL, withScope]
  · rw [placed_append, ← h.labels hL]
    split <;> simp only [placed_nil, placed_frees, List.append_nil]
  · obtain ⟨o₁, f₁, a₁⟩ := h.flows hL S hM hX o ho
    rw [flow_append, f₁, Option.bind_some]
    cases o₁ with
    | none =>
      have hcl : g₁.closed = true := a₁
      exact ⟨none, by simp [hcl, flow], (withoutScope_closed g₁).trans hcl⟩
    | some s =>
      obtain ⟨hcl, hs⟩ := a₁
      obtain ⟨s₁, c⟩ := s
      obtain rfl : s₁ = g₁.owned := hs
      have hn := h.owning.nodup
      rw [← List.take_append_drop (g₁.marks.headD 0) g₁.owned] at hn
      have he := OwnedAux.foldl_erase_suffix hn
      rw [List.take_append_drop] at he
      refine ⟨some (g₁.owned.take (g₁.marks.headD 0), c), ?_, (withoutScope_closed g₁).trans hcl,
        (withoutScope_owned g₁).symm⟩
      rw [hcl, if_neg (by simp), ← List.append_nil (List.map _ _),
        flow_frees (hn.sublist (List.sublist_append_right _ _)) (fun r hr => List.mem_of_mem_drop hr), he]
      rfl

end Owned

/-! ## Steps that cannot fail -/

section Steps

variable {p : Program} {L : Prop} {X M : List (Label × List Reg)} (g : Generator)

/-- Writing an instruction that does not end its block, after which the generator owns what the flow owns past it. -/
theorem owned_instr (i : Instr) {G : Generator} (hi : i.terminates = false) (hT : G.Owning)
    (hc : G.mark.code = (g.withInstr i).mark.code) (hcl : G.closed = false) (hm : G.marks = g.marks)
    (hk : G.owned.take (g.marks.headD 0) = g.owned.take (g.marks.headD 0))
    (hp : ∀ c, ∃ c', i.passOwned (g.owned, c) = some (G.owned, c')) : p.Owned L X g.reopen g G := by
  refine .of_append _ hT (hc.trans (code_withInstr g i)) (Chunks.of_entry_not_mem ?_) (hm ▸ List.suffix_refl _)
    (fun _ => hm) (fun _ => hk)
    (fun _ => by simp [placed_opening, Item.placed]) fun _ S hM _ o ho => ?_
  · cases g.closed <;> simp
  · obtain ⟨c, hf⟩ := flow_opening hM ho [.instr i]
    obtain ⟨c', hp'⟩ := hp c
    exact ⟨some (G.owned, c'), by rw [hf, flow_instr hi, hp']; rfl, hcl, rfl⟩

/-- An instruction that defines no register and frees nothing. -/
theorem owned_withInstr (i : Instr) (hT : g.Owning) (hi : i.terminates = false) (hd : i.dst? = none)
    (hf : ∀ u, i ≠ .free u) : p.Owned L X g.reopen g (g.withInstr i) :=
  owned_instr g i hi (hT.frame (by simp) (by simp) (by simp)) rfl (by simp) (by simp) (by simp)
    fun _ => ⟨none, by simpa using Instr.passOwned_of_dst_none hd hf _⟩

/-- An instruction that defines the next register of a base, and makes no string the function owns. -/
theorem owned_define (i : Instr) (b : String) (hT : g.Owning) (hi : i.terminates = false)
    (hd : i.dst? = some (g.nextReg b)) (ho : i.owns? = none) : p.Owned L X g.reopen g ((g.withFresh b).withInstr i) :=
  owned_instr g i hi ((hT.withFresh b).frame (by simp) (by simp) (by simp)) (by simp) (by simp) (by simp [withFresh])
    (by simp [withFresh]) fun _ => ⟨i.copies?, by simpa [ho, withFresh] using Instr.passOwned_of_dst hd (hT.fresh b)⟩

/-- An instruction that makes a string, in the next register of a base, that the function then owns. -/
theorem owned_own (i : Instr) (b : String) (hT : g.Owning) (hi : i.terminates = false)
    (ho : i.owns? = some (g.nextReg b)) :
    p.Owned L X g.reopen g (((g.withFresh b).withInstr i).withOwned (g.nextReg b)) := by
  have hT' : (((g.withFresh b).withInstr i).withOwned (g.nextReg b)).Owning :=
    ((hT.withFresh b).frame (by simp) (by simp) (by simp)).withOwned (by simp [nextIndex_withFresh, nextReg])
      (by simpa [withFresh] using hT.fresh b)
  refine owned_instr g i hi hT' (by simp) (by simp [Generator.withOwned]) (by simp [withFresh, Generator.withOwned]) ?_
    fun _ => ⟨none, ?_⟩
  · simp only [Generator.withOwned, withInstr_owned]
    exact List.take_append_of_le_length hT.headD_le
  · have hc : i.copies? = none := by cases i <;> simp_all [Instr.owns?, Instr.copies?]
    simpa [ho, hc, withFresh, Generator.withOwned] using
      Instr.passOwned_of_dst (Instr.dst_of_owns ho) (hT.fresh b)

/-- Ending the block with an instruction that the flow lets through to a terminator, from any copy just made. -/
theorem owned_terminator (i : Instr) (hT : g.Owning)
    (hf : ∀ S, Agrees S X → ∀ c, flow S (some (g.owned, c)) [.instr i] = some none) :
    p.Owned L X g.reopen g (g.withTerminator i) := by
  refine .of_append _ (hT.frame (by simp [withTerminator]) (by simp [withTerminator]) (by simp [withTerminator, nextIndex]))
    (code_withTerminator g i) (Chunks.of_entry_not_mem ?_) (by simp) (fun _ => by simp [withTerminator])
    (fun _ => by simp [withTerminator]) (fun _ => by simp [placed_opening, Item.placed]) fun _ S hM hX o ho =>
      ⟨none, ?_, rfl⟩
  · cases g.closed <;> simp
  · obtain ⟨c, hc⟩ := flow_opening hM ho [.instr i]
    rw [hc]
    exact hf S hX c

/-- Falling through to a label, owning what the label owns. -/
theorem owned_withJump (l : Label) (hT : g.Owning) : p.Owned L [(l, g.owned)] [] g (g.withJump l) := by
  unfold withJump
  split
  · exact .refl hT
  · rename_i hc
    have h : p.Owned L [(l, g.owned)] g.reopen g (g.withTerminator (.jump l)) :=
      owned_terminator g (.jump l) hT fun S hX c => by
        have hl : S l = g.owned := hX (l, g.owned) List.mem_cons_self
        simp [flow, hl]
    simpa [reopen, hc] using h

/-- A two-way branch, owning what both labels own. -/
theorem owned_branch (v : Value) (l₁ l₂ : Label) (hT : g.Owning) :
    p.Owned L [(l₁, g.owned), (l₂, g.owned)] g.reopen g (g.withTerminator (.branch v l₁ l₂)) :=
  owned_terminator g _ hT fun S hX c => by
    have h₁ : S l₁ = g.owned := hX (l₁, g.owned) List.mem_cons_self
    have h₂ : S l₂ = g.owned := hX (l₂, g.owned) (by simp)
    simp [flow, h₁, h₂]

/-- Placing a label after a terminator: the block it starts owns what the generator owns. -/
theorem owned_withLabel (l : Label) (hT : g.Owning) (hc : g.closed = true) :
    p.Owned L X [(l, g.owned)] g (g.withLabel l) := by
  refine .of_append [.label l] (hT.frame rfl rfl fun _ => Nat.le_refl _) (by simp) (Chunks.of_entry_not_mem (by simp))
    (List.suffix_refl _) (fun _ => rfl) (fun _ => rfl) (fun _ => by simp [Item.placed]) fun _ S hM _ o ho => ?_
  cases o with
  | none => exact ⟨some (g.owned, none), by simp [flow, hM (l, g.owned) List.mem_cons_self], rfl, rfl⟩
  | some s => exact absurd (hc.symm.trans ho.1) (by simp)

/-- A banner keeps ownership. -/
theorem owned_withBanner (c : Construct) (hT : g.Owning) : p.Owned L X [] g (g.withBanner c) := by
  unfold withBanner
  split
  · exact .of_frame hT (by simp [mark, Line.code, Item.code]) rfl rfl rfl fun _ => Nat.le_refl _
  · exact .refl hT

/-- Taking labels keeps ownership. -/
theorem owned_withLabels (n : Nat) (hT : g.Owning) : p.Owned L X [] g (g.withLabels n) :=
  .of_frame hT (by simp) rfl rfl rfl fun _ => Nat.le_refl _

/-- Recording an operand keeps ownership. -/
theorem owned_withValue (id : NodeId) (v : Value) (hT : g.Owning) : p.Owned L X [] g (g.withValue id v) :=
  .of_frame hT rfl rfl rfl rfl fun _ => Nat.le_refl _

/-- Marking the runtime used keeps ownership. -/
theorem owned_withRuntime (hT : g.Owning) : p.Owned L X [] g g.withRuntime :=
  .of_frame hT rfl rfl rfl rfl fun _ => Nat.le_refl _

/-- Queueing a constant keeps ownership. -/
theorem owned_withConstant (r : Reg) (bytes : List UInt8) (hT : g.Owning) : p.Owned L X [] g (g.withConstant r bytes) :=
  .of_frame hT rfl rfl rfl rfl fun _ => Nat.le_refl _

/-- Writing an item outside any function body that is not an entry label. -/
theorem owned_withItem (it : Item) (hT : g.Owning) (hL : ¬L) (he : it ≠ .entry) : p.Owned L X M g (g.withItem it) := by
  have hc : (g.withItem it).mark.code = g.mark.code ++ it.code := by simp
  refine .of_not hL (hT.frame rfl rfl fun _ => Nat.le_refl _) ⟨it.code, hc.symm⟩ ?_ (List.suffix_refl _)
  rw [added_of_eq hc]
  exact Chunks.of_entry_not_mem (by cases it <;> simp_all [Item.code])

/-- Ending the block with a return after freeing owned strings, each once, that leave what the return may end with;
the generator then forgets the strings of the innermost scope, which no path past the return owns. -/
theorem owned_return (t : Ty) (v : Value) (rs : List Reg) (hT : g.Owning) (hn : rs.Nodup) (hs : ∀ r ∈ rs, r ∈ g.owned)
    (hok : ∀ c, returnOk (rs.foldl List.erase g.owned, c) t v = true) :
    p.Owned L X g.reopen g ((g.withFrees rs).withTerminator (.ret t v)).withoutInner := by
  have hT' : ((g.withFrees rs).withTerminator (.ret t v)).Owning := hT.frame (by simp) (by simp) (by simp)
  refine .of_append _ hT'.withoutInner (code_withFrees_withTerminator g rs _) (Chunks.of_entry_not_mem ?_)
    (by simp [withoutInner]) (fun _ => by simp [withoutInner]) (fun _ => by simp [withoutInner, List.take_take])
    (fun _ => by simp [placed_opening, Item.placed]) fun _ S hM _ o ho => ⟨none, ?_, rfl⟩
  · cases g.closed <;> simp
  · obtain ⟨c, hc⟩ := flow_opening hM ho _
    rw [hc, flow_frees hn hs]
    simp [flow, hok c]

/-- Copying a string the function does not own, freeing every string it owns, and returning the copy. -/
theorem owned_copyReturn (v : Value) (b : String) (hT : g.Owning) :
    p.Owned L X g.reopen g (((((g.withFresh b).withInstr (.copy (g.nextReg b) v)).withRuntime).withFrees
      g.owned).withTerminator (.ret .string (.reg (g.nextReg b)))).withoutInner := by
  let G := ((g.withFresh b).withInstr (.copy (g.nextReg b) v)).withRuntime
  have hG : G.Owning := (hT.withFresh b).frame (by simp [G, withRuntime, withFresh])
    (by simp [G, withRuntime, withFresh]) fun _ => Nat.le_of_eq (by simp [G, withRuntime, nextIndex])
  have hG' : ((G.withFrees g.owned).withTerminator (.ret .string (.reg (g.nextReg b)))).Owning :=
    hG.frame (by simp) (by simp) (by simp)
  have hc : ((G.withFrees g.owned).withTerminator (.ret .string (.reg (g.nextReg b)))).withoutInner.mark.code =
      g.mark.code ++ ((if g.closed then [.label ⟨g.labels⟩] else []) ++ (.instr (.copy (g.nextReg b) v) ::
        (g.owned.map (fun r => .instr (.free (.reg r))) ++ [.instr (.ret .string (.reg (g.nextReg b)))]))) := by
    rw [mark_withoutInner, code_withFrees_withTerminator G, show G.closed = false by simp [G, withRuntime]]
    show ((g.withFresh b).withInstr _).mark.code ++ _ = _
    rw [code_withInstr, mark_withFresh]
    simp only [List.append_assoc, List.singleton_append]
    rfl
  refine .of_append _ hG'.withoutInner hc (Chunks.of_entry_not_mem ?_)
    (by simp [withoutInner, withRuntime, withFresh]) (fun _ => by simp [withoutInner, withRuntime, withFresh])
    (fun _ => by simp [withoutInner, withRuntime, withFresh, List.take_take])
    (fun _ => by simp [placed_opening, Item.placed]) fun _ S hM _ o ho => ⟨none, ?_, rfl⟩
  · cases g.closed <;> simp
  · -- the copy is a fresh string the function does not own; every owned one is freed before the return
    obtain ⟨c, hf⟩ := flow_opening hM ho _
    rw [hf, flow_instr rfl, Instr.passOwned_of_dst rfl (hT.fresh b)]
    simp only [Instr.owns?, Option.toList_none, List.append_nil, Instr.copies?, Option.bind_some]
    rw [flow_frees hT.nodup (fun _ h => h), OwnedAux.foldl_erase_self hT.nodup]
    simp [flow, returnOk]

end Steps

end Program

end Lowering
