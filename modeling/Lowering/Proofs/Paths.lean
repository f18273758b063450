import Mathlib.Data.List.Induction
import Lowering.Proofs.Typing

/-!
# Paths of a function body and the strings they own

A function owns the strings it makes: each join of two strings, and each string a call of the unit returns. It must
give each back to the runtime once, or return it, and free nothing else. This module states those rules along every
control-flow path of a function body (`StringsManaged`), from the function's entry to a return, with loops taken any
number of times.

Paths are checked by a transfer function on the strings owned (`Instr.passOwned`, `returnOk`): a path whose
instructions all pass and whose return is allowed keeps the rules (`stringsManaged_of_pathOwned`). The code of a
body is checked once, by `flow`, given the strings owned where each label is placed; a body that passes that check
has only paths that pass (`pathOwned_of_flow`), which is how loops are handled without unrolling them.
-/

namespace Lowering

namespace Ir

/-- The register an instruction defines. -/
def Instr.dst? (i : Instr) : Option Reg := i.def?.map Prod.fst

/-- The string an instruction makes for its function to own: a join of two strings, or what a call of the unit that
returns a string returns. -/
def Instr.owns? : Instr → Option Reg
  | .concat r .. => some r
  | .call r .string .. => some r
  | _ => none

/-- The register a copy of a string goes to. -/
def Instr.copies? : Instr → Option Reg
  | .copy r _ => some r
  | _ => none

/-- An instruction that makes a string defines the register that holds it. -/
theorem Instr.dst_of_owns {i : Instr} {r : Reg} (h : i.owns? = some r) : i.dst? = some r := by
  cases i with
  | concat => cases h; rfl
  | call _ t =>
    cases t with
    | int => cases h
    | string => cases h; rfl
  | _ => cases h

/-- An instruction that copies a string defines the register of the copy. -/
theorem Instr.dst_of_copies {i : Instr} {r : Reg} (h : i.copies? = some r) : i.dst? = some r := by
  cases i <;> first | (cases h; rfl) | cases h

/-- The strings a function owns, with the copy it has just made if any, across an instruction other than a return:
none where the instruction defines a register that holds a string the function owns, or frees a string it does not
own. -/
def Instr.passOwned (i : Instr) (s : List Reg × Option Reg) : Option (List Reg × Option Reg) :=
  match i with
  | .free (.reg r) => if r ∈ s.1 then some (s.1.erase r, s.2) else none
  | .free _ => none
  | i =>
    match i.dst? with
    | none => some (s.1, none)
    | some r => if r ∈ s.1 then none else some (s.1 ++ i.owns?.toList, i.copies?)

/-- An instruction that defines no register and frees nothing passes the strings owned on, and forgets the copy. -/
theorem Instr.passOwned_of_dst_none {i : Instr} (hd : i.dst? = none) (hf : ∀ u, i ≠ .free u)
    (s : List Reg × Option Reg) : i.passOwned s = some (s.1, none) := by
  unfold Instr.passOwned
  split
  · exact absurd rfl (hf _)
  · exact absurd rfl (hf _)
  · rw [hd]

/-- An instruction that defines a register holding no owned string adds the string it makes, if any, and records the
copy it makes, if any. -/
theorem Instr.passOwned_of_dst {i : Instr} {r : Reg} (hd : i.dst? = some r) {s : List Reg × Option Reg}
    (hr : r ∉ s.1) : i.passOwned s = some (s.1 ++ i.owns?.toList, i.copies?) := by
  unfold Instr.passOwned
  split
  · simp [Instr.dst?, Instr.def?] at hd
  · simp [Instr.dst?, Instr.def?] at hd
  · rw [hd]
    simp [hr]

/-- Whether a return of a value of a type may end a path: the function owns nothing then, or only the string it
returns; a string returned is one it owns, the copy it has just made, or null. -/
def returnOk (s : List Reg × Option Reg) : Ty → Value → Bool
  | .int, _ => s.1.isEmpty
  | .string, .reg r => s.1 == [r] || (s.1.isEmpty && s.2 == some r)
  | .string, .null => s.1.isEmpty
  | .string, _ => false

end Ir

open Ir

/-! ## Paths -/

/-- The control-flow paths of a function body from a point of its code to a return, as the instructions they run in
order: an instruction that does not end its block goes on to the next item, a jump or a branch goes on after a place
of one of its targets, and a return ends the path. -/
inductive Path (body : List Item) : List Item → List Instr → Prop
  | ret {t : Ty} {v : Value} {rest : List Item} : Path body (.instr (.ret t v) :: rest) [.ret t v]
  | step {i : Instr} {rest : List Item} {tr : List Instr} :
      i.terminates = false → Path body rest tr → Path body (.instr i :: rest) (i :: tr)
  | label {l : Label} {rest : List Item} {tr : List Instr} : Path body rest tr → Path body (.label l :: rest) tr
  | jump {l : Label} {rest pre post : List Item} {tr : List Instr} :
      body = pre ++ .label l :: post → Path body post tr → Path body (.instr (.jump l) :: rest) (.jump l :: tr)
  | branch {c : Value} {l₁ l₂ l : Label} {rest pre post : List Item} {tr : List Instr} :
      (l = l₁ ∨ l = l₂) → body = pre ++ .label l :: post → Path body post tr →
      Path body (.instr (.branch c l₁ l₂) :: rest) (.branch c l₁ l₂ :: tr)

/-- The string r is made by an instruction of the path and neither freed nor defined again after it. -/
def LiveOn (r : Reg) (tr : List Instr) : Prop :=
  ∃ pre i mid, tr = pre ++ i :: mid ∧ i.owns? = some r ∧ .free (.reg r) ∉ mid ∧ ∀ j ∈ mid, j.dst? ≠ some r

/-- The rules of string ownership along a path from a function's entry to a return. -/
structure StringsManaged (tr : List Instr) : Prop where
  /-- A string the function makes is, before its register is defined again, freed exactly once or returned by the
  path's last instruction, and not both. -/
  freedOnce : ∀ pre i post r, tr = pre ++ i :: post → i.owns? = some r →
    ((post.takeWhile fun j => j.dst? != some r).count (.free (.reg r)) = 1 ∧
        ¬((post.takeWhile fun j => j.dst? != some r) = post ∧ tr.getLast? = some (.ret .string (.reg r)))) ∨
      ((post.takeWhile fun j => j.dst? != some r).count (.free (.reg r)) = 0 ∧
        (post.takeWhile fun j => j.dst? != some r) = post ∧ tr.getLast? = some (.ret .string (.reg r)))
  /-- A string freed was made earlier on the path and is not yet freed. -/
  freesLive : ∀ pre r post, tr = pre ++ .free (.reg r) :: post → LiveOn r pre
  /-- Only registers holding strings the function made are freed. -/
  freesOwned : ∀ v, .free v ∈ tr → ∃ r, v = .reg r ∧ ∃ i ∈ tr, i.owns? = some r
  /-- A string returned is one the function made and still owns, a copy made just before the return with only frees
  after it, or null. -/
  returnsOwned : ∀ pre v, tr = pre ++ [.ret .string v] →
    v = .null ∨ ∃ r, v = .reg r ∧
      (LiveOn r pre ∨ ∃ pre' src frees, pre = pre' ++ .copy r src :: frees ∧ ∀ j ∈ frees, ∃ u, j = .free u)

/-! ## Checking a path -/

/-- The state after a run of instructions, none where one of them breaks ownership. -/
def passAll (s : List Reg × Option Reg) (is : List Instr) : Option (List Reg × Option Reg) :=
  is.foldlM (fun s i => i.passOwned s) s

/-- A path keeps ownership from a state: the instructions before its return pass, and the return is allowed. -/
def PathOwned (s : List Reg × Option Reg) (tr : List Instr) : Prop :=
  ∃ pre t v s', tr = pre ++ [.ret t v] ∧ passAll s pre = some s' ∧ returnOk s' t v = true

/-- No instructions pass the state on as it is. -/
@[simp] theorem passAll_nil (s : List Reg × Option Reg) : passAll s [] = some s := rfl

/-- Instructions pass the state through the first, then the rest. -/
theorem passAll_cons (s : List Reg × Option Reg) (i : Instr) (is : List Instr) :
    passAll s (i :: is) = (i.passOwned s).bind (passAll · is) := rfl

/-- Instructions one piece after another pass the state through each. -/
theorem passAll_append (s : List Reg × Option Reg) (a b : List Instr) :
    passAll s (a ++ b) = (passAll s a).bind (passAll · b) := by
  simp only [passAll, List.foldlM_append]
  rfl

/-- Instructions followed by one more passed the state through the first ones, then the last. -/
theorem passAll_snoc {s s' : List Reg × Option Reg} {is : List Instr} {i : Instr} (h : passAll s (is ++ [i]) = some s') :
    ∃ s₁, passAll s is = some s₁ ∧ i.passOwned s₁ = some s' := by
  rw [passAll_append] at h
  obtain ⟨s₁, h₁, h₂⟩ := Option.bind_eq_some_iff.mp h
  exact ⟨s₁, h₁, by simpa [passAll_cons] using h₂⟩

namespace PathsAux

variable {s s' : List Reg × Option Reg} {i : Instr} {r : Reg}

/-- What passing one instruction does: a free of an owned string forgets it and keeps the copy just made; any other
instruction defines a register holding no owned string, and adds the string it makes, if any. -/
theorem passOwned_cases (h : i.passOwned s = some s') :
    (∃ r, i = .free (.reg r) ∧ r ∈ s.1 ∧ s' = (s.1.erase r, s.2)) ∨
    ((∀ u, i ≠ .free u) ∧ (∀ r, i.dst? = some r → r ∉ s.1) ∧ s' = (s.1 ++ i.owns?.toList, i.copies?)) := by
  unfold Instr.passOwned at h
  split at h
  · rename_i r
    split at h
    · cases h
      exact .inl ⟨r, rfl, by assumption, rfl⟩
    · cases h
  · cases h
  · rename_i hf hf'
    have hu : ∀ u, i ≠ .free u := by
      rintro u rfl
      exact hf' u rfl
    split at h
    · rename_i hd
      cases h
      have ho : i.owns? = none := by
        cases ho : i.owns? with
        | none => rfl
        | some r => simp [Instr.dst_of_owns ho] at hd
      have hc : i.copies? = none := by
        cases hc : i.copies? with
        | none => rfl
        | some r => simp [Instr.dst_of_copies hc] at hd
      exact .inr ⟨hu, by simp [hd], by simp [ho, hc]⟩
    · rename_i d hd
      split at h
      · cases h
      · cases h
        exact .inr ⟨hu, fun r hr => by rw [hd] at hr; cases hr; assumption, rfl⟩

/-- An instruction passes on strings owned without repeats when it got them so. -/
theorem nodup_passOwned (h : i.passOwned s = some s') (hn : s.1.Nodup) : s'.1.Nodup := by
  rcases passOwned_cases h with ⟨r, -, -, rfl⟩ | ⟨-, hd, rfl⟩
  · exact hn.erase r
  · cases ho : i.owns? with
    | none => simpa using hn
    | some r =>
      have hr := hd r (Instr.dst_of_owns ho)
      simpa [List.nodup_append, hn] using fun a ha => (ne_of_mem_of_not_mem ha hr)

/-- Instructions pass on strings owned without repeats when they got them so. -/
theorem nodup_passAll {is : List Instr} (h : passAll s is = some s') (hn : s.1.Nodup) : s'.1.Nodup := by
  induction is generalizing s with
  | nil => cases h; exact hn
  | cons i is ih =>
    rw [passAll_cons] at h
    obtain ⟨s₁, h₁, h₂⟩ := Option.bind_eq_some_iff.mp h
    exact ih h₂ (nodup_passOwned h₁ hn)

/-- Every string owned after a run from owning nothing was made on the run and is not freed or defined again since. -/
theorem liveOn_of_passAll {is : List Instr} (h : passAll ([], none) is = some s) : ∀ r ∈ s.1, LiveOn r is := by
  induction is using List.reverseRecOn generalizing s with
  | nil => cases h; simp
  | append_singleton is i ih =>
    obtain ⟨s₁, h₁, h₂⟩ := passAll_snoc h
    have hn := nodup_passAll h₁ List.nodup_nil
    have extend : ∀ r, LiveOn r is → .free (.reg r) ≠ i → i.dst? ≠ some r → LiveOn r (is ++ [i]) := by
      rintro r ⟨pre, j, mid, rfl, hj, hf, hd⟩ hfi hdi
      refine ⟨pre, j, mid ++ [i], by simp, hj, ?_, ?_⟩
      · simpa [hf] using hfi
      · intro j hj
        rcases List.mem_append.mp hj with hj | hj
        · exact hd j hj
        · rw [List.mem_singleton.mp hj]
          exact hdi
    intro r hr
    rcases passOwned_cases h₂ with ⟨r', rfl, -, rfl⟩ | ⟨hu, hd, rfl⟩
    · have hne : r ≠ r' := fun he => (hn.mem_erase_iff.mp (he ▸ hr)).1 rfl
      refine extend r (ih h₁ r (List.mem_of_mem_erase hr)) (by simpa using hne) (by simp [Instr.dst?, Instr.def?])
    · rcases List.mem_append.mp hr with hr | hr
      · exact extend r (ih h₁ r hr) (fun he => hu _ he.symm) fun he => hd r he hr
      · obtain ⟨r'', ho, rfl⟩ : ∃ r'', i.owns? = some r'' ∧ r'' = r := by
          cases ho : i.owns? with
          | none => simp [ho] at hr
          | some r'' => simp [ho] at hr; exact ⟨r'', rfl, hr.symm⟩
        exact ⟨is, i, [], rfl, ho, by simp, by simp⟩

/-- A copy still marked as just made after a run was made by it, with only frees after it. -/
theorem copied_of_passAll {is : List Instr} {L : List Reg} (h : passAll ([], none) is = some (L, some r)) :
    ∃ pre src frees, is = pre ++ .copy r src :: frees ∧ ∀ j ∈ frees, ∃ u, j = .free u := by
  induction is using List.reverseRecOn generalizing L with
  | nil => cases h
  | append_singleton is i ih =>
    obtain ⟨s₁, h₁, h₂⟩ := passAll_snoc h
    rcases passOwned_cases h₂ with ⟨r', rfl, -, he⟩ | ⟨-, -, he⟩
    · have hs : s₁ = (s₁.1, some r) := Prod.ext rfl (Prod.mk.inj he).2.symm
      obtain ⟨pre, src, frees, rfl, hf⟩ := ih (h₁.trans (congrArg some hs))
      refine ⟨pre, src, frees ++ [.free (.reg r')], by simp, fun j hj => ?_⟩
      rcases List.mem_append.mp hj with hj | hj
      · exact hf j hj
      · exact ⟨_, List.mem_singleton.mp hj⟩
    · obtain ⟨-, hc⟩ := Prod.mk.inj he
      cases i with
      | copy d src =>
        cases hc
        exact ⟨is, src, [], rfl, by simp⟩
      | _ => cases hc

variable {L : List Reg} {c : Option Reg} {q : List Instr} {t : Ty} {v : Value}

/-- The part of a path before register r is defined again. -/
abbrev untilDef (r : Reg) (q : List Instr) : List Instr := q.takeWhile fun j => j.dst? != some r

/-- The part of a path before r is defined again stops at the first instruction that defines r. -/
theorem untilDef_cons (j : Instr) (q : List Instr) :
    untilDef r (j :: q) = if j.dst? = some r then [] else j :: untilDef r q := by
  by_cases h : j.dst? = some r <;> simp [untilDef, h]

/-- What a step that does not define r passes on: r stays owned or not owned, and is not the copy just made. -/
theorem passOwned_other {j : Instr} (h : j.passOwned (L, c) = some s') (hj : j.dst? ≠ some r)
    (hf : j ≠ .free (.reg r)) (hc : c ≠ some r) : (r ∈ s'.1 ↔ r ∈ L) ∧ s'.2 ≠ some r := by
  rcases passOwned_cases h with ⟨r', rfl, -, rfl⟩ | ⟨-, -, rfl⟩
  · have hne : r ≠ r' := fun he => hf (he ▸ rfl)
    exact ⟨List.mem_erase_of_ne hne, hc⟩
  · refine ⟨?_, fun he => hj (Instr.dst_of_copies he)⟩
    cases ho : j.owns? with
    | none => simp
    | some d =>
      have hd : d ≠ r := fun he => hj (he ▸ Instr.dst_of_owns ho)
      simp [Ne.symm hd]

/-- A string not owned, and not the copy just made, is neither freed nor returned before it is defined again. -/
theorem untilDef_of_unowned (h : passAll (L, c) q = some s') (hret : returnOk s' t v = true) (hr : r ∉ L)
    (hc : c ≠ some r) :
    (untilDef r (q ++ [.ret t v])).count (.free (.reg r)) = 0 ∧
      ¬(untilDef r (q ++ [.ret t v]) = q ++ [.ret t v] ∧ Instr.ret t v = .ret .string (.reg r)) := by
  induction q generalizing L c with
  | nil =>
    cases h
    refine ⟨by simp [untilDef, Instr.dst?, Instr.def?], ?_⟩
    rintro ⟨-, he⟩
    cases he
    simp only [returnOk, Bool.or_eq_true, beq_iff_eq, Bool.and_eq_true, List.isEmpty_iff] at hret
    rcases hret with rfl | ⟨-, rfl⟩
    · exact hr List.mem_cons_self
    · exact hc rfl
  | cons j q ih =>
    rw [passAll_cons] at h
    obtain ⟨s₁, h₁, h₂⟩ := Option.bind_eq_some_iff.mp h
    rw [List.cons_append, untilDef_cons]
    by_cases hj : j.dst? = some r
    · simp [hj]
    · -- r is not owned, so the step is not a free of r
      have hf : j ≠ .free (.reg r) := by
        rintro rfl
        rcases passOwned_cases h₁ with ⟨r', he, hm, -⟩ | ⟨hu, -, -⟩
        · cases he
          exact hr hm
        · exact hu _ rfl
      obtain ⟨hm, hc'⟩ := passOwned_other h₁ hj hf hc
      obtain ⟨h₃, h₄⟩ := ih h₂ (fun h => hr (hm.mp h)) hc'
      rw [if_neg hj]
      exact ⟨by rw [List.count_cons, h₃]; simp [hf], fun ⟨he, hr⟩ => h₄ ⟨(List.cons.inj he).2, hr⟩⟩

/-- While a string is owned, the path up to its register's next definition frees it exactly once, or returns it by
its last instruction and does not free it. -/
theorem untilDef_of_owned (h : passAll (L, c) q = some s') (hret : returnOk s' t v = true) (hr : r ∈ L)
    (hn : L.Nodup) (hc : c ≠ some r) :
    ((untilDef r (q ++ [.ret t v])).count (.free (.reg r)) = 1 ∧
        ¬(untilDef r (q ++ [.ret t v]) = q ++ [.ret t v] ∧ Instr.ret t v = .ret .string (.reg r))) ∨
      ((untilDef r (q ++ [.ret t v])).count (.free (.reg r)) = 0 ∧
        untilDef r (q ++ [.ret t v]) = q ++ [.ret t v] ∧ Instr.ret t v = .ret .string (.reg r)) := by
  induction q generalizing L c with
  | nil =>
    cases h
    right
    refine ⟨by simp [untilDef, Instr.dst?, Instr.def?], by simp [untilDef, Instr.dst?, Instr.def?], ?_⟩
    -- the return may end the path only if the string is what it returns
    cases t with
    | int =>
      simp only [returnOk, List.isEmpty_iff] at hret
      simp [hret] at hr
    | string =>
      cases v with
      | reg r' =>
        simp only [returnOk, Bool.or_eq_true, beq_iff_eq, Bool.and_eq_true, List.isEmpty_iff] at hret
        rcases hret with rfl | ⟨rfl, -⟩
        · rw [List.mem_singleton.mp hr]
        · simp at hr
      | null =>
        simp only [returnOk, List.isEmpty_iff] at hret
        simp [hret] at hr
      | _ => simp [returnOk] at hret
  | cons j q ih =>
    rw [passAll_cons] at h
    obtain ⟨s₁, h₁, h₂⟩ := Option.bind_eq_some_iff.mp h
    rw [List.cons_append, untilDef_cons]
    by_cases hj : j.dst? = some r
    · -- an owned string's register is not defined again
      rcases passOwned_cases h₁ with ⟨r', rfl, -, -⟩ | ⟨-, hd, -⟩
      · simp [Instr.dst?, Instr.def?] at hj
      · exact absurd hr (hd r hj)
    · rw [if_neg hj]
      by_cases hf : j = .free (.reg r)
      · -- the free: r is owned no longer, so nothing after frees or returns it
        subst hf
        obtain ⟨r', he, -, rfl⟩ := (passOwned_cases h₁).resolve_right fun ⟨hu, _⟩ => hu _ rfl
        cases he
        obtain ⟨h₃, h₄⟩ := untilDef_of_unowned h₂ hret (hn.not_mem_erase) hc
        exact .inl ⟨by rw [List.count_cons, h₃]; simp, fun ⟨he, hr⟩ => h₄ ⟨(List.cons.inj he).2, hr⟩⟩
      · obtain ⟨hm, hc'⟩ := passOwned_other h₁ hj hf hc
        refine (ih h₂ (hm.mpr hr) (nodup_passOwned h₁ hn) hc').imp ?_ ?_
        · exact fun ⟨h₃, h₄⟩ => ⟨by rw [List.count_cons, h₃]; simp [hf], fun ⟨he, hr⟩ => h₄ ⟨(List.cons.inj he).2, hr⟩⟩
        · exact fun ⟨h₃, h₄, h₅⟩ => ⟨by rw [List.count_cons, h₃]; simp [hf], by rw [h₄], h₅⟩

/-- A path whose last instruction is x, split before an earlier instruction i, ends with x after i. -/
theorem eq_snoc_of_append_cons {pre post pre₀ : List Instr} {i x : Instr} (h : pre ++ i :: post = pre₀ ++ [x])
    (hi : i ≠ x) : ∃ q, post = q ++ [x] ∧ pre₀ = pre ++ i :: q := by
  rcases List.eq_nil_or_concat post with rfl | ⟨q, y, rfl⟩
  · obtain ⟨-, he⟩ := List.append_inj' h rfl
    exact absurd (List.singleton_inj.mp he) hi
  · rw [List.concat_eq_append, ← List.cons_append, ← List.append_assoc] at h
    obtain ⟨h₁, h₂⟩ := List.append_inj' h rfl
    obtain rfl := List.singleton_inj.mp h₂
    exact ⟨q, by simp, h₁.symm⟩

/-- A path that keeps ownership, split before an instruction other than its return: the state before the instruction,
which passes it. -/
theorem passAll_split {pre post : List Instr} {i : Instr} (h : PathOwned ([], none) (pre ++ i :: post))
    (hi : ∀ t v, i ≠ .ret t v) :
    ∃ q t v s₁ s₂ s', post = q ++ [.ret t v] ∧ passAll ([], none) pre = some s₁ ∧ i.passOwned s₁ = some s₂ ∧
      passAll s₂ q = some s' ∧ returnOk s' t v = true := by
  obtain ⟨pre₀, t, v, s', he, hp, hr⟩ := h
  obtain ⟨q, rfl, rfl⟩ := eq_snoc_of_append_cons he (hi t v)
  rw [passAll_append] at hp
  obtain ⟨s₁, h₁, hp⟩ := Option.bind_eq_some_iff.mp hp
  rw [passAll_cons] at hp
  obtain ⟨s₂, h₂, h₃⟩ := Option.bind_eq_some_iff.mp hp
  exact ⟨q, t, v, s₁, s₂, s', rfl, h₁, h₂, h₃, hr⟩

end PathsAux

open PathsAux in
/-- A path that keeps ownership from owning nothing keeps the rules of string ownership. -/
theorem stringsManaged_of_pathOwned {tr : List Instr} (h : PathOwned ([], none) tr) : StringsManaged tr where
  freedOnce pre i post r he ho := by
    have hi : ∀ t v, i ≠ .ret t v := fun t v hr => by simp [hr, Instr.owns?] at ho
    subst he
    obtain ⟨q, t, v, s₁, s₂, s', rfl, h₁, h₂, h₃, hr⟩ := passAll_split h hi
    obtain ⟨-, hd, rfl⟩ := (passOwned_cases h₂).resolve_left fun ⟨r', he, _⟩ => by simp [he, Instr.owns?] at ho
    have hnew := hd r (Instr.dst_of_owns ho)
    have hcopy : i.copies? = none := by cases i <;> simp_all [Instr.owns?, Instr.copies?]
    have hn : (s₁.1 ++ i.owns?.toList).Nodup := by
      simpa [ho, List.nodup_append, nodup_passAll h₁ List.nodup_nil] using fun a ha => ne_of_mem_of_not_mem ha hnew
    have hlast : (pre ++ i :: (q ++ [.ret t v])).getLast? = some (.ret t v) := by
      rw [← List.cons_append, ← List.append_assoc, List.getLast?_append]
      rfl
    rw [hlast, Option.some_inj]
    rw [hcopy] at h₃
    exact untilDef_of_owned h₃ hr (by simp [ho]) hn (by simp)
  freesLive pre r post he := by
    subst he
    obtain ⟨q, t, v, s₁, s₂, s', -, h₁, h₂, -⟩ := passAll_split h fun t v => by simp
    obtain ⟨r', he, hm, -⟩ := (passOwned_cases h₂).resolve_right fun ⟨hu, _⟩ => hu _ rfl
    cases he
    exact liveOn_of_passAll h₁ r hm
  freesOwned v hv := by
    obtain ⟨pre, post, rfl⟩ := List.append_of_mem hv
    obtain ⟨q, t, v', s₁, s₂, s', -, h₁, h₂, -⟩ := passAll_split h fun t v => by simp
    obtain ⟨r, he, hm, -⟩ := (passOwned_cases h₂).resolve_right fun ⟨hu, _⟩ => hu _ rfl
    cases he
    obtain ⟨pre', i, mid, rfl, ho, -⟩ := liveOn_of_passAll h₁ r hm
    exact ⟨r, rfl, i, by simp, ho⟩
  returnsOwned pre v he := by
    obtain ⟨pre₀, t, v', s', he', hp, hr⟩ := h
    obtain ⟨rfl, h₂⟩ := List.append_inj' (he.symm.trans he') rfl
    cases List.singleton_inj.mp h₂
    cases v with
    | null => exact .inl rfl
    | reg r =>
      simp only [returnOk, Bool.or_eq_true, beq_iff_eq, Bool.and_eq_true, List.isEmpty_iff] at hr
      refine .inr ⟨r, rfl, ?_⟩
      rcases hr with hr | ⟨hr, hc⟩
      · exact .inl (liveOn_of_passAll hp r (by simp [hr]))
      · obtain ⟨L, c⟩ := s'
        simp only at hc
        subst hc
        exact .inr (copied_of_passAll hp)
    | _ => simp [returnOk] at hr

/-! ## Checking a body once -/

/-- The flow of owned strings through the code of a function body, given the strings owned where each label is
placed: from the state where the code starts (none right after a terminator) to the state where it ends. It is none
where the code breaks ownership, where a jump or a branch arrives at a label owning other strings than the label's,
and where a block runs into a label without a terminator. -/
def flow (S : Label → List Reg) : Option (List Reg × Option Reg) → List Item → Option (Option (List Reg × Option Reg))
  | o, [] => some o
  | none, .label l :: rest => flow S (some (S l, none)) rest
  | some s, .instr (.jump l) :: rest => if s.1 = S l then flow S none rest else none
  | some s, .instr (.branch _ l₁ l₂) :: rest => if s.1 = S l₁ ∧ s.1 = S l₂ then flow S none rest else none
  | some s, .instr (.ret t v) :: rest => if returnOk s t v then flow S none rest else none
  | some s, .instr i :: rest => (i.passOwned s).bind fun s' => flow S (some s') rest
  | _, _ => none

variable {S : Label → List Reg}

/-- Code flows one piece after another through each. -/
theorem flow_append (o : Option (List Reg × Option Reg)) (a b : List Item) :
    flow S o (a ++ b) = (flow S o a).bind (flow S · b) := by
  induction a generalizing o with
  | nil => rfl
  | cons x a ih =>
    cases o with
    | none =>
      cases x with
      | label l => exact ih _
      | instr i => cases i <;> rfl
      | _ => rfl
    | some s =>
      cases x with
      | instr i =>
        cases i with
        | jump l => simp only [List.cons_append, flow]; split <;> simp [ih]
        | branch c l₁ l₂ => simp only [List.cons_append, flow]; split <;> simp [ih]
        | ret t v => simp only [List.cons_append, flow]; split <;> simp [ih]
        | _ => simp [flow, ih, Option.bind_assoc]
      | _ => rfl

/-- An instruction that does not terminate flows by passing the strings owned on. -/
theorem flow_instr {s : List Reg × Option Reg} {i : Instr} (hi : i.terminates = false) (rest : List Item) :
    flow S (some s) (.instr i :: rest) = (i.passOwned s).bind fun s' => flow S (some s') rest := by
  cases i <;> first | rfl | simp [Instr.terminates] at hi

/-- Freeing owned strings, each once, forgets them one by one. -/
theorem flow_frees {rs L : List Reg} {c : Option Reg} (hn : rs.Nodup) (hs : ∀ r ∈ rs, r ∈ L) (rest : List Item) :
    flow S (some (L, c)) (rs.map (fun r => .instr (.free (.reg r))) ++ rest) =
      flow S (some (rs.foldl List.erase L, c)) rest := by
  induction rs generalizing L with
  | nil => rfl
  | cons r rs ih =>
    obtain ⟨hr, hn⟩ := List.nodup_cons.mp hn
    have hL : r ∈ L := hs r List.mem_cons_self
    rw [List.map_cons, List.cons_append, flow_instr rfl]
    simp only [Instr.passOwned, hL, if_true, Option.bind_some, List.foldl_cons]
    refine ih hn fun r' hr' => ?_
    have hne : r' ≠ r := fun he => hr (he ▸ hr')
    exact (List.mem_erase_of_ne hne).mpr (hs r' (List.mem_cons_of_mem r hr'))

/-- Where code that flows places a label, what follows flows from the strings the label owns. -/
theorem flow_after_label {o o' : Option (List Reg × Option Reg)} {body pre post : List Item} {l : Label}
    (h : flow S o body = some o') (he : body = pre ++ .label l :: post) :
    ∃ o'', flow S (some (S l, none)) post = some o'' := by
  subst he
  rw [flow_append] at h
  obtain ⟨o₁, -, h⟩ := Option.bind_eq_some_iff.mp h
  -- code that flows reaches a label only after a terminator
  cases o₁ with
  | none => exact ⟨o', h⟩
  | some s => cases h

/-- In a body whose code flows from each place of a label, every path from a point where the code flows keeps
ownership. -/
theorem pathOwned_of_flow {body : List Item}
    (hb : ∀ pre l post, body = pre ++ .label l :: post → ∃ o, flow S (some (S l, none)) post = some o)
    {code : List Item} {tr : List Instr} (h : Path body code tr) :
    ∀ s o, flow S (some s) code = some o → PathOwned s tr := by
  induction h with
  | @ret t v rest =>
    intro s o hs
    have hr : returnOk s t v = true := by
      by_contra hr
      simp [flow, hr] at hs
    exact ⟨[], t, v, s, rfl, rfl, hr⟩
  | @step i rest tr hi _ ih =>
    intro s o hs
    rw [flow_instr hi] at hs
    obtain ⟨s₁, h₁, hs⟩ := Option.bind_eq_some_iff.mp hs
    obtain ⟨pre, t, v, s', rfl, hp, hr⟩ := ih s₁ o hs
    exact ⟨i :: pre, t, v, s', rfl, by rw [passAll_cons, h₁]; exact hp, hr⟩
  | label _ _ => intro s o hs; cases hs
  | @jump l rest pre post tr he _ ih =>
    intro s o hs
    have hl : s.1 = S l := by
      by_contra hl
      simp [flow, hl] at hs
    obtain ⟨o', ho⟩ := hb pre l post he
    obtain ⟨pre', t, v, s', rfl, hp, hr⟩ := ih (S l, none) o' ho
    exact ⟨.jump l :: pre', t, v, s', rfl, by simpa [passAll_cons, Instr.passOwned, Instr.dst?, Instr.def?, hl] using hp, hr⟩
  | @branch c l₁ l₂ l rest pre post tr hl he _ ih =>
    intro s o hs
    have hs' : s.1 = S l₁ ∧ s.1 = S l₂ := by
      by_contra hs'
      simp [flow, hs'] at hs
    have hl' : s.1 = S l := by
      rcases hl with rfl | rfl
      exacts [hs'.1, hs'.2]
    obtain ⟨o', ho⟩ := hb pre l post he
    obtain ⟨pre', t, v, s', rfl, hp, hr⟩ := ih (S l, none) o' ho
    exact ⟨.branch c l₁ l₂ :: pre', t, v, s', rfl,
      by simpa [passAll_cons, Instr.passOwned, Instr.dst?, Instr.def?, hl'] using hp, hr⟩

/-- Every path of a body whose code flows from its start, owning nothing, keeps the rules of string ownership. -/
theorem stringsManaged_of_flow {body : List Item} {o : Option (List Reg × Option Reg)}
    (h : flow S (some ([], none)) body = some o) {tr : List Instr} (hp : Path body body tr) : StringsManaged tr :=
  stringsManaged_of_pathOwned (pathOwned_of_flow (fun _ _ _ he => flow_after_label h he) hp _ _ h)

end Lowering
