import Lowering.Proofs.ManagedStrings

/-!
# String scopes nest

A generator keeps the strings the current function owns, oldest first, and a stack of marks, one per open string
scope: how many strings were owned when the scope opened. Whatever a session does, and whether each emit succeeds or
fails, the marks go down from the innermost scope outwards and none is past the number of strings owned; and a
successful lowering of a function body closes every scope it opens, so that the body ends with none open
(`session_scopes_nest`).

The invariant is `Generator.ScopesNest`, and every move of lowering keeps it (`Generator.ScopesNest.move`), so every
step does, whether it succeeds or fails. Few moves touch the marks or the strings owned: owning a new string, opening
and closing a scope, a return forgetting the strings of the innermost scope, and a definition, which starts its body
owning nothing with no scope open and, if the body falls off its end, frees every string owned and owns none. That last
move keeps the marks within the strings owned only because the body has left no scope open, which a successful body
never does (`Program.body_marks`, from `Owned.shrinks` through `owned_walk`); a failed body may leave scopes open, but
then the definition stops there.
-/

set_option mvcgen.warning false

namespace Lowering

open Std.Do Ir Generator

/-! ## Every move keeps the scopes nested -/

/-- A function body lowered successfully leaves no string scope open: it starts with none, and closes every scope it
opens (`Owned.shrinks`). -/
theorem Program.body_marks {p : Program} {n : Nat} {f : FunctionId} {b : NodeId} {g g₁ : Generator}
    (h : Runs ((p.walk n).emit b) (p.bodyStart f g) () g₁) : g₁.marks = [] := by
  obtain ⟨M, t⟩ := (Program.owned_walk n).emit h (owning_bodyStart f g)
  exact List.suffix_nil.mp (by simpa [Program.bodyStart] using t.shrinks)

namespace Generator

section Items

variable (g : Generator)

/-- Items leave the string scopes alone. -/
@[simp] theorem withItems_marks (is : List Item) : (g.withItems is).marks = g.marks := by
  induction is generalizing g with
  | nil => rfl
  | cons i is ih => exact ih _

/-- Writing the queued constants leaves the string scopes alone. -/
@[simp] theorem withConstantsWritten_marks : g.withConstantsWritten.marks = g.marks := by
  simp [withConstantsWritten]

/-- Writing the runtime's prototypes leaves the string scopes alone. -/
@[simp] theorem withRuntimeWritten_marks : g.withRuntimeWritten.marks = g.marks := by
  unfold withRuntimeWritten; split <;> simp [withBlank]

end Items

variable {g : Generator}

/-- A step that leaves the marks and the strings owned alone keeps the scopes nested. -/
theorem ScopesNest.keep (h : g.ScopesNest) {g' : Generator} (hm : g'.marks = g.marks) (ho : g'.owned = g.owned) :
    g'.ScopesNest :=
  h.frame hm (Nat.le_of_eq (congrArg List.length ho).symm)

/-- The end of a function body leaves the marks it found: it frees strings but opens and closes no scope. -/
theorem bodyEnd_marks {p : Program} (f : FunctionId) (g₀ : Generator) : (p.bodyEnd f g₀ g).marks = g.marks := by
  simp only [Program.bodyEnd, withRuntimeWritten_marks]
  unfold withEpilogue
  split <;> simp [withBlank, withItem]

/-- Every move keeps the scopes nested. Few moves touch the marks or the strings owned: owning a string, opening and
closing a scope, a return forgetting the strings of the innermost scope, and a definition, which starts its body owning
nothing with no scope open. The end of a definition frees every string owned and owns none, which keeps the marks
within the strings owned only because the body it follows has left no scope open, as a successful body never does
(`Owned.shrinks`, through `owned_walk`). -/
theorem ScopesNest.move {p : Program} {g' : Generator} (hm : p.Move g g') (h : g.ScopesNest) : g'.ScopesNest := by
  cases hm with
  | own r => exact h.withOwned r
  | openScope => exact h.withScope
  | closeScope => exact h.withoutScope
  | dropInner => exact h.withoutInner
  | start f => exact .of_nil (by simp [Program.bodyStart])
  | finish n f b hb => exact .of_nil ((bodyEnd_marks f _).trans (Program.body_marks hb))
  | banner c => exact h.keep (by unfold withBanner; split <;> rfl) (by simp)
  | literal id raw t _ _ =>
    exact h.keep (by simp [withLiteral, withFresh, withConstant, Generator.withValue])
      (by simp [withLiteral, withFresh, withConstant, Generator.withValue])
  | declare _ _ | label _ | newLabel | fresh _ | value _ _ _ | instr _ _ _ | call _ _ | terminate _ _ _ | frees _ =>
    exact h.keep (by first | rfl | simp [withRuntime]) (by first | rfl | simp [withRuntime])

end Generator

namespace Program

variable {p : Program}

/-! ## Sessions -/

/-- Whatever a session emits, and whether each emit succeeds or fails, the marks of the open string scopes go down
from the innermost outwards and none is past the number of strings owned. A successful lowering of a node, from a
generator that owns strings soundly, closes every scope it opens: the marks it leaves are those it found, less those
that a definition inside dropped, and exactly those when the node reaches only local nodes. A function body lowered
successfully thus leaves no scope open. -/
theorem session_scopes_nest (layout : Layout) (steps : List SessionStep) :
    (let g := (Generator.new layout).afterSteps p steps
     g.marks.Pairwise (· ≥ ·) ∧ ∀ m ∈ g.marks, m ≤ g.owned.length) ∧
    (∀ n id g g', g.Owning → Runs ((p.walk n).emit id) g () g' →
      g'.marks <:+ g.marks ∧ (p.Within p.Local id → g'.marks = g.marks)) ∧
    ∀ n f b g g₁, Runs ((p.walk n).emit b) (p.bodyStart f g) () g₁ → g₁.marks = [] := by
  have hs : ((Generator.new layout).afterSteps p steps).ScopesNest :=
    keeps_afterSteps (walk_keeps_of_moves (fun _ _ hm h => h.move hm) _).emit (ScopesNest.of_nil rfl) steps
  refine ⟨⟨hs.sorted, hs.within⟩, fun n id g g' hT h => ?_, fun n f b g g₁ h => body_marks h⟩
  obtain ⟨M, t⟩ := (owned_walk n).emit h hT
  exact ⟨t.shrinks, t.marks⟩

end Program

end Lowering
