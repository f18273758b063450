import Lowering.Codegen.Emit

/-!
# Running a lowering step

`Runs x g a g'` says that the lowering step `x`, started from the generator `g`, succeeds with `a` and leaves `g'`.
Every statement about lowering is about such runs: a claim holds of whatever a successful run produces.

The steps that cannot fail (writing a line, placing a label, opening a string scope, ...) are given here as plain
functions of the generator, `Generator.withInstr` and its siblings, each with the equation that says the monadic step
computes it. Later proofs read the lines and fields of these functions and never unfold the steps again.
-/

namespace Lowering

open Ir

/-- The step `x`, started from `g`, succeeds with `a` and leaves `g'`. -/
def Runs {α : Type} (x : GenM α) (g : Generator) (a : α) (g' : Generator) : Prop :=
  x.run.run g = (.ok a, g')

/-! ## The monad -/

namespace Runs

/-- A sequence runs its first step, and on success the rest from where the first left off. -/
theorem run_bind {α β : Type} (x : GenM α) (f : α → GenM β) (g : Generator) :
    (x >>= f).run.run g = match x.run.run g with
      | (.ok a, g') => (f a).run.run g'
      | (.error e, g') => (.error e, g') := by
  rw [ExceptT.run_bind, StateT.run_bind]
  rcases x.run.run g with ⟨_ | _, _⟩ <;> rfl

/-- Reading the generator gives it and changes nothing. -/
theorem run_get (g : Generator) : (get : GenM Generator).run.run g = (.ok g, g) := rfl

/-- Setting the generator replaces it. -/
theorem run_set (g g' : Generator) : (set g' : GenM PUnit).run.run g = (.ok ⟨⟩, g') := rfl

/-- Changing the generator applies the change. -/
theorem run_modify (f : Generator → Generator) (g : Generator) :
    (modify f : GenM PUnit).run.run g = (.ok ⟨⟩, f g) := rfl

/-- Returning a value leaves the generator as it was. -/
theorem run_pure {α : Type} (a : α) (g : Generator) : (pure a : GenM α).run.run g = (.ok a, g) := rfl

/-- A refusal fails with its error and changes nothing. -/
theorem run_throw {α : Type} (e : CodegenError) (g : Generator) : (throw e : GenM α).run.run g = (.error e, g) := rfl

/-- A sequence succeeds when its first step does and the rest succeeds from where the first left off. -/
theorem bind_iff {α β : Type} {x : GenM α} {f : α → GenM β} {g : Generator} {b : β} {g'' : Generator} :
    Runs (x >>= f) g b g'' ↔ ∃ a g', Runs x g a g' ∧ Runs (f a) g' b g'' := by
  unfold Runs
  rw [run_bind]
  constructor
  · intro h
    rcases hx : x.run.run g with ⟨r, g'⟩
    rw [hx] at h
    cases r with
    | error e => cases h
    | ok a => exact ⟨a, g', rfl, h⟩
  · rintro ⟨a, g', hx, hf⟩
    rw [hx]
    exact hf

/-- After a step whose run is known, a sequence goes on with its result from where it left off. -/
theorem bind_of_run {α β : Type} {x : GenM α} {f : α → GenM β} {g g₁ g' : Generator} {a : α} {b : β}
    (hx : x.run.run g = (.ok a, g₁)) : Runs (x >>= f) g b g' ↔ Runs (f a) g₁ b g' := by
  unfold Runs
  rw [run_bind, hx]

/-- A step whose run is known succeeds exactly with that result. -/
theorem iff_of_run {α : Type} {x : GenM α} {g : Generator} {a : α} {g₁ : Generator} (h : x.run.run g = (.ok a, g₁))
    {b : α} {g' : Generator} : Runs x g b g' ↔ b = a ∧ g' = g₁ := by
  unfold Runs
  rw [h, Prod.mk.injEq, Except.ok.injEq]
  exact ⟨fun ⟨h1, h2⟩ => ⟨h1.symm, h2.symm⟩, fun ⟨h1, h2⟩ => ⟨h1.symm, h2.symm⟩⟩

/-- Returning a value succeeds with it and changes nothing. -/
theorem pure_iff {α : Type} {a b : α} {g g' : Generator} : Runs (pure a) g b g' ↔ a = b ∧ g = g' :=
  (iff_of_run rfl).trans ⟨fun ⟨h1, h2⟩ => ⟨h1.symm, h2.symm⟩, fun ⟨h1, h2⟩ => ⟨h1.symm, h2.symm⟩⟩

/-- Reading the generator succeeds with it and changes nothing. -/
theorem get_iff {g g₁ g' : Generator} : Runs get g g₁ g' ↔ g = g₁ ∧ g = g' :=
  (iff_of_run rfl).trans ⟨fun ⟨h1, h2⟩ => ⟨h1.symm, h2.symm⟩, fun ⟨h1, h2⟩ => ⟨h1.symm, h2.symm⟩⟩

/-- Reading the state and going on with it is going on with the state. -/
theorem get_bind_iff {β : Type} {f : Generator → GenM β} {g g' : Generator} {b : β} :
    Runs (get >>= f) g b g' ↔ Runs (f g) g b g' := by
  rw [bind_iff]
  constructor
  · rintro ⟨_, _, hg, h⟩
    obtain ⟨rfl, rfl⟩ := get_iff.mp hg
    exact h
  · intro h
    exact ⟨g, g, get_iff.mpr ⟨rfl, rfl⟩, h⟩

/-- Changing the generator succeeds with the change applied. -/
theorem modify_iff {f : Generator → Generator} {g g' : Generator} {u : PUnit} : Runs (modify f) g u g' ↔ g' = f g :=
  (iff_of_run rfl).trans (and_iff_right rfl)

/-- A refusal never succeeds. -/
theorem throw_false {α : Type} {e : CodegenError} {g g' : Generator} {a : α} : ¬Runs (throw e) g a g' := by
  intro h
  cases h

/-- A choice of two steps runs the one its condition picks. -/
theorem ite_iff {α : Type} {c : Prop} [Decidable c] {x y : GenM α} {g g' : Generator} {a : α} :
    Runs (if c then x else y) g a g' ↔ (c ∧ Runs x g a g') ∨ (¬c ∧ Runs y g a g') := by
  by_cases hc : c <;> simp [hc]

/-- The steps of a loop over a list, one after another. -/
theorem forM_cons {α : Type} {f : α → GenM PUnit} {x : α} {xs : List α} {g g' : Generator} {u : PUnit} :
    Runs ((x :: xs).forM f) g u g' ↔ ∃ g₁, Runs (f x) g ⟨⟩ g₁ ∧ Runs (xs.forM f) g₁ ⟨⟩ g' := by
  rw [List.forM_eq_forM, List.forM_cons, bind_iff]
  constructor
  · rintro ⟨⟨⟩, g₁, h1, h2⟩
    exact ⟨g₁, h1, h2⟩
  · rintro ⟨g₁, h1, h2⟩
    exact ⟨⟨⟩, g₁, h1, h2⟩

/-- A loop over no items changes nothing. -/
theorem forM_nil {α : Type} {f : α → GenM PUnit} {g g' : Generator} {u : PUnit} :
    Runs (([] : List α).forM f) g u g' ↔ g = g' := by
  rw [List.forM_eq_forM, List.forM_nil, pure_iff]
  exact and_iff_right rfl

/-- Dropping a step's value is running it and returning nothing. -/
theorem discard_eq {α : Type} (x : GenM α) : discard x = x >>= fun _ => pure () := by
  show Functor.mapConst () x = _
  rw [LawfulFunctor.map_const, Function.comp_apply, map_eq_pure_bind]

/-- A step run for its effect succeeds when the step does. -/
theorem discard_iff {α : Type} {x : GenM α} {g g' : Generator} {u : PUnit} :
    Runs (discard x) g u g' ↔ ∃ a, Runs x g a g' := by
  rw [discard_eq, bind_iff]
  constructor
  · rintro ⟨a, g₁, hx, h⟩
    obtain ⟨-, rfl⟩ := pure_iff.mp h
    exact ⟨a, hx⟩
  · rintro ⟨a, hx⟩
    exact ⟨a, g', hx, pure_iff.mpr ⟨rfl, rfl⟩⟩

end Runs

/-! ## The steps that cannot fail -/

namespace Generator

/-- The generator with an item written at the current level. -/
def withItem (g : Generator) (i : Item) : Generator := { g with lines := g.lines.push (.item g.depth i) }

/-- The generator with a blank line written. -/
def withBlank (g : Generator) : Generator := { g with lines := g.lines.push .blank }

/-- The generator with a block started at a label. -/
def withLabel (g : Generator) (l : Label) : Generator :=
  { g with
    lines := (if g.layout.annotate then g.lines.push .blank else g.lines).push (.item (g.depth - 1) (.label l))
    closed := false }

/-- The generator with a construct's banner written, when annotating. -/
def withBanner (g : Generator) (c : Construct) : Generator :=
  if g.layout.annotate then { g with lines := (g.lines.push .blank).push (.item (g.depth - 1) (.banner c)) } else g

/-- The generator with the next `n` labels taken. -/
def withLabels (g : Generator) (n : Nat) : Generator := { g with labels := g.labels + n }

/-- The generator with an instruction written into the current block, or into a fresh block after a terminator. -/
def withInstr (g : Generator) (i : Instr) : Generator :=
  (if g.closed then (g.withLabels 1).withLabel ⟨g.labels⟩ else g).withItem (.instr i)

/-- The generator with a terminator written: the block has ended. -/
def withTerminator (g : Generator) (i : Instr) : Generator := { g.withInstr i with closed := true }

/-- The generator after falling through to a label: nothing once the block has ended. -/
def withJump (g : Generator) (l : Label) : Generator := if g.closed then g else g.withTerminator (.jump l)

/-- The generator with the strings in the registers freed, in order. -/
def withFrees (g : Generator) (rs : List Reg) : Generator :=
  rs.foldl (fun g r => { g.withInstr (.free (.reg r)) with runtimeUsed := true }) g

/-- The generator with a string scope opened. -/
def withScope (g : Generator) : Generator := { g with marks := g.owned.length :: g.marks }

/-- The generator with the innermost string scope closed: its strings are no longer owned, and are freed unless the
block has ended. -/
def withoutScope (g : Generator) : Generator :=
  if g.marks.headD 0 < g.owned.length then
    let g₁ := { g with marks := g.marks.tail, owned := g.owned.take (g.marks.headD 0) }
    if g.closed then g₁ else g₁.withFrees (g.owned.drop (g.marks.headD 0))
  else { g with marks := g.marks.tail }

/-- The counter the next register of a base gets. -/
def nextIndex (g : Generator) (base : String) : Nat := g.counters.getD base 0 + 1

/-- The generator with the next register of a base taken. -/
def withFresh (g : Generator) (base : String) : Generator :=
  { g with counters := g.counters.insert base (g.nextIndex base) }

/-- The generator with the operand of an expression node recorded. -/
def withValue (g : Generator) (id : NodeId) (v : Value) : Generator := { g with values := g.values.insert id v }

/-- The generator owning one more heap string. -/
def withOwned (g : Generator) (r : Reg) : Generator := { g with owned := g.owned ++ [r] }

/-- The generator that knows lowered code calls the runtime. -/
def withRuntime (g : Generator) : Generator := { g with runtimeUsed := true }

/-- The generator with a string constant queued. -/
def withConstant (g : Generator) (r : Reg) (bytes : List UInt8) : Generator :=
  { g with pending := g.pending.push (r, bytes) }

/-- Writing an item cannot fail: it is `withItem`. -/
theorem run_write (i : Item) (g : Generator) : (write i).run.run g = (.ok (), g.withItem i) := rfl

/-- Writing a blank line cannot fail: it is `withBlank`. -/
theorem run_writeBlank (g : Generator) : writeBlank.run.run g = (.ok (), g.withBlank) := rfl

/-- Placing a label cannot fail: it is `withLabel`. -/
theorem run_placeLabel (l : Label) (g : Generator) : (placeLabel l).run.run g = (.ok (), g.withLabel l) := rfl

/-- A banner cannot fail: it is `withBanner`. -/
theorem run_banner (c : Construct) (g : Generator) : (banner c).run.run g = (.ok (), g.withBanner c) := rfl

/-- Taking a label cannot fail: it gives the next label and counts it. -/
theorem run_newLabel (g : Generator) : newLabel.run.run g = (.ok ⟨g.labels⟩, g.withLabels 1) := rfl

/-- Taking a register cannot fail: it gives the next of its base and counts it. -/
theorem run_fresh (base : String) (g : Generator) :
    (fresh base).run.run g = (.ok ⟨base, g.nextIndex base⟩, g.withFresh base) := rfl

/-- Recording an operand cannot fail: it gives the operand back and records it. -/
theorem run_remember (id : NodeId) (v : Value) (g : Generator) :
    (remember id v).run.run g = (.ok v, g.withValue id v) := rfl

/-- Owning a string cannot fail: it is `withOwned`. -/
theorem run_own (r : Reg) (g : Generator) : (own r).run.run g = (.ok (), g.withOwned r) := rfl

/-- Marking the runtime used cannot fail: it is `withRuntime`. -/
theorem run_useRuntime (g : Generator) : useRuntime.run.run g = (.ok (), g.withRuntime) := rfl

/-- Queueing a constant cannot fail: it is `withConstant`. -/
theorem run_queueConstant (r : Reg) (bytes : List UInt8) (g : Generator) :
    (queueConstant r bytes).run.run g = (.ok (), g.withConstant r bytes) := rfl

/-- Opening a string scope cannot fail: it is `withScope`. -/
theorem run_openScope (g : Generator) : openScope.run.run g = (.ok (), g.withScope) := rfl

/-- Writing an instruction cannot fail: it is `withInstr`, with a fresh label first if the block is closed. -/
theorem run_instr (i : Instr) (g : Generator) : (instr i).run.run g = (.ok (), g.withInstr i) := by
  unfold instr withInstr
  by_cases h : g.closed
  · simp only [Runs.run_bind, Runs.run_get, h, if_true]
    rfl
  · simp only [Runs.run_bind, Runs.run_get, h, Bool.false_eq_true, if_false]
    rfl

/-- Writing a terminator cannot fail: it is `withTerminator`. -/
theorem run_terminate (i : Instr) (g : Generator) : (terminate i).run.run g = (.ok (), g.withTerminator i) := by
  unfold terminate
  rw [Runs.run_bind, run_instr]
  rfl

/-- A jump cannot fail: it is `withJump`, nothing if the block is closed. -/
theorem run_jump (l : Label) (g : Generator) : (jump l).run.run g = (.ok (), g.withJump l) := by
  unfold jump withJump
  by_cases h : g.closed
  · simp only [Runs.run_bind, Runs.run_get, h]
    rfl
  · simp only [Runs.run_bind, Runs.run_get, h]
    exact run_terminate _ _

/-- A branch cannot fail: it is a terminator to its two labels. -/
theorem run_branch (c : Value) (l₁ l₂ : Label) (g : Generator) :
    (branch c l₁ l₂).run.run g = (.ok (), g.withTerminator (.branch c l₁ l₂)) :=
  run_terminate _ _

/-- Freeing strings cannot fail: it is `withFrees`. -/
theorem run_freeAll (rs : List Reg) (g : Generator) : (freeAll rs).run.run g = (.ok (), g.withFrees rs) := by
  induction rs generalizing g with
  | nil => rfl
  | cons r rs ih =>
    unfold freeAll at ih ⊢
    rw [List.forM_eq_forM, List.forM_cons, Runs.run_bind, Runs.run_bind, run_instr]
    exact ih _

/-- Freeing every string owned cannot fail: it owns none after, and frees those it owned. -/
theorem run_freeOwned (g : Generator) : freeOwned.run.run g = (.ok (), { g with owned := [] }.withFrees g.owned) := by
  unfold freeOwned
  simp only [Runs.run_bind, Runs.run_get, Runs.run_modify]
  exact run_freeAll _ _

/-- Closing a string scope cannot fail: it is `withoutScope`. -/
theorem run_closeScope (g : Generator) : closeScope.run.run g = (.ok (), g.withoutScope) := by
  unfold closeScope withoutScope
  by_cases hm : g.marks.headD 0 < g.owned.length
  · by_cases hc : g.closed
    · simp only [Runs.run_bind, Runs.run_get, Runs.run_set, Runs.run_modify, hm, hc, if_true]
      rfl
    · simp only [Runs.run_bind, Runs.run_get, Runs.run_set, Runs.run_modify, hm, hc, if_true]
      exact run_freeAll _ _
  · simp only [Runs.run_bind, Runs.run_get, Runs.run_set, hm, if_false]
    rfl

/-- The register a base names next. -/
def nextReg (g : Generator) (base : String) : Reg := ⟨base, g.nextIndex base⟩

/-! ### Fields the steps keep -/

/-- Taking labels counts them in the generator. -/
@[simp] theorem withLabels_labels (g : Generator) (n : Nat) : (g.withLabels n).labels = g.labels + n := rfl

/-- Taking labels twice is taking them all at once. -/
@[simp] theorem withLabels_withLabels (g : Generator) (m n : Nat) : (g.withLabels m).withLabels n = g.withLabels (m + n) := by
  simp only [withLabels, Nat.add_assoc]

/-- A banner takes no label. -/
@[simp] theorem withBanner_labels (g : Generator) (c : Construct) : (g.withBanner c).labels = g.labels := by
  unfold withBanner
  split <;> rfl

/-! ### The same steps as runs -/

/-- Writing an item succeeds exactly with `withItem`. -/
@[simp] theorem runs_write {i : Item} {g g' : Generator} {u : Unit} : Runs (write i) g u g' ↔ g' = g.withItem i :=
  (Runs.iff_of_run (run_write i g)).trans (and_iff_right rfl)

/-- Writing a blank line succeeds exactly with `withBlank`. -/
@[simp] theorem runs_writeBlank {g g' : Generator} {u : Unit} : Runs writeBlank g u g' ↔ g' = g.withBlank :=
  (Runs.iff_of_run (run_writeBlank g)).trans (and_iff_right rfl)

/-- Placing a label succeeds exactly with `withLabel`. -/
@[simp] theorem runs_placeLabel {l : Label} {g g' : Generator} {u : Unit} :
    Runs (placeLabel l) g u g' ↔ g' = g.withLabel l :=
  (Runs.iff_of_run (run_placeLabel l g)).trans (and_iff_right rfl)

/-- A banner succeeds exactly with `withBanner`. -/
@[simp] theorem runs_banner {c : Construct} {g g' : Generator} {u : Unit} :
    Runs (banner c) g u g' ↔ g' = g.withBanner c :=
  (Runs.iff_of_run (run_banner c g)).trans (and_iff_right rfl)

/-- Taking a label succeeds exactly with the next label, counted. -/
@[simp] theorem runs_newLabel {g g' : Generator} {l : Label} :
    Runs newLabel g l g' ↔ l = ⟨g.labels⟩ ∧ g' = g.withLabels 1 :=
  Runs.iff_of_run (run_newLabel g)

/-- Taking a register succeeds exactly with the next of its base, counted. -/
@[simp] theorem runs_fresh {base : String} {g g' : Generator} {r : Reg} :
    Runs (fresh base) g r g' ↔ r = g.nextReg base ∧ g' = g.withFresh base :=
  Runs.iff_of_run (run_fresh base g)

/-- Taking a temporary succeeds exactly with the next `tmp` register, counted. -/
@[simp] theorem runs_temp {g g' : Generator} {r : Reg} :
    Runs temp g r g' ↔ r = g.nextReg "tmp" ∧ g' = g.withFresh "tmp" :=
  Runs.iff_of_run (run_fresh "tmp" g)

/-- Recording an operand succeeds exactly with the operand, recorded. -/
@[simp] theorem runs_remember {id : NodeId} {v v' : Value} {g g' : Generator} :
    Runs (remember id v) g v' g' ↔ v' = v ∧ g' = g.withValue id v :=
  Runs.iff_of_run (run_remember id v g)

/-- Owning a string succeeds exactly with `withOwned`. -/
@[simp] theorem runs_own {r : Reg} {g g' : Generator} {u : Unit} : Runs (own r) g u g' ↔ g' = g.withOwned r :=
  (Runs.iff_of_run (run_own r g)).trans (and_iff_right rfl)

/-- Marking the runtime used succeeds exactly with `withRuntime`. -/
@[simp] theorem runs_useRuntime {g g' : Generator} {u : Unit} : Runs useRuntime g u g' ↔ g' = g.withRuntime :=
  (Runs.iff_of_run (run_useRuntime g)).trans (and_iff_right rfl)

/-- Queueing a constant succeeds exactly with `withConstant`. -/
@[simp] theorem runs_queueConstant {r : Reg} {bytes : List UInt8} {g g' : Generator} {u : Unit} :
    Runs (queueConstant r bytes) g u g' ↔ g' = g.withConstant r bytes :=
  (Runs.iff_of_run (run_queueConstant r bytes g)).trans (and_iff_right rfl)

/-- Opening a string scope succeeds exactly with `withScope`. -/
@[simp] theorem runs_openScope {g g' : Generator} {u : Unit} : Runs openScope g u g' ↔ g' = g.withScope :=
  (Runs.iff_of_run (run_openScope g)).trans (and_iff_right rfl)

/-- Closing a string scope succeeds exactly with `withoutScope`. -/
@[simp] theorem runs_closeScope {g g' : Generator} {u : Unit} : Runs closeScope g u g' ↔ g' = g.withoutScope :=
  (Runs.iff_of_run (run_closeScope g)).trans (and_iff_right rfl)

/-- Writing an instruction succeeds exactly with `withInstr`. -/
@[simp] theorem runs_instr {i : Instr} {g g' : Generator} {u : Unit} : Runs (instr i) g u g' ↔ g' = g.withInstr i :=
  (Runs.iff_of_run (run_instr i g)).trans (and_iff_right rfl)

/-- Writing a terminator succeeds exactly with `withTerminator`. -/
@[simp] theorem runs_terminate {i : Instr} {g g' : Generator} {u : Unit} :
    Runs (terminate i) g u g' ↔ g' = g.withTerminator i :=
  (Runs.iff_of_run (run_terminate i g)).trans (and_iff_right rfl)

/-- A jump succeeds exactly with `withJump`. -/
@[simp] theorem runs_jump {l : Label} {g g' : Generator} {u : Unit} : Runs (jump l) g u g' ↔ g' = g.withJump l :=
  (Runs.iff_of_run (run_jump l g)).trans (and_iff_right rfl)

/-- A branch succeeds exactly with its terminator. -/
@[simp] theorem runs_branch {c : Value} {l₁ l₂ : Label} {g g' : Generator} {u : Unit} :
    Runs (branch c l₁ l₂) g u g' ↔ g' = g.withTerminator (.branch c l₁ l₂) :=
  (Runs.iff_of_run (run_branch c l₁ l₂ g)).trans (and_iff_right rfl)

/-- Freeing strings succeeds exactly with `withFrees`. -/
@[simp] theorem runs_freeAll {rs : List Reg} {g g' : Generator} {u : Unit} :
    Runs (freeAll rs) g u g' ↔ g' = g.withFrees rs :=
  (Runs.iff_of_run (run_freeAll rs g)).trans (and_iff_right rfl)

/-- Freeing every string owned succeeds exactly with none owned and those freed. -/
@[simp] theorem runs_freeOwned {g g' : Generator} {u : Unit} :
    Runs freeOwned g u g' ↔ g' = { g with owned := [] }.withFrees g.owned :=
  (Runs.iff_of_run (run_freeOwned g)).trans (and_iff_right rfl)

/-- A step run inside a string scope: the scope is opened before and closed after. -/
theorem runs_inScope {α : Type} {x : GenM α} {g g' : Generator} {a : α} :
    Runs (inScope x) g a g' ↔ ∃ g₁, Runs x g.withScope a g₁ ∧ g' = g₁.withoutScope := by
  unfold inScope
  simp only [Runs.bind_iff, runs_openScope, runs_closeScope, Runs.pure_iff]
  constructor
  · rintro ⟨⟨⟩, _, rfl, b, g₁, hx, ⟨⟩, g₂, rfl, rfl, rfl⟩
    exact ⟨g₁, hx, rfl⟩
  · rintro ⟨g₁, hx, rfl⟩
    exact ⟨⟨⟩, _, rfl, a, g₁, hx, ⟨⟩, _, rfl, rfl, rfl⟩

/-- A sequence that starts with a step inside a string scope goes on from where the closed scope leaves off. -/
theorem runs_inScope_bind {α β : Type} {x : GenM α} {f : α → GenM β} {g g' : Generator} {b : β} :
    Runs (inScope x >>= f) g b g' ↔ ∃ a g₁, Runs x g.withScope a g₁ ∧ Runs (f a) g₁.withoutScope b g' := by
  rw [Runs.bind_iff]
  constructor
  · rintro ⟨a, _, hx, hf⟩
    rw [runs_inScope] at hx
    obtain ⟨g₁, hx, rfl⟩ := hx
    exact ⟨a, g₁, hx, hf⟩
  · rintro ⟨a, g₁, hx, hf⟩
    exact ⟨a, _, runs_inScope.mpr ⟨g₁, hx, rfl⟩, hf⟩

end Generator

end Lowering
