import Lowering.Proofs.Refinement.Statements

/-!
# Lowered control flow runs as the instructions do

The rules of lowering for instructions with parts: a choice, the three loops, and the dispatch of a node by its form.
Each construct's code is first described by where its pieces stand and how they lead into one another: a choice from
its test (`Program.ChoiceCode`), a `while` or `for` loop from its test (`Program.LoopCode`), a `do` loop from its body
(`Program.DoCode`). Its runs then follow the executions of the construct, by induction on the execution, and the
other way round, by induction on the steps left to a run that returns: each round of a loop that goes on takes a
step, so a run that returns ends its rounds.

`emits_walk` puts the rules together at every depth of the walk: lowering an instruction of the integer fragment met
for the first time writes code that runs as the instruction does.
-/

namespace Lowering

open Ir Generator

namespace Program

variable {p : Program} {σ : Setting}

/-- Code lowered inside a string scope that ends with no string owned runs as it does outside the scope. -/
theorem Emitted.unscoped {code : Code} {g g' : Generator} (h : p.Emitted σ code g.withScope g') :
    p.Emitted σ code g g'.withoutScope :=
  h.congr (mark_withScope g).symm (mark_withoutScope h.owned) (withoutScope_spilled_of h.owned)
    ((withoutScope_owned_of h.owned).trans h.owned.symm)

/-- An expression computed in the place of an instruction, as the step of a `for` loop is, runs as an instruction that
evaluates it, and it always has an outcome. -/
theorem Computed.emitted {cmp : Bool} {x : NodeId} {g g' : Generator} {v : Value} (c : p.Computed σ cmp x g v g')
    (ho : g.owned = []) : p.Emitted σ (.seq [x]) g g' ∧ ∀ ρ, ∃ o, p.Exec σ.params σ.init ρ (.seq [x]) o := by
  obtain ⟨r, hr⟩ := c.total ⟨fun _ => none, fun _ => 0⟩
  obtain ⟨e, t, hn⟩ := hr.node
  have hex : ∀ ρ r, p.Eval σ.params ρ x r → ∃ o, p.Exec σ.params σ.init ρ (.node x) o := by
    intro ρ r he
    rcases r with _ | ⟨a, ρ'⟩
    · exact ⟨_, .exprErr hn he⟩
    · exact ⟨_, .expr hn he⟩
  refine ⟨(emitted_of_eval c (fun _ _ => Exec.expr_inv hn) hex ho).single, fun ρ => ?_⟩
  obtain ⟨r, he⟩ := c.total ρ
  obtain ⟨o, xo⟩ := hex ρ r he
  exact ⟨o, Exec.single xo⟩

/-- The label after a test's branch stands past every mark up to the test's end: a loop's body starts after its
test. -/
theorem length_lt_label_terminate {a b : Mark} (h : a.Before b) (i : Instr) (l : Label) :
    a.code.length < ((b.terminate i).label l).code.length := by
  have hl := List.IsPrefix.length_le h
  simp only [Mark.label_code, List.length_append, List.length_singleton, Mark.terminate_code, Mark.instr_code]
  omega

/-! ## Where the pieces of a construct stand -/

variable (p σ) in
/-- The code of a choice from its test, which starts at mark `S`: the test leads to the then arm, lowered from `gt` to
`gt'`, or to the else arm, if any, lowered from `ge` to `ge'`; the end of either arm, when open, leads to mark `E`. -/
structure ChoiceCode (c t : NodeId) (e : Option NodeId) (S : Mark) (gt gt' ge ge' : Generator) (E : Mark) : Prop where
  test : ∀ ρ fr r, p.Stores σ.params σ.vars ρ fr → p.Eval σ.params ρ c r → p.TestRuns σ S gt.mark ge.mark fr r
  total : ∀ ρ, ∃ r, p.Eval σ.params ρ c r
  thenArm : p.Emitted σ (.node t) gt gt'
  elseArm : p.Emitted σ (.seq e.toList) ge ge'
  holdsThen : σ.site.Holds gt.mark ∧ σ.site.Holds gt'.mark
  holdsElse : σ.site.Holds ge.mark ∧ σ.site.Holds ge'.mark
  opened : gt.closed = false ∧ ge.closed = false
  thenEnd : gt'.closed = false → ∀ fr, σ.site.Flows σ.init gt'.mark E fr fr
  elseEnd : ge'.closed = false → ∀ fr, σ.site.Flows σ.init ge'.mark E fr fr
  finish : E.closed = false

section Choices

variable {id c t : NodeId} {e : Option NodeId} {S E : Mark} {gt gt' ge ge' : Generator}

/-- A choice's code runs as the choice does: the test, then the arm its value selects. -/
theorem ChoiceCode.runs (C : p.ChoiceCode σ c t e S gt gt' ge ge' E) (hn : p.ast.get? id = some (.stmt (.ite c t e)))
    {ρ : Env} {fr : Frame} {o : Outcome} (hfr : p.Stores σ.params σ.vars ρ fr)
    (hx : p.Exec σ.params σ.init ρ (.node id) o) : p.StmtRuns σ S E fr o := by
  rcases Exec.ite_inv hn hx with ⟨a, ρ₁, hc, ha, xt⟩ | ⟨ρ₁, hc, xe⟩ | ⟨hc, rfl⟩
  · obtain ⟨fr₁, ag, f, -⟩ := C.test ρ fr _ hfr hc
    exact StmtRuns.flows (f ha) (fun _ => C.opened.1)
      ((C.thenArm.runs C.holdsThen.1 C.holdsThen.2 ρ₁ fr₁ o ag xt).then_ C.opened.1 C.thenEnd C.finish)
  · obtain ⟨fr₁, ag, -, f⟩ := C.test ρ fr _ hfr hc
    exact StmtRuns.flows (f rfl) (fun _ => C.opened.2)
      ((C.elseArm.runs C.holdsElse.1 C.holdsElse.2 ρ₁ fr₁ o ag xe).then_ C.opened.2 C.elseEnd C.finish)
  · exact C.test ρ fr none hfr hc

/-- A run of a choice's code that returns belongs to an execution of the choice. -/
theorem ChoiceCode.ends (C : p.ChoiceCode σ c t e S gt gt' ge ge' E) (hn : p.ast.get? id = some (.stmt (.ite c t e)))
    {ρ : Env} {fr : Frame} {r : Int32 × (String → Int32)} (hfr : p.Stores σ.params σ.vars ρ fr)
    (hr : Ir.Returns σ.site.body σ.init (σ.site.rest S) fr r) : ∃ o, p.Exec σ.params σ.init ρ (.node id) o := by
  obtain ⟨rc, hc⟩ := C.total ρ
  rcases rc with _ | ⟨a, ρ₁⟩
  · exact ⟨_, .iteErr hn hc⟩
  obtain ⟨fr₁, ag, fT, fE⟩ := C.test ρ fr _ hfr hc
  by_cases ha : a = 0
  · subst ha
    obtain ⟨o, xe⟩ := C.elseArm.ends C.holdsElse.1 C.holdsElse.2 ρ₁ fr₁ r ag (Returns.steps (fE rfl) hr)
    exact ⟨o, .iteElse hn hc xe⟩
  · obtain ⟨o, xt⟩ := C.thenArm.ends C.holdsThen.1 C.holdsThen.2 ρ₁ fr₁ r ag (Returns.steps (fT ha) hr)
    exact ⟨o, .ite hn hc ha xt⟩

end Choices

variable (p σ) in
/-- The code of a `do` loop from its body, lowered from `gb` to `gb'`: the end of the body leads to the test, which
starts at mark `T` and leads back to the body or out of the loop to mark `E`. -/
structure DoCode (b c : NodeId) (T E : Mark) (gb gb' : Generator) : Prop where
  body : p.Emitted σ (.node b) gb gb'
  holds : σ.site.Holds gb.mark ∧ σ.site.Holds gb'.mark ∧ σ.site.Holds T
  opened : gb.closed = false
  next : gb'.closed = false → ∀ fr, σ.site.Flows σ.init gb'.mark T fr fr
  test : ∀ ρ fr r, p.Stores σ.params σ.vars ρ fr → p.Eval σ.params ρ c r → p.TestRuns σ T gb.mark E fr r
  total : ∀ ρ, ∃ r, p.Eval σ.params ρ c r
  finish : E.closed = false
  progress : gb.mark.code.length < T.code.length

section DoLoops

variable {id b c : NodeId} {T E : Mark} {gb gb' : Generator}

/-- A `do` loop's code runs as the loop does, one round after the other. -/
theorem DoCode.runs (L : p.DoCode σ b c T E gb gb') (hn : p.ast.get? id = some (.stmt (.doLoop b c))) {ρ : Env}
    {fr : Frame} {o : Outcome} (hfr : p.Stores σ.params σ.vars ρ fr) (hx : p.Exec σ.params σ.init ρ (.node id) o) :
    p.StmtRuns σ gb.mark E fr o := by
  generalize hk : Code.node id = k at hx
  induction hx generalizing fr with
  | doLoop hn' xb he ha _ _ ih =>
    cases hk
    rw [hn] at hn'
    cases hn'
    obtain ⟨fr₁, f₁, ag₁, cl₁⟩ := L.body.runs L.holds.1 L.holds.2.1 _ fr _ hfr xb
    obtain ⟨fr₂, ag₂, f₂, -⟩ := L.test _ fr₁ _ ag₁ he
    exact StmtRuns.flows ((f₁.trans (L.next (cl₁ L.opened) fr₁)).trans (f₂ ha)) (fun _ => L.opened) (ih ag₂ rfl)
  | doExit hn' xb he =>
    cases hk
    rw [hn] at hn'
    cases hn'
    obtain ⟨fr₁, f₁, ag₁, cl₁⟩ := L.body.runs L.holds.1 L.holds.2.1 _ fr _ hfr xb
    obtain ⟨fr₂, ag₂, -, f₂⟩ := L.test _ fr₁ _ ag₁ he
    exact ⟨fr₂, (f₁.trans (L.next (cl₁ L.opened) fr₁)).trans (f₂ rfl), ag₂, fun _ => L.finish⟩
  | doErr hn' xb he =>
    cases hk
    rw [hn] at hn'
    cases hn'
    obtain ⟨fr₁, f₁, ag₁, cl₁⟩ := L.body.runs L.holds.1 L.holds.2.1 _ fr _ hfr xb
    exact Fails.of_steps (f₁.trans (L.next (cl₁ L.opened) fr₁)) (L.test _ fr₁ none ag₁ he)
  | doBreak hn' xb hab =>
    cases hk
    rw [hn] at hn'
    cases hn'
    exact (L.body.runs L.holds.1 L.holds.2.1 _ fr _ hfr xb).abrupt hab
  | _ => cases hk <;> simp_all

/-- A run of a `do` loop's code that returns within `n` steps belongs to an execution of the loop: each round that
goes on passes the test, so the rounds come to an end. -/
theorem DoCode.ends (L : p.DoCode σ b c T E gb gb') (hn : p.ast.get? id = some (.stmt (.doLoop b c))) (n : Nat) :
    ∀ {ρ : Env} {fr : Frame} {r : Int32 × (String → Int32)}, p.Stores σ.params σ.vars ρ fr →
      run σ.site.body σ.init n (σ.site.rest gb.mark) fr = some r → ∃ o, p.Exec σ.params σ.init ρ (.node id) o := by
  induction n using Nat.strong_induction_on with
  | _ n ih =>
  intro ρ fr r hfr hr
  obtain ⟨o₁, xb⟩ := L.body.ends L.holds.1 L.holds.2.1 ρ fr r hfr ⟨n, hr⟩
  cases o₁ with
  | ret v ρ₁ => exact ⟨_, .doBreak hn xb trivial⟩
  | error => exact ⟨_, .doBreak hn xb trivial⟩
  | normal ρ₁ =>
    obtain ⟨fr₁, f₁, ag₁, cl₁⟩ := L.body.runs L.holds.1 L.holds.2.1 ρ fr _ hfr xb
    obtain ⟨rc, hc⟩ := L.total ρ₁
    rcases rc with _ | ⟨a, ρ₂⟩
    · exact ⟨_, .doErr hn xb hc⟩
    by_cases ha : a = 0
    · subst ha
      exact ⟨_, .doExit hn xb hc⟩
    obtain ⟨fr₂, ag₂, ft, -⟩ := L.test ρ₁ fr₁ _ ag₁ hc
    -- the round went back to the body with fewer steps left
    obtain ⟨m, hm, hr₁⟩ := σ.site.run_lt L.holds.2.2 L.progress (f₁.trans (L.next (cl₁ L.opened) fr₁)) hr
    obtain ⟨k, hk, hr₂⟩ := run_of_steps (ft ha) hr₁
    obtain ⟨o, xl⟩ := ih k (by omega) ag₂ hr₂
    exact ⟨o, .doLoop hn xb hc ha xl⟩

end DoLoops

/-! ## The rules for constructs -/

section Rules

variable {w : Walk}
  (hx : ∀ {id : NodeId} {g : Generator} {v : Value} {g' : Generator}, Runs (w.expr id) g v g' →
    p.Computes σ id g v g' ∧ p.Grows id g g')
  (he : ∀ {id : NodeId} {g g' : Generator}, Runs (w.emit id) g () g' → p.Emits σ id g g' ∧ p.Grows id g g')
include hx he

/-- A choice tests its condition, then runs the arm the value selects; both arms fall through to the end. -/
theorem emitted_lowerChoice {id c t : NodeId} {e : Option NodeId} (hn : p.ast.get? id = some (.stmt (.ite c t e)))
    {g g' : Generator} (h : Runs (p.lowerChoice w c t e) g () g') (hR : p.Ready σ id g) (ho : g.owned = []) :
    p.Emitted σ (.node id) g g' := by
  obtain ⟨v, g₁, g₂, g₃, hc, ht, hel, rfl⟩ := runs_lowerChoice h
  have Rc : p.Ready σ c ((g.withBanner .choice).withLabels 3).withScope :=
    (hR.child hn (by simp [Node.children])).of_values (fun x _ => by simp) (by simp [hR.spilled])
  have cc := computed_testOf hx hc Rc
  have kc := grows_testOf (fun h => (hx h).2) hc
  have hc₁ : g₁.owned = [] := by simpa [ho] using cc.owned
  have hT : ((Node.stmt (.ite c t e)).children = [] ++ c :: [] ++ t :: e.toList) := rfl
  have Rt := hR.next hn hT (((ValuesKept.of_values (by simp)).trans kc.values).trans (.of_values (by simp)))
    (show (((g₁.withoutScope.withTerminator (.branch v ⟨g.labels⟩ ⟨g.labels + 1⟩)).withLabel ⟨g.labels⟩).withScope).spilled = σ.params
      by simp [withoutScope_spilled_of hc₁, cc.spilled])
  have Et₀ := (he ht).1 Rt (by simp [withoutScope_owned_of hc₁])
  have Et := Et₀.unscoped
  have kt := (he ht).2
  have EE : p.Emitted σ (.seq e.toList) ((g₂.withoutScope.withJump ⟨g.labels + 2⟩).withLabel ⟨g.labels + 1⟩) g₃ ∧
      ((g₂.withoutScope.withJump ⟨g.labels + 2⟩).withLabel ⟨g.labels + 1⟩).mark.Before g₃.mark := by
    cases e with
    | none =>
      subst hel
      exact ⟨emitted_nil (by simp [Et.spilled]) (by simp [Et.owned]), List.prefix_refl _⟩
    | some e =>
      obtain ⟨g₄, hel, rfl⟩ := hel
      have hC : ((Node.stmt (.ite c t (some e))).children = [] ++ c :: [t] ++ e :: []) := rfl
      have hE : ((Node.stmt (.ite c t (some e))).children = [c] ++ t :: [] ++ e :: []) := rfl
      -- the else arm is met after the then arm, which records nothing it reaches
      have Re : p.Ready σ e ((g₂.withoutScope.withJump ⟨g.labels + 2⟩).withLabel ⟨g.labels + 1⟩).withScope :=
        (hR.next hn hC (((ValuesKept.of_values (by simp)).trans kc.values).trans (.of_values (by simp)))
          (show (((g₁.withoutScope.withTerminator (.branch v ⟨g.labels⟩ ⟨g.labels + 1⟩)).withLabel
            ⟨g.labels⟩).withScope).spilled = σ.params by simp [withoutScope_spilled_of hc₁, cc.spilled])).of_values
          (fun x hx => by simpa using kt.values x fun hr => hR.tree.apart hn hE hr hx) (by simp [Et.spilled])
      have E₀ := (he hel).1 Re (by simp [Et.owned])
      refine ⟨E₀.unscoped.single, ?_⟩
      show _ <+: _
      rw [mark_withoutScope E₀.owned]
      simpa using (he hel).2.code
  have mT : ((g₁.withoutScope.withTerminator (.branch v ⟨g.labels⟩ ⟨g.labels + 1⟩)).withLabel ⟨g.labels⟩).mark =
      (g₁.mark.terminate (.branch v ⟨g.labels⟩ ⟨g.labels + 1⟩)).label ⟨g.labels⟩ := by
    simp [mark_withoutScope hc₁]
  have m₂ : g₂.withoutScope.mark = g₂.mark := mark_withoutScope Et₀.owned
  have C : σ.site.Holds g.mark → σ.site.Holds ((g₃.withJump ⟨g.labels + 2⟩).withLabel ⟨g.labels + 2⟩).mark →
      p.ChoiceCode σ c t e g.mark ((g₁.withoutScope.withTerminator (.branch v ⟨g.labels⟩ ⟨g.labels + 1⟩)).withLabel
        ⟨g.labels⟩) g₂.withoutScope ((g₂.withoutScope.withJump ⟨g.labels + 2⟩).withLabel ⟨g.labels + 1⟩) g₃
        ((g₃.withJump ⟨g.labels + 2⟩).withLabel ⟨g.labels + 2⟩).mark := by
    intro hH hH'
    rw [mark_withLabel] at hH'
    have hs := σ.site.holds_chain [g₁.mark, g₁.mark.terminate (.branch v ⟨g.labels⟩ ⟨g.labels + 1⟩),
      (g₁.mark.terminate (.branch v ⟨g.labels⟩ ⟨g.labels + 1⟩)).label ⟨g.labels⟩, g₂.mark,
      (g₂.withoutScope.withJump ⟨g.labels + 2⟩).mark, (g₂.withoutScope.withJump ⟨g.labels + 2⟩).mark.label ⟨g.labels + 1⟩,
      g₃.mark, (g₃.withJump ⟨g.labels + 2⟩).mark]
      (.cons_cons (by simpa [Mark.Before] using kc.code) <| .cons_cons (Mark.before_terminate _ _) <|
        .cons_cons (Mark.before_label _ _) <| .cons_cons (by simpa [Mark.Before, mark_withoutScope hc₁] using kt.code) <|
        .cons_cons (m₂ ▸ before_withJump _ _) <| .cons_cons (Mark.before_label _ _) <|
        .cons_cons (by simpa using EE.2) <| .cons_cons (before_withJump _ _) <| .cons_cons (Mark.before_label _ _) <|
        .singleton _) hH hH'
    simp only [List.mem_cons, List.not_mem_nil, or_false, forall_eq_or_imp, forall_eq] at hs
    obtain ⟨h₁, hB, hT, h₂, hJ, hE, h₃, hK⟩ := hs
    refine ⟨fun ρ fr r hfr he => ?_, cc.total, Et, EE.1, ⟨mT ▸ hT, m₂ ▸ h₂⟩, ⟨by rwa [mark_withLabel], h₃⟩, ⟨rfl, rfl⟩,
      fun hcl fr => ?_, fun _ fr => ?_, rfl⟩
    · have e₀ : (((g.withBanner .choice).withLabels 3).withScope).mark = g.mark.alloc 3 := by simp
      have ht := testRuns_branch cc (by rw [e₀]; exact hH) h₁ hB hB hT hJ hE hfr he
      rw [mT, mark_withLabel]
      rw [e₀] at ht
      exact ht
    · rw [mark_withLabel]
      exact σ.site.flows_jumpTo hcl hJ hK hH'
    · rw [mark_withLabel]
      exact σ.site.flows_fall hK hH'
  refine ⟨by simp [EE.1.spilled], by simp [EE.1.owned], fun hH hH' ρ fr o hfr hx => (C hH hH').runs hn hfr hx,
    fun hH hH' ρ fr r hfr hr => (C hH hH').ends hn hfr hr⟩

/-- A `while` loop enters its test, whose code leads into the body or out; the body leads back to the test. -/
theorem emitted_lowerWhile {id c b : NodeId} (hn : p.ast.get? id = some (.stmt (.whileLoop c b))) {g g' : Generator}
    (h : Runs (p.lowerWhile w c b) g () g') (hR : p.Ready σ id g) (ho : g.owned = []) : p.Emitted σ (.node id) g g' := by
  obtain ⟨v, g₁, g₂, hc, hb, rfl⟩ := runs_lowerWhile h
  have Rc : p.Ready σ c ((((g.withBanner .whileLoop).withLabels 3).withJump ⟨g.labels⟩).withLabel ⟨g.labels⟩).withScope :=
    (hR.child hn (by simp [Node.children])).of_values (fun x _ => by simp) (by simp [hR.spilled])
  have cc := computed_testOf hx hc Rc
  have kc := grows_testOf (fun h => (hx h).2) hc
  have hc₁ : g₁.owned = [] := by simpa [ho] using cc.owned
  have hB : ((Node.stmt (.whileLoop c b)).children = [] ++ c :: [] ++ b :: []) := rfl
  have Rb := hR.next hn hB (((ValuesKept.of_values (by simp)).trans kc.values).trans (.of_values (by simp)))
    (show (((g₁.withoutScope.withTerminator (.branch v ⟨g.labels + 1⟩ ⟨g.labels + 2⟩)).withLabel
      ⟨g.labels + 1⟩).withScope).spilled = σ.params by simp [withoutScope_spilled_of hc₁, cc.spilled])
  have Eb₀ := (he hb).1 Rb (by simp [withoutScope_owned_of hc₁])
  have kb := (he hb).2
  have mA : ((g.withBanner .whileLoop).withLabels 3).mark = g.mark.alloc 3 := by simp
  have mS : ((((g.withBanner .whileLoop).withLabels 3).withJump ⟨g.labels⟩).withLabel ⟨g.labels⟩).withScope.mark =
      (((g.withBanner .whileLoop).withLabels 3).withJump ⟨g.labels⟩).mark.label ⟨g.labels⟩ := by simp
  have mB : ((g₁.withoutScope.withTerminator (.branch v ⟨g.labels + 1⟩ ⟨g.labels + 2⟩)).withLabel ⟨g.labels + 1⟩).mark =
      (g₁.mark.terminate (.branch v ⟨g.labels + 1⟩ ⟨g.labels + 2⟩)).label ⟨g.labels + 1⟩ := by
    simp [mark_withoutScope hc₁]
  have m₂ : g₂.withoutScope.mark = g₂.mark := mark_withoutScope Eb₀.owned
  have L : σ.site.Holds g.mark → σ.site.Holds ((g₂.withoutScope.withJump ⟨g.labels⟩).withLabel ⟨g.labels + 2⟩).mark →
      (∀ fr, σ.site.Flows σ.init g.mark ((((g.withBanner .whileLoop).withLabels 3).withJump ⟨g.labels⟩).mark.label
        ⟨g.labels⟩) fr fr) ∧
      p.LoopCode σ c none b ((((g.withBanner .whileLoop).withLabels 3).withJump ⟨g.labels⟩).mark.label ⟨g.labels⟩)
        ((g₂.withoutScope.withJump ⟨g.labels⟩).withLabel ⟨g.labels + 2⟩).mark
        ((g₁.withoutScope.withTerminator (.branch v ⟨g.labels + 1⟩ ⟨g.labels + 2⟩)).withLabel ⟨g.labels + 1⟩)
        g₂.withoutScope := by
    intro hH hH'
    rw [mark_withLabel] at hH' ⊢
    have hs := σ.site.holds_chain [(((g.withBanner .whileLoop).withLabels 3).withJump ⟨g.labels⟩).mark,
      (((g.withBanner .whileLoop).withLabels 3).withJump ⟨g.labels⟩).mark.label ⟨g.labels⟩, g₁.mark,
      g₁.mark.terminate (.branch v ⟨g.labels + 1⟩ ⟨g.labels + 2⟩),
      (g₁.mark.terminate (.branch v ⟨g.labels + 1⟩ ⟨g.labels + 2⟩)).label ⟨g.labels + 1⟩, g₂.mark,
      (g₂.withoutScope.withJump ⟨g.labels⟩).mark]
      (.cons_cons (by simpa [Mark.Before] using before_withJump ((g.withBanner .whileLoop).withLabels 3) ⟨g.labels⟩) <|
        .cons_cons (Mark.before_label _ _) <| .cons_cons (by simpa [Mark.Before] using kc.code) <|
        .cons_cons (Mark.before_terminate _ _) <| .cons_cons (Mark.before_label _ _) <|
        .cons_cons (by simpa [Mark.Before, mark_withoutScope hc₁] using kb.code) <|
        .cons_cons (m₂ ▸ before_withJump _ _) <| .cons_cons (Mark.before_label _ _) <| .singleton _) hH hH'
    simp only [List.mem_cons, List.not_mem_nil, or_false, forall_eq_or_imp, forall_eq] at hs
    obtain ⟨hJ, hS, h₁, hT, hb, h₂, hK⟩ := hs
    refine ⟨fun fr => ?_, ⟨fun ρ fr r hfr he => ?_, cc.total, Eb₀.unscoped, ⟨mB ▸ hb, m₂ ▸ h₂⟩, rfl,
      fun ρ fr o hcl hfr hx => ?_, fun _ => ⟨_, .nil⟩, rfl, ?_⟩⟩
    · have f : σ.site.Flows σ.init ((g.withBanner .whileLoop).withLabels 3).mark _ fr fr := σ.site.flows_fall hJ hS
      rw [mA] at f
      exact f
    · have ht := testRuns_branch cc (by rw [mS]; exact hS) h₁ hT hT hb hK hH' hfr he
      rw [mS] at ht
      rw [mB]
      exact ht
    · rw [Exec.nil_inv hx]
      exact ⟨fr, σ.site.flows_jumpTo hcl hK hJ hS, hfr, fun _ => rfl⟩
    · rw [mB]
      exact length_lt_label_terminate (by simpa [Mark.Before] using kc.code) _ _
  refine ⟨by simp [Eb₀.unscoped.spilled], by simp [Eb₀.unscoped.owned], fun hH hH' ρ fr o hfr hx => ?_,
    fun hH hH' ρ fr r hfr hr => ?_⟩
  · obtain ⟨f, L⟩ := L hH hH'
    exact StmtRuns.flows (f fr) (fun _ => rfl) (L.runs hfr (Exec.while_inv hn hx))
  · obtain ⟨f, L⟩ := L hH hH'
    obtain ⟨k, hk⟩ := Returns.steps (f fr) hr
    obtain ⟨o, x⟩ := L.ends k hfr hk
    exact ⟨o, .whileLoop hn x⟩

/-- A `do` loop enters its body, which leads to the test; the test leads back to the body or out. -/
theorem emitted_lowerDo {id b c : NodeId} (hn : p.ast.get? id = some (.stmt (.doLoop b c))) {g g' : Generator}
    (h : Runs (p.lowerDo w b c) g () g') (hR : p.Ready σ id g) (ho : g.owned = []) : p.Emitted σ (.node id) g g' := by
  obtain ⟨g₁, v, g₂, hb, hc, rfl⟩ := runs_lowerDo h
  have Rb : p.Ready σ b ((((g.withBanner .doLoop).withLabels 3).withJump ⟨g.labels⟩).withLabel ⟨g.labels⟩).withScope :=
    (hR.child hn (by simp [Node.children])).of_values (fun x _ => by simp) (by simp [hR.spilled])
  have Eb₀ := (he hb).1 Rb (by simp [ho])
  have kb := (he hb).2
  have hB : ((Node.stmt (.doLoop b c)).children = [] ++ b :: [] ++ c :: []) := rfl
  have Rc := hR.next hn hB (((ValuesKept.of_values (by simp)).trans kb.values).trans (.of_values (by simp)))
    (show ((g₁.withoutScope.withJump ⟨g.labels + 1⟩).withLabel ⟨g.labels + 1⟩).withScope.spilled = σ.params by
      simp [Eb₀.unscoped.spilled])
  have cc := computed_testOf hx hc Rc
  have kc := grows_testOf (fun h => (hx h).2) hc
  have hc₂ : g₂.owned = [] := by simpa [Eb₀.unscoped.owned] using cc.owned
  have mA : ((g.withBanner .doLoop).withLabels 3).mark = g.mark.alloc 3 := by simp
  have mT : ((g₁.withoutScope.withJump ⟨g.labels + 1⟩).withLabel ⟨g.labels + 1⟩).withScope.mark =
      (g₁.withoutScope.withJump ⟨g.labels + 1⟩).mark.label ⟨g.labels + 1⟩ := by simp
  have mB : (g₂.withoutScope.withTerminator (.branch v ⟨g.labels⟩ ⟨g.labels + 2⟩)).mark =
      g₂.mark.terminate (.branch v ⟨g.labels⟩ ⟨g.labels + 2⟩) := by
    simp [mark_withoutScope hc₂]
  have m₁ : g₁.withoutScope.mark = g₁.mark := mark_withoutScope Eb₀.owned
  have L : σ.site.Holds g.mark →
      σ.site.Holds ((g₂.mark.terminate (.branch v ⟨g.labels⟩ ⟨g.labels + 2⟩)).label ⟨g.labels + 2⟩) →
      (∀ fr, σ.site.Flows σ.init g.mark ((((g.withBanner .doLoop).withLabels 3).withJump ⟨g.labels⟩).withLabel
        ⟨g.labels⟩).mark fr fr) ∧
      p.DoCode σ b c ((g₁.withoutScope.withJump ⟨g.labels + 1⟩).mark.label ⟨g.labels + 1⟩)
        ((g₂.mark.terminate (.branch v ⟨g.labels⟩ ⟨g.labels + 2⟩)).label ⟨g.labels + 2⟩)
        ((((g.withBanner .doLoop).withLabels 3).withJump ⟨g.labels⟩).withLabel ⟨g.labels⟩) g₁.withoutScope := by
    intro hH hH'
    have hs := σ.site.holds_chain [(((g.withBanner .doLoop).withLabels 3).withJump ⟨g.labels⟩).mark,
      (((g.withBanner .doLoop).withLabels 3).withJump ⟨g.labels⟩).mark.label ⟨g.labels⟩, g₁.mark,
      (g₁.withoutScope.withJump ⟨g.labels + 1⟩).mark, (g₁.withoutScope.withJump ⟨g.labels + 1⟩).mark.label ⟨g.labels + 1⟩,
      g₂.mark, g₂.mark.terminate (.branch v ⟨g.labels⟩ ⟨g.labels + 2⟩)]
      (.cons_cons (by simpa [Mark.Before] using before_withJump ((g.withBanner .doLoop).withLabels 3) ⟨g.labels⟩) <|
        .cons_cons (Mark.before_label _ _) <| .cons_cons (by simpa [Mark.Before] using kb.code) <|
        .cons_cons (m₁ ▸ before_withJump _ _) <| .cons_cons (Mark.before_label _ _) <|
        .cons_cons (by simpa [Mark.Before] using kc.code) <| .cons_cons (Mark.before_terminate _ _) <|
        .cons_cons (Mark.before_label _ _) <| .singleton _) hH hH'
    simp only [List.mem_cons, List.not_mem_nil, or_false, forall_eq_or_imp, forall_eq] at hs
    obtain ⟨hJ, hb, h₁, hK, hT, h₂, hB⟩ := hs
    rw [mark_withLabel]
    refine ⟨fun fr => ?_, ⟨Eb₀.unscoped, ⟨(mark_withLabel _ _).symm ▸ hb, m₁ ▸ h₁, hT⟩, rfl,
      fun hcl fr => σ.site.flows_fall hK hT, fun ρ fr r hfr he => ?_, cc.total, rfl, ?_⟩⟩
    · have f : σ.site.Flows σ.init ((g.withBanner .doLoop).withLabels 3).mark _ fr fr := σ.site.flows_fall hJ hb
      rw [mA] at f
      exact f
    · have ht := testRuns_branch cc (by rw [mT]; exact hT) h₂ hB hJ hb hB hH' hfr he
      rw [mT] at ht
      rw [mark_withLabel]
      exact ht
    · have hl := (show _ <+: _ by simpa [Mark.Before] using kb.code).length_le
      rw [← m₁] at hl
      have hj := (before_withJump g₁.withoutScope ⟨g.labels + 1⟩).length_le
      simp only [mark_withLabel, Mark.label_code, List.length_append, List.length_singleton] at hl hj ⊢
      omega
  have eE : ((g₂.withoutScope.withTerminator (.branch v ⟨g.labels⟩ ⟨g.labels + 2⟩)).withLabel ⟨g.labels + 2⟩).mark =
      (g₂.mark.terminate (.branch v ⟨g.labels⟩ ⟨g.labels + 2⟩)).label ⟨g.labels + 2⟩ := by
    rw [mark_withLabel, mB]
  refine ⟨by simp [withoutScope_spilled_of hc₂, cc.spilled], by simp [withoutScope_owned_of hc₂],
    fun hH hH' ρ fr o hfr hx => ?_, fun hH hH' ρ fr r hfr hr => ?_⟩
  · rw [eE] at hH' ⊢
    obtain ⟨f, L⟩ := L hH hH'
    exact StmtRuns.flows (f fr) (fun _ => rfl) (L.runs hn hfr hx)
  · rw [eE] at hH'
    obtain ⟨f, L⟩ := L hH hH'
    obtain ⟨k, hk⟩ := Returns.steps (f fr) hr
    exact L.ends hn k hfr hk

/-- A `for` loop computes its start expression, then runs as a `while` loop whose body is followed by the step
expression. -/
theorem emitted_lowerFor {id i c s b : NodeId} (hn : p.ast.get? id = some (.stmt (.forLoop i c s b)))
    {g g' : Generator} (h : Runs (p.lowerFor w i c s b) g () g') (hR : p.Ready σ id g) (ho : g.owned = []) :
    p.Emitted σ (.node id) g g' := by
  obtain ⟨vi, g₁, v, g₂, g₃, vs, g₄, hi, hc, hb, hs, rfl⟩ := runs_lowerFor h
  have Ri : p.Ready σ i ((g.withBanner .forLoop).withLabels 4) :=
    (hR.child hn (by simp [Node.children])).of_values (fun x _ => by simp) (by simp [hR.spilled])
  have ci := (hx hi).1 Ri
  have ki := (hx hi).2
  have hi₁ : g₁.owned = [] := by simpa [ho] using ci.owned
  have kI : p.ValuesKept i g ((g₁.withJump ⟨g.labels⟩).withLabel ⟨g.labels⟩).withScope :=
    ((ValuesKept.of_values (by simp)).trans ki.values).trans (.of_values (by simp))
  have hs₀ : ((g₁.withJump ⟨g.labels⟩).withLabel ⟨g.labels⟩).withScope.spilled = σ.params := by simp [ci.spilled]
  have hC : ((Node.stmt (.forLoop i c s b)).children = [] ++ i :: [] ++ c :: [s, b]) := rfl
  have cc := computed_testOf hx hc (hR.next hn hC kI hs₀)
  have kc := grows_testOf (fun h => (hx h).2) hc
  have hc₂ : g₂.owned = [] := by simpa [hi₁] using cc.owned
  have hB : ((Node.stmt (.forLoop i c s b)).children = [] ++ i :: [c, s] ++ b :: []) := rfl
  have hCB : ((Node.stmt (.forLoop i c s b)).children = [i] ++ c :: [s] ++ b :: []) := rfl
  have Rb : p.Ready σ b ((g₂.withoutScope.withTerminator (.branch v ⟨g.labels + 1⟩ ⟨g.labels + 3⟩)).withLabel
      ⟨g.labels + 1⟩).withScope :=
    (hR.next hn hB kI hs₀).of_values (fun x hx => by simpa using kc.values x fun hr => hR.tree.apart hn hCB hr hx)
      (by simp [withoutScope_spilled_of hc₂, cc.spilled])
  have Eb₀ := (he hb).1 Rb (by simp [withoutScope_owned_of hc₂])
  have kb := (he hb).2
  have hS : ((Node.stmt (.forLoop i c s b)).children = [] ++ i :: [c] ++ s :: [b]) := rfl
  have hCS : ((Node.stmt (.forLoop i c s b)).children = [i] ++ c :: [] ++ s :: [b]) := rfl
  have hSB : ((Node.stmt (.forLoop i c s b)).children = [i, c] ++ s :: [] ++ b :: []) := rfl
  have Rs : p.Ready σ s ((g₃.withoutScope.withJump ⟨g.labels + 2⟩).withLabel ⟨g.labels + 2⟩).withScope := by
    refine (hR.next hn hS kI hs₀).of_values (fun x hx => ?_) (by simp [Eb₀.unscoped.spilled])
    have e₁ := kb.values x fun hr => hR.tree.apart hn hSB hx hr
    have e₂ := kc.values x fun hr => hR.tree.apart hn hCS hr hx
    simp only [withScope_values, withLabel_values, withJump_values, withoutScope_values, withTerminator_values] at e₁ e₂ ⊢
    exact e₁.trans e₂
  have cs := (hx hs).1 Rs
  have ks := (hx hs).2
  obtain ⟨Es₀, tot⟩ := cs.emitted (by simp [Eb₀.unscoped.owned])
  have Es := Es₀.unscoped
  have mI : ((g.withBanner .forLoop).withLabels 4).mark = g.mark.alloc 4 := by simp
  have mS : ((g₁.withJump ⟨g.labels⟩).withLabel ⟨g.labels⟩).withScope.mark =
      (g₁.withJump ⟨g.labels⟩).mark.label ⟨g.labels⟩ := by simp
  have mB : ((g₂.withoutScope.withTerminator (.branch v ⟨g.labels + 1⟩ ⟨g.labels + 3⟩)).withLabel ⟨g.labels + 1⟩).mark =
      (g₂.mark.terminate (.branch v ⟨g.labels + 1⟩ ⟨g.labels + 3⟩)).label ⟨g.labels + 1⟩ := by
    simp [mark_withoutScope hc₂]
  have m₃ : g₃.withoutScope.mark = g₃.mark := mark_withoutScope Eb₀.owned
  have m₄ : g₄.withoutScope.mark = g₄.mark := mark_withoutScope Es₀.owned
  have eE : ((g₄.withoutScope.withJump ⟨g.labels⟩).withLabel ⟨g.labels + 3⟩).mark =
      (g₄.withoutScope.withJump ⟨g.labels⟩).mark.label ⟨g.labels + 3⟩ := mark_withLabel _ _
  have L : σ.site.Holds g.mark → σ.site.Holds ((g₄.withoutScope.withJump ⟨g.labels⟩).mark.label ⟨g.labels + 3⟩) →
      σ.site.Holds g₁.mark ∧ (∀ fr, σ.site.Flows σ.init g₁.mark ((g₁.withJump ⟨g.labels⟩).mark.label ⟨g.labels⟩) fr fr) ∧
      p.LoopCode σ c (some s) b ((g₁.withJump ⟨g.labels⟩).mark.label ⟨g.labels⟩)
        ((g₄.withoutScope.withJump ⟨g.labels⟩).mark.label ⟨g.labels + 3⟩)
        ((g₂.withoutScope.withTerminator (.branch v ⟨g.labels + 1⟩ ⟨g.labels + 3⟩)).withLabel ⟨g.labels + 1⟩)
        g₃.withoutScope := by
    intro hH hH'
    have hs := σ.site.holds_chain [g₁.mark, (g₁.withJump ⟨g.labels⟩).mark,
      (g₁.withJump ⟨g.labels⟩).mark.label ⟨g.labels⟩, g₂.mark, g₂.mark.terminate (.branch v ⟨g.labels + 1⟩ ⟨g.labels + 3⟩),
      (g₂.mark.terminate (.branch v ⟨g.labels + 1⟩ ⟨g.labels + 3⟩)).label ⟨g.labels + 1⟩, g₃.mark,
      (g₃.withoutScope.withJump ⟨g.labels + 2⟩).mark, (g₃.withoutScope.withJump ⟨g.labels + 2⟩).mark.label ⟨g.labels + 2⟩,
      g₄.mark, (g₄.withoutScope.withJump ⟨g.labels⟩).mark]
      (.cons_cons (by simpa [Mark.Before] using ki.code) <| .cons_cons (before_withJump _ _) <|
        .cons_cons (Mark.before_label _ _) <| .cons_cons (by simpa [Mark.Before] using kc.code) <|
        .cons_cons (Mark.before_terminate _ _) <| .cons_cons (Mark.before_label _ _) <|
        .cons_cons (by simpa [Mark.Before, mark_withoutScope hc₂] using kb.code) <|
        .cons_cons (m₃ ▸ before_withJump _ _) <| .cons_cons (Mark.before_label _ _) <|
        .cons_cons (by simpa [Mark.Before] using ks.code) <| .cons_cons (m₄ ▸ before_withJump _ _) <|
        .cons_cons (Mark.before_label _ _) <| .singleton _) hH hH'
    simp only [List.mem_cons, List.not_mem_nil, or_false, forall_eq_or_imp, forall_eq] at hs
    obtain ⟨h₁, hJ, hT, h₂, hB, hb, h₃, hJ₂, hs', h₄, hK⟩ := hs
    refine ⟨h₁, fun fr => σ.site.flows_fall hJ hT, ⟨fun ρ fr r hfr he => ?_, cc.total, Eb₀.unscoped,
      ⟨mB ▸ hb, m₃ ▸ h₃⟩, rfl, fun ρ fr o hcl hfr hx => ?_, tot, rfl, ?_⟩⟩
    · have ht := testRuns_branch cc (by rw [mS]; exact hT) h₂ hB hB hb hK hH' hfr he
      rw [mS] at ht
      rw [mB]
      exact ht
    · have hs'' : σ.site.Holds ((g₃.withoutScope.withJump ⟨g.labels + 2⟩).withLabel ⟨g.labels + 2⟩).mark := by
        rwa [mark_withLabel]
      refine StmtRuns.flows (σ.site.flows_fall hJ₂ hs') (fun _ => rfl) ?_
      rw [← mark_withLabel]
      exact (Es.runs hs'' (m₄ ▸ h₄) ρ fr o hfr hx).then_ rfl (fun hcl fr' => σ.site.flows_jumpTo hcl hK hJ hT) rfl
    · rw [mB]
      exact length_lt_label_terminate (by simpa [Mark.Before] using kc.code) _ _
  refine ⟨by simp [Es.spilled], by simp [Es.owned], fun hH hH' ρ fr o hfr hx => ?_, fun hH hH' ρ fr r hfr hr => ?_⟩
  · rw [eE] at hH' ⊢
    obtain ⟨h₁, f, L⟩ := L hH hH'
    have hHi : σ.site.Holds ((g.withBanner .forLoop).withLabels 4).mark := by rw [mI]; exact hH
    rcases Exec.for_inv hn hx with ⟨a, ρ₁, ei, xl⟩ | ⟨ei, rfl⟩
    · obtain ⟨fr₁, f₁, ag₁, -⟩ := ci.runs hHi h₁ ρ fr _ hfr ei
      rw [mI] at f₁
      exact StmtRuns.flows (f₁.trans (f fr₁)) (fun _ => rfl) (L.runs ag₁ xl)
    · have hf : Fails σ.site.body σ.init (σ.site.rest ((g.withBanner .forLoop).withLabels 4).mark) fr :=
        ci.runs hHi h₁ ρ fr none hfr ei
      rw [mI] at hf
      exact hf
  · rw [eE] at hH'
    obtain ⟨h₁, f, L⟩ := L hH hH'
    have hHi : σ.site.Holds ((g.withBanner .forLoop).withLabels 4).mark := by rw [mI]; exact hH
    obtain ⟨ri, ei⟩ := ci.total ρ
    rcases ri with _ | ⟨a, ρ₁⟩
    · exact ⟨_, .forErr hn ei⟩
    obtain ⟨fr₁, f₁, ag₁, -⟩ := ci.runs hHi h₁ ρ fr _ hfr ei
    rw [mI] at f₁
    obtain ⟨k, hk⟩ := Returns.steps (f₁.trans (f fr₁)) hr
    obtain ⟨o, xl⟩ := L.ends k ag₁ hk
    exact ⟨o, .forLoop hn ei xl⟩

/-! ## Every instruction of the fragment -/

/-- One level of lowering rules writes, for each node of the fragment met for the first time, code that runs as the
node does, given that the walk one level down does so for the nodes a node refers to. -/
theorem emits_emitNode {id : NodeId} {g g' : Generator} (h : Runs (p.emitNode w id) g () g') : p.Emits σ id g g' := by
  intro hR ho
  rcases runs_emitNode h with ⟨e, t, hn, ⟨hc, rfl⟩ | ⟨-, v, h⟩⟩ | ⟨s, hn, h⟩
  · -- a node met for the first time has no operand recorded
    rw [Std.HashMap.contains_eq_isSome_getElem?, hR.not_recorded] at hc
    cases hc
  · exact emitted_exprNode hx hn h hR ho
  · cases s with
    | declare syms => exact emitted_declare hn h hR ho
    | eval x => exact emitted_eval hx hn h hR ho
    | ite c t e => exact emitted_lowerChoice hx he hn h hR ho
    | whileLoop c b => exact emitted_lowerWhile hx he hn h hR ho
    | doLoop b c => exact emitted_lowerDo hx he hn h hR ho
    | forLoop i c s b => exact emitted_lowerFor hx he hn h hR ho
    | ret x => exact emitted_ret hx hn h hR ho
    | block items => exact emitted_block he hn h hR ho
    | prototype f => exact (hR.fragment.node hn).elim
    | define f b => exact (hR.fragment.node hn).elim

end Rules

/-- Lowering an instruction of the fragment met for the first time, at any depth of the walk, writes code that runs as
the instruction does. -/
theorem emits_walk (n : Nat) {id : NodeId} {g g' : Generator} (h : Runs ((p.walk n).emit id) g () g') :
    p.Emits σ id g g' := by
  induction n generalizing id g g' with
  | zero => exact absurd h Runs.throw_false
  | succ n ih =>
    exact emits_emitNode (fun h' => ⟨computes_walk n h', (grows_walk n).expr h'⟩)
      (fun h' => ⟨ih h', (grows_walk n).emit h'⟩) h

end Program

end Lowering
