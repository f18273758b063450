import Lowering.Proofs.Refinement.Expressions

/-!
# Lowered instructions run as the instructions do

The code that lowering writes for an instruction of the integer fragment runs, from a frame that agrees with the
environment, as the instruction does (`Program.Emitted`). When the instruction ends normally, the run reaches the end
of the code in agreement with the environment the instruction leaves, and a block that was open stays open. When it
returns, the run returns the same value with the same globals; when it fails, the run fails. The other way round, a
run of the code that returns at all belongs to an execution of the instruction: lowering adds no way to end that the
instruction lacks, and in particular no loop of the code runs for ever unless the instruction's loop does.

Each rule of lowering for an instruction without parts, and for a block, is one theorem; the constructs with parts
build on the loops here. A `while` or `for` loop is taken from its test (`Program.LoopCode`): the test leads into the
body or out of the loop, and the end of the body leads back to the test. Its runs follow the executions of the loop
one round at a time, and the other way round by induction on the steps left to the run.
-/

namespace Lowering

open Ir Generator

namespace Generator

variable {g : Generator}

/-- With no string owned, closing a scope writes nothing. -/
theorem mark_withoutScope (h : g.owned = []) : g.withoutScope.mark = g.mark := by
  rw [withoutScope_of_owned h]
  rfl

/-- Closing a string scope with nothing owned spills no parameter. -/
theorem withoutScope_spilled_of (h : g.owned = []) : g.withoutScope.spilled = g.spilled := by
  rw [withoutScope_of_owned h]

/-- Closing a string scope with nothing owned leaves nothing owned. -/
theorem withoutScope_owned_of (h : g.owned = []) : g.withoutScope.owned = [] := by
  rw [withoutScope_of_owned h]
  exact h

/-- A declaration spills no parameter. -/
@[simp] theorem withDeclaration_spilled (sym : Symbol) : (g.withDeclaration sym).spilled = g.spilled := by
  unfold withDeclaration
  split
  · rfl
  · split <;> simp [withItem]

/-- A declaration owns no string. -/
@[simp] theorem withDeclaration_owned (sym : Symbol) : (g.withDeclaration sym).owned = g.owned := by
  unfold withDeclaration
  split
  · rfl
  · split <;> simp [withItem]

/-- Declarations spill no parameter. -/
@[simp] theorem foldl_withDeclaration_spilled {α : Type} (f : α → Symbol) (xs : List α) (g : Generator) :
    (xs.foldl (fun g x => g.withDeclaration (f x)) g).spilled = g.spilled := by
  induction xs generalizing g <;> simp [*]

/-- Declarations own no string. -/
@[simp] theorem foldl_withDeclaration_owned {α : Type} (f : α → Symbol) (xs : List α) (g : Generator) :
    (xs.foldl (fun g x => g.withDeclaration (f x)) g).owned = g.owned := by
  induction xs generalizing g <;> simp [*]

/-- A jump only adds to the code. -/
theorem before_withJump (g : Generator) (l : Label) : g.mark.Before (g.withJump l).mark := by
  rw [mark_withJump]
  split
  · exact List.prefix_refl _
  · exact Mark.before_terminate _ _

/-- A declaration only adds to the code. -/
theorem before_withDeclaration (g : Generator) (sym : Symbol) : g.mark.Before (g.withDeclaration sym).mark := by
  unfold withDeclaration
  split
  · rw [mark_withItem]
    exact ⟨_, rfl⟩
  · split
    · rw [mark_withItem]
      exact ⟨_, rfl⟩
    · rw [mark_withInstr]
      exact Mark.before_instr _ _

end Generator

namespace Ir.Site

variable {S : Site} {init : String → Int32} {fr : Frame}

/-- A jump at the end of an open block continues at the label it names, placed at mark `c`. -/
theorem flows_jumpTo {g : Generator} {c : Mark} {l : Label} (ho : g.closed = false) (hj : S.Holds (g.withJump l).mark)
    (hc : S.Holds c) (hl : S.Holds (c.label l)) : S.Flows init g.mark (c.label l) fr fr := by
  simp only [mark_withJump, ho, Bool.false_eq_true, if_false] at hj
  exact S.flows_goto (show S.Holds (g.mark.instr (.jump l)) from hj) hc hl fun _ => step_jump

/-- Falling through to a label placed at once: a jump when the block is open, then the label. -/
theorem flows_fall {g : Generator} {l : Label} (hj : S.Holds (g.withJump l).mark)
    (hl : S.Holds ((g.withJump l).mark.label l)) : S.Flows init g.mark ((g.withJump l).mark.label l) fr fr := by
  cases ho : g.closed
  · exact flows_jumpTo ho hj hj hl
  · have e : (g.withJump l).mark = g.mark := by simp [mark_withJump, ho]
    rw [e] at hl ⊢
    exact S.flows_label hl

end Ir.Site

namespace Program

variable (p : Program) (σ : Setting)

/-- How the code of an instruction runs from mark `a`, the code ending at mark `b`, for each way the instruction ends:
normally, the run reaches `b` in agreement with the environment the instruction leaves, and an open block stays open;
with a return, the run returns the value with the globals; with an error, the run fails. -/
def StmtRuns (a b : Mark) (fr : Frame) : Outcome → Prop
  | .normal ρ' => ∃ fr', σ.site.Flows σ.init a b fr fr' ∧ p.Stores σ.params σ.vars ρ' fr' ∧
      (a.closed = false → b.closed = false)
  | .ret v ρ' => Ir.Returns σ.site.body σ.init (σ.site.rest a) fr (v, ρ'.globals)
  | .error => Fails σ.site.body σ.init (σ.site.rest a) fr

/-- How the code of a test runs from mark `a`: with a value, to mark `bT` when the value is not zero and to mark `bF`
when it is, in agreement with the environment the test leaves; with an error, the run fails. -/
def TestRuns (a bT bF : Mark) (fr : Frame) : Option (Int32 × Env) → Prop
  | some (x, ρ') => ∃ fr', p.Stores σ.params σ.vars ρ' fr' ∧ (x ≠ 0 → σ.site.Flows σ.init a bT fr fr') ∧
      (x = 0 → σ.site.Flows σ.init a bF fr fr')
  | none => Fails σ.site.body σ.init (σ.site.rest a) fr

/-- What a run of lowering from `g` to `g'` that wrote the code of `code` does: the parameters stay spilled and no
string is owned; the code runs as `code` does; and when the code returns, `code` has an outcome. -/
structure Emitted (code : Code) (g g' : Generator) : Prop where
  spilled : g'.spilled = σ.params
  owned : g'.owned = []
  runs : σ.site.Holds g.mark → σ.site.Holds g'.mark → ∀ ρ fr o, p.Stores σ.params σ.vars ρ fr →
    p.Exec σ.params σ.init ρ code o → p.StmtRuns σ g.mark g'.mark fr o
  ends : σ.site.Holds g.mark → σ.site.Holds g'.mark → ∀ ρ fr r, p.Stores σ.params σ.vars ρ fr →
    Ir.Returns σ.site.body σ.init (σ.site.rest g.mark) fr r → ∃ o, p.Exec σ.params σ.init ρ code o

/-- Lowering an instruction met for the first time, with no string owned, writes code that runs as the instruction
does. -/
def Emits (id : NodeId) (g g' : Generator) : Prop := p.Ready σ id g → g.owned = [] → p.Emitted σ (.node id) g g'

/-- The items of a block, met for the first time and apart from each other. -/
structure ReadyItems (items : List NodeId) (g : Generator) : Prop where
  spilled : g.spilled = σ.params
  owned : g.owned = []
  ready : ∀ c ∈ items, p.Ready σ c g
  apart : items.Pairwise fun c c' => ∀ x, p.Reaches c x → ¬p.Reaches c' x

/-- The code of a loop from its test, which starts at mark `S`: the test leads into the body, lowered from `gb` to
`gb'`, or out of the loop to mark `E`; the end of the body leads back to the test, through the step expression of a
`for` loop. -/
structure LoopCode (c : NodeId) (st : Option NodeId) (b : NodeId) (S E : Mark) (gb gb' : Generator) : Prop where
  test : ∀ ρ fr r, p.Stores σ.params σ.vars ρ fr → p.Eval σ.params ρ c r → p.TestRuns σ S gb.mark E fr r
  total : ∀ ρ, ∃ r, p.Eval σ.params ρ c r
  body : p.Emitted σ (.node b) gb gb'
  holds : σ.site.Holds gb.mark ∧ σ.site.Holds gb'.mark
  opened : gb.closed = false
  next : ∀ ρ fr o, gb'.closed = false → p.Stores σ.params σ.vars ρ fr →
    p.Exec σ.params σ.init ρ (.seq st.toList) o → p.StmtRuns σ gb'.mark S fr o
  nextTotal : ∀ ρ, ∃ o, p.Exec σ.params σ.init ρ (.seq st.toList) o
  finish : E.closed = false
  progress : S.code.length < gb.mark.code.length

variable {p σ}

section Outcomes

variable {a b c : Mark} {fr fr₁ : Frame} {o : Outcome}

/-- Code that flows to the start of an instruction's code runs as the instruction does from there. -/
theorem StmtRuns.flows (hf : σ.site.Flows σ.init a b fr fr₁) (hc : a.closed = false → b.closed = false)
    (h : p.StmtRuns σ b c fr₁ o) : p.StmtRuns σ a c fr o := by
  cases o with
  | normal ρ' =>
    obtain ⟨fr', f, ag, cl⟩ := h
    exact ⟨fr', hf.trans f, ag, fun ha => cl (hc ha)⟩
  | ret v ρ' => exact Returns.of_steps hf h
  | error => exact Fails.of_steps hf h

/-- Where its code ends does not matter to an instruction that does not end normally. -/
theorem StmtRuns.abrupt (ho : o.Abrupt) (h : p.StmtRuns σ a b fr o) : p.StmtRuns σ a c fr o := by
  cases o with
  | normal ρ' => exact (ho : False).elim
  | ret v ρ' => exact h
  | error => exact h

/-- An instruction whose code starts in an open block, followed by code that goes on from its end, when open, to mark
`c` in an open block. -/
theorem StmtRuns.then_ (h : p.StmtRuns σ a b fr o) (ha : a.closed = false)
    (hj : b.closed = false → ∀ fr', σ.site.Flows σ.init b c fr' fr') (hc : c.closed = false) :
    p.StmtRuns σ a c fr o := by
  cases o with
  | normal ρ' =>
    obtain ⟨fr', f, ag, cl⟩ := h
    exact ⟨fr', f.trans (hj (cl ha) fr'), ag, fun _ => hc⟩
  | ret v ρ' => exact h
  | error => exact h

end Outcomes

/-- What was emitted between two generators was emitted between any two with the same marks, spilled parameters and
strings owned. -/
theorem Emitted.congr {code : Code} {g₀ g₀' g g' : Generator} (h : p.Emitted σ code g₀ g₀') (hm : g.mark = g₀.mark)
    (hm' : g'.mark = g₀'.mark) (hs : g'.spilled = g₀'.spilled) (ho : g'.owned = g₀'.owned) :
    p.Emitted σ code g g' := by
  refine ⟨hs.trans h.spilled, ho.trans h.owned, ?_, ?_⟩
  · rw [hm, hm']
    exact h.runs
  · rw [hm, hm']
    exact h.ends

/-- A block of one item runs as the item. -/
theorem Emitted.single {i : NodeId} {g g' : Generator} (h : p.Emitted σ (.node i) g g') :
    p.Emitted σ (.seq [i]) g g' :=
  ⟨h.spilled, h.owned, fun hH hH' ρ fr o hfr hx => h.runs hH hH' ρ fr o hfr hx.single_inv,
    fun hH hH' ρ fr r hfr hr => (h.ends hH hH' ρ fr r hfr hr).imp fun _ => Exec.single⟩

/-- An empty block writes nothing and ends normally. -/
theorem emitted_nil {g : Generator} (hs : g.spilled = σ.params) (ho : g.owned = []) : p.Emitted σ (.seq []) g g := by
  refine ⟨hs, ho, fun _ _ ρ fr o hfr hx => ?_, fun _ _ _ _ _ _ _ => ⟨_, .nil⟩⟩
  rw [Exec.nil_inv hx]
  exact ⟨fr, .refl _ _, hfr, id⟩

/-- A node stays met for the first time while lowering records nothing it reaches. -/
theorem Ready.of_values {id : NodeId} {g g₁ : Generator} (h : p.Ready σ id g)
    (hk : ∀ x, p.Reaches id x → g₁.values[x]? = g.values[x]?) (hs : g₁.spilled = σ.params) :
    p.Ready σ id g₁ :=
  ⟨hs, h.apart, h.fragment, h.tree, fun x hx => (hk x hx).trans (h.unlowered x hx)⟩

/-- A test computed from `gc` to `g₁`, followed by a branch to label `l₁` placed at mark `m₁` or to label `l₂` placed
at mark `m₂`, leads to the first when its value is not zero and to the second when it is. -/
theorem testRuns_branch {c : NodeId} {gc g₁ : Generator} {v : Value} {l₁ l₂ : Label} {m₁ m₂ : Mark}
    (cc : p.Computed σ true c gc v g₁) (hH : σ.site.Holds gc.mark) (hH₁ : σ.site.Holds g₁.mark)
    (hB : σ.site.Holds (g₁.mark.instr (.branch v l₁ l₂))) (h₁ : σ.site.Holds m₁) (hl₁ : σ.site.Holds (m₁.label l₁))
    (h₂ : σ.site.Holds m₂) (hl₂ : σ.site.Holds (m₂.label l₂)) {ρ : Env} {fr : Frame} {r : Option (Int32 × Env)}
    (hfr : p.Stores σ.params σ.vars ρ fr) (he : p.Eval σ.params ρ c r) :
    p.TestRuns σ gc.mark (m₁.label l₁) (m₂.label l₂) fr r := by
  cases r with
  | none => exact cc.runs hH hH₁ ρ fr none hfr he
  | some ar =>
    obtain ⟨a, ρ'⟩ := ar
    obtain ⟨fr', f, ag, -, o, -⟩ := cc.runs hH hH₁ ρ fr _ hfr he
    rw [Word.of_true] at o
    refine ⟨fr', ag, fun ha => f.trans ?_, fun ha => f.trans ?_⟩
    · have ob : fr'.operand v = some (.bit true) := by
        rw [o]
        simp [ha]
      exact σ.site.flows_goto hB h₁ hl₁ fun _ => step_branch ob
    · have ob : fr'.operand v = some (.bit false) := by
        rw [o]
        simp [ha]
      exact σ.site.flows_goto hB h₂ hl₂ fun _ => step_branch ob

/-! ## Instructions without parts to run -/

/-- Declarations of locals of the fragment reserve their slots one after the other, as the environment declares
them. -/
theorem declared_flows {syms : List SymbolId}
    (hloc : ∀ s ∈ syms, σ.vars s ∧ s ∉ σ.params ∧ (p.symbols.symbol s).flags.external = false ∧
      (p.symbols.symbol s).flags.global = false) (hap : p.SlotsApart σ.params σ.vars) {g : Generator}
    (hH : σ.site.Holds g.mark) (hH' : σ.site.Holds (syms.foldl (fun g s => g.withDeclaration (p.symbols.symbol s)) g).mark)
    {ρ : Env} {fr : Frame} (hfr : p.Stores σ.params σ.vars ρ fr) :
    ∃ fr', σ.site.Flows σ.init g.mark (syms.foldl (fun g s => g.withDeclaration (p.symbols.symbol s)) g).mark fr fr' ∧
      p.Stores σ.params σ.vars (p.declareVars σ.init ρ syms) fr' ∧
      (g.closed = false → (syms.foldl (fun g s => g.withDeclaration (p.symbols.symbol s)) g).closed = false) := by
  induction syms generalizing g ρ fr with
  | nil => exact ⟨fr, .refl _ _, hfr, id⟩
  | cons s rest ih =>
    obtain ⟨hs, hp, hext, hglob⟩ := hloc s (List.mem_cons_self ..)
    have hd : g.withDeclaration (p.symbols.symbol s) =
        g.withInstr (.alloca (p.symbols.symbol s).name (p.symbols.symbol s).ty) := by
      simp [withDeclaration, hext, hglob]
    simp only [List.foldl_cons, hd] at hH' ⊢
    have hb : ∀ (xs : List SymbolId) (g : Generator),
        g.mark.Before (xs.foldl (fun g s => g.withDeclaration (p.symbols.symbol s)) g).mark := by
      intro xs
      induction xs with
      | nil => exact fun _ => List.prefix_refl _
      | cons x xs ihx => exact fun g => (before_withDeclaration g _).trans (ihx _)
    have hH₁ : σ.site.Holds (g.mark.instr (.alloca (p.symbols.symbol s).name (p.symbols.symbol s).ty)) := by
      rw [← mark_withInstr]
      exact hH.between hH' (by rw [mark_withInstr]; exact Mark.before_instr _ _) (hb _ _)
    obtain ⟨fr', f, ag, cl⟩ := ih (fun s hs => hloc s (List.mem_cons_of_mem _ hs)) (by rwa [mark_withInstr]) hH'
      (hfr.declare hap σ.init hs hp hext hglob)
    exact ⟨fr', (σ.site.flows_instr hH₁ fun _ => step_alloca).trans (by rwa [mark_withInstr] at f), ag,
      fun _ => cl (withInstr_closed _ _)⟩

/-- Declarations of locals of the fragment run as the environment declares them. -/
theorem emitted_declare {id : NodeId} {syms : List SymbolId} (hn : p.ast.get? id = some (.stmt (.declare syms)))
    {g g' : Generator} (h : Runs (p.lowerDeclarations syms) g () g') (hR : p.Ready σ id g) (ho : g.owned = []) :
    p.Emitted σ (.node id) g g' := by
  rw [runs_lowerDeclarations h]
  have hloc := hR.fragment.node hn
  simp only [IntNode] at hloc
  refine ⟨by simp [hR.spilled], by simp [ho], fun hH hH' ρ fr o hfr hx => ?_,
    fun _ _ _ _ _ _ _ => ⟨_, .declare hn⟩⟩
  rw [Exec.declare_inv hn hx]
  exact declared_flows hloc hR.apart hH hH' hfr

/-- An instruction that evaluates one expression, computed from `g` to `g'`, and ends as the evaluation does. -/
theorem emitted_of_eval {id x : NodeId} {cmp : Bool} {g g' : Generator} {v : Value} (c : p.Computed σ cmp x g v g')
    (hinv : ∀ ρ o, p.Exec σ.params σ.init ρ (.node id) o →
      (∃ a ρ', p.Eval σ.params ρ x (some (a, ρ')) ∧ o = .normal ρ') ∨ (p.Eval σ.params ρ x none ∧ o = .error))
    (hex : ∀ ρ r, p.Eval σ.params ρ x r → ∃ o, p.Exec σ.params σ.init ρ (.node id) o) (ho : g.owned = []) :
    p.Emitted σ (.node id) g g' := by
  refine ⟨c.spilled, c.owned.trans ho, fun hH hH' ρ fr o hfr h => ?_, fun _ _ ρ _ _ _ _ => ?_⟩
  · rcases hinv ρ o h with ⟨a, ρ', e, rfl⟩ | ⟨e, rfl⟩
    · obtain ⟨fr', f, ag, -, -, -⟩ := c.runs hH hH' ρ fr _ hfr e
      exact ⟨fr', f, ag, c.opened⟩
    · exact c.runs hH hH' ρ fr none hfr e
  · obtain ⟨r, e⟩ := c.total ρ
    exact hex ρ r e

section Expressions

variable {w : Walk} {g g' : Generator}
  (hx : ∀ {id : NodeId} {g : Generator} {v : Value} {g' : Generator}, Runs (w.expr id) g v g' →
    p.Computes σ id g v g' ∧ p.Grows id g g')
include hx

/-- An expression in the place of an instruction is computed, and its value dropped. -/
theorem emitted_exprNode {id : NodeId} {e : Expr} {t : Option Ty} (hn : p.ast.get? id = some (.expr e t)) {v : Value}
    (h : Runs (p.lowerForm w id e) g v g') (hR : p.Ready σ id g) (ho : g.owned = []) :
    p.Emitted σ (.node id) g g' := by
  refine emitted_of_eval (computed_lowerForm hx hn h hR) (fun _ _ => Exec.expr_inv hn) (fun _ r he => ?_) ho
  rcases r with _ | ⟨a, ρ'⟩
  · exact ⟨_, .exprErr hn he⟩
  · exact ⟨_, .expr hn he⟩

/-- An expression instruction computes its expression, and drops the value. -/
theorem emitted_eval {id x : NodeId} (hn : p.ast.get? id = some (.stmt (.eval x))) (h : Runs (discard (w.expr x)) g () g')
    (hR : p.Ready σ id g) (ho : g.owned = []) : p.Emitted σ (.node id) g g' := by
  obtain ⟨v, h⟩ := Runs.discard_iff.mp h
  refine emitted_of_eval ((hx h).1 (hR.child hn (by simp [Node.children]))) (fun _ _ => Exec.eval_inv hn)
    (fun _ r he => ?_) ho
  rcases r with _ | ⟨a, ρ'⟩
  · exact ⟨_, .evalErr hn he⟩
  · exact ⟨_, .eval hn he⟩

/-- A return computes its value and returns it, with the globals as the evaluation leaves them. -/
theorem emitted_ret {id x : NodeId} (hn : p.ast.get? id = some (.stmt (.ret x))) (h : Runs (p.lowerReturn w x) g () g')
    (hR : p.Ready σ id g) (ho : g.owned = []) : p.Emitted σ (.node id) g g' := by
  obtain ⟨t, v, g₁, v', kept, g₂, ht, hv, hh, rfl⟩ := runs_lowerReturn h
  have Rx : p.Ready σ x g := hR.child hn (by simp [Node.children])
  obtain rfl := Rx.ty ht
  have c := computed_valueOf hx hv Rx
  have k := grows_valueOf (fun h => (hx h).2) hv
  have hk : v = v' ∧ none = kept ∧ g₁ = g₂ := by
    rcases runs_handOver hh with ⟨h, -⟩ | ⟨h, -⟩ | ⟨-, he, rfl⟩
    · cases h
    · cases h
    · exact ⟨(Prod.mk.inj he).1.symm, (Prod.mk.inj he).2.symm, rfl⟩
  obtain ⟨hv', hkept, hg⟩ := hk
  subst hv' hkept hg
  have e : g₁.withFrees ((none : Option Nat).elim g₁.owned g₁.owned.eraseIdx) = g₁ := by
    simp [c.owned, ho, withFrees]
  rw [e]
  refine ⟨by simp [c.spilled], by simp [withoutInner, c.owned, ho], fun hH hH' ρ fr o hfr hex => ?_,
    fun _ _ ρ _ _ _ _ => ?_⟩
  · have hm : (g₁.withTerminator (.ret .int v)).withoutInner.mark = g₁.mark.terminate (.ret .int v) := by simp
    rw [hm] at hH' ⊢
    have hH₁ : σ.site.Holds g₁.mark := hH.between hH' k.code (Mark.before_terminate _ _)
    rcases Exec.ret_inv hn hex with ⟨a, ρ₁, e, rfl⟩ | ⟨e, rfl⟩
    · obtain ⟨fr₁, f, ag, -, o, -⟩ := c.runs hH hH₁ ρ fr _ hfr e
      rw [Word.of_false] at o
      show Ir.Returns _ _ _ _ (a, ρ₁.globals)
      rw [← ag.globals]
      exact Returns.of_steps f (Returns.of_steps
        (σ.site.steps_instr (show σ.site.Holds (g₁.mark.instr (.ret .int v)) from hH')) (returns_ret o))
    · exact c.runs hH hH₁ ρ fr none hfr e
  · obtain ⟨r, e⟩ := c.total ρ
    rcases r with _ | ⟨a, ρ₁⟩
    · exact ⟨_, .retErr hn e⟩
    · exact ⟨_, .ret hn e⟩

end Expressions

/-! ## Loops -/

section Loops

variable {c b : NodeId} {st : Option NodeId} {S E : Mark} {gb gb' : Generator}

/-- A loop's code runs as the loop does, one round after the other. -/
theorem LoopCode.runs (L : p.LoopCode σ c st b S E gb gb') {ρ : Env} {fr : Frame} {o : Outcome}
    (hfr : p.Stores σ.params σ.vars ρ fr) (hx : p.Exec σ.params σ.init ρ (.loop c st b) o) : p.StmtRuns σ S E fr o := by
  generalize hk : Code.loop c st b = k at hx
  induction hx generalizing fr with
  | loopExit he =>
    cases hk
    obtain ⟨fr₁, ag, -, f⟩ := L.test _ fr _ hfr he
    exact ⟨fr₁, f rfl, ag, fun _ => L.finish⟩
  | loopErr he =>
    cases hk
    exact L.test _ fr none hfr he
  | loopNext he ha xb xs _ _ _ ih =>
    cases hk
    obtain ⟨fr₁, ag₁, f, -⟩ := L.test _ fr _ hfr he
    obtain ⟨fr₂, f₂, ag₂, cl₂⟩ := L.body.runs L.holds.1 L.holds.2 _ fr₁ _ ag₁ xb
    obtain ⟨fr₃, f₃, ag₃, -⟩ := L.next _ fr₂ _ (cl₂ L.opened) ag₂ xs
    exact StmtRuns.flows (((f ha).trans f₂).trans f₃) id (ih ag₃ rfl)
  | loopBreak he ha xb hab _ =>
    cases hk
    obtain ⟨fr₁, ag₁, f, -⟩ := L.test _ fr _ hfr he
    exact StmtRuns.flows (f ha) (fun _ => L.opened) ((L.body.runs L.holds.1 L.holds.2 _ fr₁ _ ag₁ xb).abrupt hab)
  | loopStepBreak he ha xb xs hab _ _ =>
    cases hk
    obtain ⟨fr₁, ag₁, f, -⟩ := L.test _ fr _ hfr he
    obtain ⟨fr₂, f₂, ag₂, cl₂⟩ := L.body.runs L.holds.1 L.holds.2 _ fr₁ _ ag₁ xb
    exact StmtRuns.flows ((f ha).trans f₂) (fun _ => cl₂ L.opened)
      ((L.next _ fr₂ _ (cl₂ L.opened) ag₂ xs).abrupt hab)
  | _ => cases hk

/-- A run of a loop's code that returns within `n` steps belongs to an execution of the loop: each round that goes on
takes steps, so the rounds come to an end. -/
theorem LoopCode.ends (L : p.LoopCode σ c st b S E gb gb') (n : Nat) :
    ∀ {ρ : Env} {fr : Frame} {r : Int32 × (String → Int32)}, p.Stores σ.params σ.vars ρ fr →
      run σ.site.body σ.init n (σ.site.rest S) fr = some r → ∃ o, p.Exec σ.params σ.init ρ (.loop c st b) o := by
  induction n using Nat.strong_induction_on with
  | _ n ih =>
  intro ρ fr r hfr hr
  obtain ⟨r₀, he⟩ := L.total ρ
  rcases r₀ with _ | ⟨a, ρ₁⟩
  · exact ⟨_, .loopErr he⟩
  obtain ⟨fr₁, ag₁, ft, -⟩ := L.test ρ fr _ hfr he
  by_cases ha : a = 0
  · subst ha
    exact ⟨_, .loopExit he⟩
  obtain ⟨m, hm, hr₁⟩ := σ.site.run_lt L.holds.1 L.progress (ft ha) hr
  obtain ⟨o₁, xb⟩ := L.body.ends L.holds.1 L.holds.2 ρ₁ fr₁ r ag₁ ⟨m, hr₁⟩
  cases o₁ with
  | ret v ρ₂ => exact ⟨_, .loopBreak he ha xb trivial⟩
  | error => exact ⟨_, .loopBreak he ha xb trivial⟩
  | normal ρ₂ =>
    obtain ⟨fr₂, f₂, ag₂, cl₂⟩ := L.body.runs L.holds.1 L.holds.2 ρ₁ fr₁ _ ag₁ xb
    obtain ⟨o₂, xs⟩ := L.nextTotal ρ₂
    cases o₂ with
    | ret v ρ₃ => exact ⟨_, .loopStepBreak he ha xb xs trivial⟩
    | error => exact ⟨_, .loopStepBreak he ha xb xs trivial⟩
    | normal ρ₃ =>
      -- the round went back to the test with fewer steps left
      obtain ⟨fr₃, f₃, ag₃, -⟩ := L.next ρ₂ fr₂ _ (cl₂ L.opened) ag₂ xs
      obtain ⟨k, hk, hr₃⟩ := run_of_steps (f₂.trans f₃) hr₁
      obtain ⟨o, xl⟩ := ih k (by omega) ag₃ hr₃
      exact ⟨o, .loopNext he ha xb xs xl⟩

end Loops

/-! ## Instructions with parts -/

section Blocks

variable {w : Walk}
  (he : ∀ {id : NodeId} {g g' : Generator}, Runs (w.emit id) g () g' → p.Emits σ id g g' ∧ p.Grows id g g')
include he

/-- The items of a block run one after the other, until one does not end normally. -/
theorem emitted_forM {items : List NodeId} {g g' : Generator} (h : Runs (items.forM w.emit) g () g')
    (hr : p.ReadyItems σ items g) : p.Emitted σ (.seq items) g g' ∧ g.mark.Before g'.mark := by
  induction items generalizing g with
  | nil =>
    obtain rfl := Runs.forM_nil.mp h
    exact ⟨emitted_nil hr.spilled hr.owned, List.prefix_refl _⟩
  | cons i is ih =>
    obtain ⟨g₁, h₁, h₂⟩ := Runs.forM_cons.mp h
    obtain ⟨E₁, k₁⟩ := he h₁
    have E := E₁ (hr.ready i (List.mem_cons_self ..)) hr.owned
    have hp := List.pairwise_cons.mp hr.apart
    obtain ⟨E₂, b₂⟩ := ih h₂ ⟨E.spilled, E.owned, fun c hc => (hr.ready c (List.mem_cons_of_mem _ hc)).of_values
      (fun x hx => k₁.values x fun hi => hp.1 c hc x hi hx) E.spilled, hp.2⟩
    refine ⟨⟨E₂.spilled, E₂.owned, fun hH hH' ρ fr o hfr hx => ?_, fun hH hH' ρ fr r hfr hr' => ?_⟩,
      k₁.code.trans b₂⟩
    · have hH₁ := hH.between hH' k₁.code b₂
      rcases Exec.cons_inv hx with ⟨ρ₁, x₁, x₂⟩ | ⟨x₁, ha⟩
      · obtain ⟨fr₁, f, ag, cl⟩ := E.runs hH hH₁ ρ fr _ hfr x₁
        exact StmtRuns.flows f cl (E₂.runs hH₁ hH' ρ₁ fr₁ o ag x₂)
      · exact (E.runs hH hH₁ ρ fr o hfr x₁).abrupt ha
    · have hH₁ := hH.between hH' k₁.code b₂
      obtain ⟨o₁, x₁⟩ := E.ends hH hH₁ ρ fr r hfr hr'
      cases o₁ with
      | normal ρ₁ =>
        obtain ⟨fr₁, f, ag, -⟩ := E.runs hH hH₁ ρ fr _ hfr x₁
        obtain ⟨o, x₂⟩ := E₂.ends hH₁ hH' ρ₁ fr₁ r ag (Returns.steps f hr')
        exact ⟨o, .cons x₁ x₂⟩
      | ret v ρ₁ => exact ⟨_, .consBreak x₁ trivial⟩
      | error => exact ⟨_, .consBreak x₁ trivial⟩

/-- A block runs its items. -/
theorem emitted_block {id : NodeId} {items : List NodeId} (hn : p.ast.get? id = some (.stmt (.block items)))
    {g g' : Generator} (h : Runs (items.forM w.emit) g () g') (hR : p.Ready σ id g) (ho : g.owned = []) :
    p.Emitted σ (.node id) g g' := by
  have hi : p.ReadyItems σ items g :=
    ⟨hR.spilled, ho, fun c hc => hR.child hn (by simpa [Node.children] using hc), (hR.tree id _ (.refl id) hn).1⟩
  obtain ⟨E, -⟩ := emitted_forM he h hi
  exact ⟨E.spilled, E.owned, fun hH hH' ρ fr o hfr hx => E.runs hH hH' ρ fr o hfr (Exec.block_inv hn hx),
    fun hH hH' ρ fr r hfr hr => (E.ends hH hH' ρ fr r hfr hr).imp fun _ x => .block hn x⟩

end Blocks

end Program

end Lowering
