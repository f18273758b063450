import Lowering.Proofs.Positions
import Lowering.Proofs.Recorded

/-!
# Lowered expressions compute their values

The code that lowering writes for an expression of the integer fragment computes, when it runs, what the expression
evaluates to. Run from a frame that agrees with the environment, it fails when the evaluation is an error, and
otherwise reaches the end of the code with a frame that agrees with the environment the evaluation leaves, the
registers made before kept, the operand lowering gave holding the value, and the operand recorded for each node the
evaluation passes holding that node's value (`Program.Computed`, `Program.Recorded`). The operand of a comparison holds
a truth value where the comparison evaluates to one or zero: `valueOf` widens it, and `testOf` compares any other
value with zero.

This holds of a node that lowering meets for the first time (`Program.Ready`): no node it reaches has its operand
recorded yet, so each is lowered by its form; and the nodes it reaches form a tree, so lowering one operand records
nothing that the next one reaches, and nothing a node's operands record is recorded again for the node. Main
statement: `lowered_expression_computes`, for the code lowering appends at any depth of the walk.
-/

namespace Lowering

open Ir Generator

namespace Ir

/-- The registers made before generator `g` hold in `fr'` what they held in `fr`. -/
def Frame.Kept (g : Generator) (fr fr' : Frame) : Prop :=
  ∀ r : Reg, r.index < g.nextIndex r.base → fr'.regs r = fr.regs r

/-- An operand as lowering gives it for an expression: a constant, or a register made before `g`. -/
def Value.Held (g : Generator) : Value → Prop
  | .int _ => True
  | .reg r => r.index < g.nextIndex r.base
  | _ => False

variable {g g₁ : Generator} {fr fr₁ fr₂ : Frame}

/-- A frame keeps its own registers. -/
theorem Frame.Kept.refl (g : Generator) (fr : Frame) : fr.Kept g fr := fun _ _ => rfl

/-- Keeping the registers made before `g`, then those made before a later generator, keeps the first. -/
theorem Frame.Kept.trans (h₁ : fr.Kept g fr₁) (h₂ : fr₁.Kept g₁ fr₂) (hle : ∀ b, g.nextIndex b ≤ g₁.nextIndex b) :
    fr.Kept g fr₂ :=
  fun r hr => (h₂ r (lt_of_lt_of_le hr (hle r.base))).trans (h₁ r hr)

/-- Setting a register made after `g` keeps those made before. -/
theorem Frame.Kept.set {r : Reg} (w : Word) (h : g.nextIndex r.base ≤ r.index) : fr.Kept g (fr.set r w) := by
  intro r' hr'
  have hne : r' ≠ r := fun e => by subst e; omega
  simp [Function.update_of_ne hne]

/-- An operand held by `g` reads alike in a frame that keeps the registers made before `g`. -/
theorem Value.Held.operand {v : Value} (hv : v.Held g) (hk : fr.Kept g fr₁) : fr₁.operand v = fr.operand v := by
  cases v with
  | int n => rfl
  | reg r => exact hk r hv
  | arg => exact hv.elim
  | null => exact hv.elim

/-- An operand held by a generator is held by every later one. -/
theorem Value.Held.mono {v : Value} (hv : v.Held g) (hle : ∀ b, g.nextIndex b ≤ g₁.nextIndex b) : v.Held g₁ := by
  cases v with
  | int n => trivial
  | reg r => exact lt_of_lt_of_le hv (hle r.base)
  | arg => exact hv.elim
  | null => exact hv.elim

/-- The register an instruction writes into, taken fresh after `g`, is held after it. -/
theorem held_nextReg (g : Generator) (b : String) (i : Instr) : (Value.reg (g.nextReg b)).Held ((g.withFresh b).withInstr i) := by
  simp [Value.Held, nextReg, nextIndex_withFresh]

/-- Recording an operand changes no register counter. -/
@[simp] theorem Value.held_withValue {v : Value} (id : NodeId) (u : Value) : v.Held (g.withValue id u) ↔ v.Held g := by
  cases v <;> simp [Value.Held]

/-- The value of an expression that is not a comparison is held as an integer. -/
@[simp] theorem Word.of_false (a : Int32) : Word.of false a = .int a := rfl

/-- The value of a comparison is held as a truth value. -/
@[simp] theorem Word.of_true (a : Int32) : Word.of true a = .bit (decide (a ≠ 0)) := rfl

/-- What the simulation of a function body is relative to: the function's parameters, the variables its nodes may
name, what the storage of each local starts with, and the body's code. -/
structure Setting where
  params : List SymbolId
  vars : SymbolId → Prop
  init : String → Int32
  site : Site

end Ir

namespace Program

variable (p : Program) (σ : Setting)

/-- No node reached from `id` has its operand recorded in `g`. -/
def Unlowered (g : Generator) (id : NodeId) : Prop := ∀ x, p.Reaches id x → g.values[x]? = none

/-- A node that lowering meets from `g` for the first time, as a node of a function body of the integer fragment:
the parameters are spilled, no two variables share a slot, every node it reaches is of the fragment and met for the
first time, and they form a tree. -/
structure Ready (id : NodeId) (g : Generator) : Prop where
  spilled : g.spilled = σ.params
  apart : p.SlotsApart σ.params σ.vars
  fragment : p.Within (p.IntNode σ.params σ.vars) id
  tree : p.Tree id
  unlowered : p.Unlowered g id

/-- The operand recorded in `g` for each node that evaluating `id` from `ρ` passes is one made before `g`, and holds in
`fr` the node's value, a comparison's as a truth value. -/
def Recorded (ps : List SymbolId) (ρ : Env) (id : NodeId) (g : Generator) (fr : Frame) : Prop :=
  ∀ x a, p.Visits ps ρ id x a →
    ∃ u, g.values[x]? = some u ∧ u.Held g ∧ fr.operand u = some (Word.of (p.isComparison x) a)

/-- How the code of an expression, written from `g` to `g'`, runs from a frame that agrees with `ρ`, for each way the
expression's evaluation ends: with a value, the run reaches the end of the code, in agreement with the environment the
evaluation leaves, keeping the registers made before, with the operand `v` holding the value, read as `cmp` says, and
with what `g'` records for the nodes the evaluation passes; with an error, the run fails. -/
def ExprRuns (cmp : Bool) (id : NodeId) (g : Generator) (v : Value) (g' : Generator) (ρ : Env) (fr : Frame) :
    Option (Int32 × Env) → Prop
  | some (a, ρ') => ∃ fr', σ.site.Flows σ.init g.mark g'.mark fr fr' ∧ p.Stores σ.params σ.vars ρ' fr' ∧
      fr.Kept g fr' ∧ fr'.operand v = some (Word.of cmp a) ∧ p.Recorded σ.params ρ id g' fr'
  | none => Fails σ.site.body σ.init (σ.site.rest g.mark) fr

/-- What a run of lowering from `g` to `g'` that gave the operand `v` of node `id` does: the parameters stay spilled
and the strings owned stay as they were; an open block stays open; the operand is held; the node evaluates in every
environment; and the code written computes the node's value, read as `cmp` says. -/
structure Computed (cmp : Bool) (id : NodeId) (g : Generator) (v : Value) (g' : Generator) : Prop where
  spilled : g'.spilled = σ.params
  owned : g'.owned = g.owned
  opened : g.closed = false → g'.closed = false
  held : v.Held g'
  total : ∀ ρ, ∃ r, p.Eval σ.params ρ id r
  runs : σ.site.Holds g.mark → σ.site.Holds g'.mark → ∀ ρ fr r, p.Stores σ.params σ.vars ρ fr →
    p.Eval σ.params ρ id r → p.ExprRuns σ cmp id g v g' ρ fr r

/-- Lowering an expression node met for the first time computes it, read as its form says. -/
def Computes (id : NodeId) (g : Generator) (v : Value) (g' : Generator) : Prop :=
  p.Ready σ id g → p.Computed σ (p.isComparison id) id g v g'

variable {p σ}

/-- A reference of a node met for the first time is met for the first time, in the same setting. -/
theorem Ready.child {id c : NodeId} {n : Node} {g : Generator} (h : p.Ready σ id g) (hn : p.ast.get? id = some n)
    (hc : c ∈ n.children) : p.Ready σ c g :=
  ⟨h.spilled, h.apart, h.fragment.child hn hc, h.tree.child hn hc, fun x hx => h.unlowered x (.child hn hc hx)⟩

/-- The later of two references of a node, met after lowering the earlier one, is met for the first time. -/
theorem Ready.next {id c c' : NodeId} {n : Node} {g g₁ : Generator} (h : p.Ready σ id g) (hn : p.ast.get? id = some n)
    {pre mid post : List NodeId} (hc : n.children = pre ++ c :: mid ++ c' :: post) (hk : p.ValuesKept c g g₁)
    (hs : g₁.spilled = σ.params) : p.Ready σ c' g₁ := by
  have hc' : c' ∈ n.children := by rw [hc]; simp
  refine ⟨hs, h.apart, h.fragment.child hn hc', h.tree.child hn hc', fun x hx => ?_⟩
  rw [hk x fun hr => h.tree.apart hn hc hr hx]
  exact h.unlowered x (.child hn hc' hx)

/-- A node of the fragment with a recorded type is an integer expression. -/
theorem Ready.ty {id : NodeId} {g : Generator} {t : Ty} (h : p.Ready σ id g) (ht : p.ast.ty? id = some t) :
    t = .int := by
  unfold Ast.ty? at ht
  cases hn : p.ast.get? id with
  | none => simp [hn] at ht
  | some n =>
    have hi := h.fragment.node hn
    rw [hn] at ht
    cases n with
    | stmt s => simp [Node.ty] at ht
    | expr e t₀ =>
      simp only [Option.bind_some, Node.ty] at ht
      subst ht
      cases e <;> simp_all [IntNode]

/-- A node that is a comparison is a comparison node. -/
theorem isComparison_eq_true {id : NodeId} (h : p.isComparison id = true) :
    ∃ op l r t, p.ast.get? id = some (.expr (.cmp op l r) t) := by
  unfold isComparison at h
  split at h
  · exact ⟨_, _, _, _, by assumption⟩
  · cases h

/-- A comparison evaluates to one or zero, so widening its truth value gives the value back. -/
theorem Eval.widen_cmp {ps : List SymbolId} {ρ ρ' : Env} {id : NodeId} {a : Int32} (hc : p.isComparison id = true)
    (h : p.Eval ps ρ id (some (a, ρ'))) : (if a ≠ 0 then (1 : Int32) else 0) = a := by
  obtain ⟨op, l, r, t, hn⟩ := isComparison_eq_true hc
  rcases Eval.cmp_inv hn h with ⟨a₁, ρ₁, b, ρ₂, -, -, he⟩ | ⟨-, he⟩ | ⟨-, -, -, -, he⟩
  · obtain ⟨rfl, -⟩ := Prod.mk.inj (Option.some.inj he)
    cases op.holds a₁ b <;> decide
  · cases he
  · cases he

/-- A node lowered by its walk after its first lowering is not met again: an unlowered node is lowered by its form. -/
theorem Ready.not_recorded {id : NodeId} {g : Generator} (h : p.Ready σ id g) : g.values[id]? = none :=
  h.unlowered id (.refl id)

/-! ## The nodes an evaluation passes -/

/-- An evaluation passes only nodes reached from the node evaluated. -/
theorem Visits.reaches {ps : List SymbolId} {ρ : Env} {id x : NodeId} {a : Int32} (h : p.Visits ps ρ id x a) :
    p.Reaches id x := by
  induction h with
  | self => exact .refl _
  | neg hn _ ih | arithLeft hn _ ih | arithRight hn _ _ ih | cmpLeft hn _ ih | cmpRight hn _ _ ih | assign hn _ ih =>
    exact .child hn (by simp [Node.children]) ih

/-- A node without operands passes only itself. -/
theorem Visits.leaf_inv {ps : List SymbolId} {ρ : Env} {id x : NodeId} {a : Int32} {n : Node}
    (hn : p.ast.get? id = some n) (hc : n.children = []) (h : p.Visits ps ρ id x a) :
    x = id ∧ ∃ ρ', p.Eval ps ρ id (some (a, ρ')) := by
  cases h with
  | self he => exact ⟨rfl, _, he⟩
  | neg hn' | arithLeft hn' | arithRight hn' | cmpLeft hn' | cmpRight hn' | assign hn' =>
    rw [hn] at hn'
    cases hn'
    simp [Node.children] at hc

section Recording

variable {ps : List SymbolId} {ρ : Env} {id c : NodeId} {g g₁ : Generator} {fr fr₁ : Frame}

/-- What is recorded stays recorded while nothing the node reaches is recorded again and the registers made before
are kept. -/
theorem Recorded.mono (h : p.Recorded ps ρ id g fr) (hv : ∀ x, p.Reaches id x → g₁.values[x]? = g.values[x]?)
    (hle : ∀ b, g.nextIndex b ≤ g₁.nextIndex b) (hk : fr.Kept g fr₁) : p.Recorded ps ρ id g₁ fr₁ := by
  intro x a hx
  obtain ⟨u, hu, hh, ho⟩ := h x a hx
  exact ⟨u, by rw [hv x hx.reaches, hu], hh.mono hle, by rw [hh.operand hk, ho]⟩

/-- A fresh register, and an instruction that writes it, keep what is recorded. -/
theorem Recorded.fresh (h : p.Recorded ps ρ id g fr) (b : String) (i : Instr) (w : Word) :
    p.Recorded ps ρ id ((g.withFresh b).withInstr i) (fr.set (g.nextReg b) w) :=
  h.mono (fun _ _ => by simp) (fun b' => by rw [nextIndex_withInstr]; exact nextIndex_le_withFresh g b b')
    (Frame.Kept.set _ (le_refl _))

/-- What lowering an operand recorded stays recorded through the operand of the node, which the operand does not
reach. -/
theorem Recorded.withValue (h : p.Recorded ps ρ c g fr) (hc : ¬p.Reaches c id) (u : Value) :
    p.Recorded ps ρ c (g.withValue id u) fr := by
  refine h.mono (fun x hx => ?_) (fun b => by simp) (.refl g fr)
  have hne : id ≠ x := fun e => hc (e ▸ hx)
  simp [Std.HashMap.getElem?_insert, hne]

/-- A node records its own operand, holding its value; every other node its evaluation passes, the evaluation of one
of its operands passes, and the operand's lowering recorded it. -/
theorem Recorded.node {ρ' : Env} {a : Int32} {u : Value} (he : p.Eval ps ρ id (some (a, ρ'))) (hu : u.Held g)
    (ho : fr.operand u = some (Word.of (p.isComparison id) a))
    (hinv : ∀ y b, p.Visits ps ρ id y b → (y = id ∧ ∃ ρ'', p.Eval ps ρ id (some (b, ρ''))) ∨
      ∃ c ρc, p.Recorded ps ρc c (g.withValue id u) fr ∧ p.Visits ps ρc c y b) :
    p.Recorded ps ρ id (g.withValue id u) fr := by
  intro y b hy
  rcases hinv y b hy with ⟨rfl, ρ'', he'⟩ | ⟨c, ρc, hc, hy⟩
  · cases Eval.det he he'
    exact ⟨u, by simp, by simpa using hu, ho⟩
  · exact hc y b hy

end Recording

section Operands

variable {w : Walk} {g g' : Generator}
  (hx : ∀ {id : NodeId} {g : Generator} {v : Value} {g' : Generator}, Runs (w.expr id) g v g' →
    p.Computes σ id g v g' ∧ p.Grows id g g')
include hx

/-- The value of an expression as an integer: a comparison's truth value is widened into a fresh register. -/
theorem computed_valueOf {id : NodeId} {v : Value} (h : Runs (p.valueOf w id) g v g') (hr : p.Ready σ id g) :
    p.Computed σ false id g v g' := by
  obtain ⟨v₁, g₁, h₁, h₂⟩ := runs_valueOf h
  have c₁ := (hx h₁).1 hr
  have k₁ := (hx h₁).2
  by_cases hc : p.isComparison id
  · simp only [hc, if_true] at h₂
    obtain ⟨rfl, rfl⟩ := h₂
    rw [hc] at c₁
    have em : ((g₁.withFresh "tmp").withInstr (.widen (g₁.nextReg "tmp") v₁)).mark =
        g₁.mark.instr (.widen (g₁.nextReg "tmp") v₁) := by simp
    refine ⟨by simpa using c₁.spilled, by simpa using c₁.owned, fun _ => by simp, held_nextReg _ _ _, c₁.total, ?_⟩
    intro hH hH' ρ fr r hfr he
    rw [em] at hH'
    have hH₁ : σ.site.Holds g₁.mark :=
      hH.between hH' k₁.code (by rw [Mark.instr_code, List.append_assoc]; exact List.prefix_append _ _)
    cases r with
    | none => exact c₁.runs hH hH₁ ρ fr none hfr he
    | some ar =>
      obtain ⟨a, ρ'⟩ := ar
      obtain ⟨fr₁, hf, ha, hk, hv, hR₁⟩ := c₁.runs hH hH₁ ρ fr _ hfr he
      rw [Word.of_true] at hv
      refine ⟨_, by rw [em]; exact hf.trans (σ.site.flows_instr hH' fun code => step_widen hv), ha.set _ _,
        hk.trans (Frame.Kept.set _ (le_refl _)) k₁.counters, ?_, hR₁.fresh _ _ _⟩
      simp [Eval.widen_cmp hc he]
  · simp only [hc, Bool.false_eq_true, if_false] at h₂
    obtain ⟨rfl, rfl⟩ := h₂
    simpa [hc] using c₁

/-- The truth value of a test: a comparison's as it is, any other value's compared with zero. -/
theorem computed_testOf {id : NodeId} {v : Value} (h : Runs (p.testOf w id) g v g') (hr : p.Ready σ id g) :
    p.Computed σ true id g v g' := by
  obtain ⟨t, -, ⟨hc, h⟩ | ⟨-, -, v₁, g₁, h₁, rfl, rfl⟩⟩ := runs_testOf h
  · simpa [hc] using (hx h).1 hr
  · have c₁ := computed_valueOf hx h₁ hr
    have k₁ := grows_valueOf (fun h => (hx h).2) h₁
    have em : ((g₁.withFresh "tmp").withInstr (.icmp (g₁.nextReg "tmp") .ne v₁ (.int 0))).mark =
        g₁.mark.instr (.icmp (g₁.nextReg "tmp") .ne v₁ (.int 0)) := by simp
    refine ⟨by simpa using c₁.spilled, by simpa using c₁.owned, fun _ => by simp, held_nextReg _ _ _, c₁.total, ?_⟩
    intro hH hH' ρ fr r hfr he
    rw [em] at hH'
    have hH₁ : σ.site.Holds g₁.mark :=
      hH.between hH' k₁.code (by rw [Mark.instr_code, List.append_assoc]; exact List.prefix_append _ _)
    cases r with
    | none => exact c₁.runs hH hH₁ ρ fr none hfr he
    | some ar =>
      obtain ⟨a, ρ'⟩ := ar
      obtain ⟨fr₁, hf, ha, hk, hv, hR₁⟩ := c₁.runs hH hH₁ ρ fr _ hfr he
      refine ⟨_, by rw [em]; exact hf.trans (σ.site.flows_instr hH' fun code => step_icmp hv (Frame.operand_int _ 0)),
        ha.set _ _, hk.trans (Frame.Kept.set _ (le_refl _)) k₁.counters, ?_, hR₁.fresh _ _ _⟩
      simp [CmpOp.holds]

end Operands

/-! ## Each form of expression -/

section Forms

variable {w : Walk} {g g' : Generator}

/-- Two operands run one after the other: the first one's operand is kept while the second runs. -/
theorem operands_run {l r : NodeId} {vl vr : Value} {g₁ g₂ : Generator} (c₁ : p.Computed σ false l g vl g₁)
    (c₂ : p.Computed σ false r g₁ vr g₂) (k : ∀ b, g.nextIndex b ≤ g₁.nextIndex b) (hH : σ.site.Holds g.mark)
    (hH₁ : σ.site.Holds g₁.mark) (hH₂ : σ.site.Holds g₂.mark) {ρ ρ₁ ρ₂ : Env} {fr : Frame} {a b : Int32}
    (hfr : p.Stores σ.params σ.vars ρ fr) (e₁ : p.Eval σ.params ρ l (some (a, ρ₁)))
    (e₂ : p.Eval σ.params ρ₁ r (some (b, ρ₂))) :
    ∃ fr₂, σ.site.Flows σ.init g.mark g₂.mark fr fr₂ ∧ p.Stores σ.params σ.vars ρ₂ fr₂ ∧ fr.Kept g fr₂ ∧
      fr₂.operand vl = some (.int a) ∧ fr₂.operand vr = some (.int b) ∧ p.Recorded σ.params ρ l g₁ fr₂ ∧
      p.Recorded σ.params ρ₁ r g₂ fr₂ := by
  obtain ⟨fr₁, f₁, a₁, k₁, o₁, R₁⟩ := c₁.runs hH hH₁ ρ fr _ hfr e₁
  obtain ⟨fr₂, f₂, a₂, k₂, o₂, R₂⟩ := c₂.runs hH₁ hH₂ ρ₁ fr₁ _ a₁ e₂
  exact ⟨fr₂, f₁.trans f₂, a₂, k₁.trans k₂ k, by rw [c₁.held.operand k₂, o₁]; rfl, o₂,
    R₁.mono (fun _ _ => rfl) (fun _ => le_refl _) k₂, R₂⟩

/-- The second of two operands fails after the first ran. -/
theorem operands_fail {l r : NodeId} {vl vr : Value} {g₁ g₂ : Generator} (c₁ : p.Computed σ false l g vl g₁)
    (c₂ : p.Computed σ false r g₁ vr g₂) (hH : σ.site.Holds g.mark) (hH₁ : σ.site.Holds g₁.mark)
    (hH₂ : σ.site.Holds g₂.mark) {ρ ρ₁ : Env} {fr : Frame} {a : Int32} (hfr : p.Stores σ.params σ.vars ρ fr)
    (e₁ : p.Eval σ.params ρ l (some (a, ρ₁))) (e₂ : p.Eval σ.params ρ₁ r none) :
    Fails σ.site.body σ.init (σ.site.rest g.mark) fr := by
  obtain ⟨fr₁, f₁, a₁, -, -, -⟩ := c₁.runs hH hH₁ ρ fr _ hfr e₁
  exact Fails.of_steps f₁ (c₂.runs hH₁ hH₂ ρ₁ fr₁ none a₁ e₂)

/-- The nodes that the operands of a node with two operands pass stay recorded through the node's instruction and its
operand: the right operand reaches none of the left one's nodes, and neither reaches the node. -/
theorem recorded_operands {id l r : NodeId} {n : Node} {g₁ g₂ : Generator} (hR : p.Ready σ id g)
    (hn : p.ast.get? id = some n) (hc : n.children = [l, r]) (k₂ : p.Grows r g₁ g₂) {ρ ρ₁ : Env} {fr₂ : Frame}
    {a : Int32} (e₁ : p.Eval σ.params ρ l (some (a, ρ₁))) (R₁ : p.Recorded σ.params ρ l g₁ fr₂)
    (R₂ : p.Recorded σ.params ρ₁ r g₂ fr₂) (i : Instr) (w : Word) (u : Value)
    (hinv : ∀ y b, p.Visits σ.params ρ id y b → (y = id ∧ ∃ ρ', p.Eval σ.params ρ id (some (b, ρ'))) ∨
      p.Visits σ.params ρ l y b ∨ ∃ b' ρ', p.Eval σ.params ρ l (some (b', ρ')) ∧ p.Visits σ.params ρ' r y b) :
    ∀ y b, p.Visits σ.params ρ id y b → (y = id ∧ ∃ ρ', p.Eval σ.params ρ id (some (b, ρ'))) ∨
      ∃ c ρc, p.Recorded σ.params ρc c (((g₂.withFresh "tmp").withInstr i).withValue id u)
        (fr₂.set (g₂.nextReg "tmp") w) ∧ p.Visits σ.params ρc c y b := by
  have hl : ¬p.Reaches l id := hR.tree.not_reaches hn (by simp [hc])
  have hr : ¬p.Reaches r id := hR.tree.not_reaches hn (by simp [hc])
  have hs : n.children = [] ++ l :: [] ++ r :: [] := hc
  -- the left operand's nodes are first kept by the right operand, which does not reach them
  have Q₁ := ((R₁.mono (fun x hx => k₂.values x (hR.tree.apart hn hs hx)) k₂.counters (.refl _ _)).fresh "tmp" i
    w).withValue hl u
  have Q₂ := (R₂.fresh "tmp" i w).withValue hr u
  intro y b hy
  rcases hinv y b hy with hs | hy | ⟨b', ρ', e₁', hy⟩
  · exact .inl hs
  · exact .inr ⟨l, ρ, Q₁, hy⟩
  · cases Eval.det e₁ e₁'
    exact .inr ⟨r, ρ₁, Q₂, hy⟩

/-- The code of a node of the fragment ends with one instruction after what its operands wrote. -/
theorem prefix_instr (g₁ : Generator) (i : Instr) : g₁.mark.code <+: (g₁.mark.instr i).code := by
  rw [Mark.instr_code, List.append_assoc]
  exact List.prefix_append _ _

/-- A variable read loads the variable where lowering keeps it. -/
theorem computed_read {id : NodeId} {s : SymbolId} {t : Option Ty} (hn : p.ast.get? id = some (.expr (.read s) t))
    {v : Value} (h : Runs (p.lowerForm w id (.read s)) g v g') (hR : p.Ready σ id g) :
    p.Computed σ (p.isComparison id) id g v g' := by
  obtain ⟨rfl, rfl⟩ := runs_lowerForm_read h
  have hs : σ.vars s := (hR.fragment.node hn).2
  have hc : p.isComparison id = false := by simp [isComparison, hn]
  rw [hc, hR.spilled]
  set i := Instr.load (g.nextReg (p.symbols.symbol s).name) (p.symbols.symbol s).ty (p.addressOf σ.params s)
  refine ⟨by simpa using hR.spilled, by simp, fun _ => by simp, by simpa using held_nextReg g _ i,
    fun ρ => ⟨_, .read hn⟩, ?_⟩
  intro hH hH' ρ fr r hfr he
  have em : (((g.withFresh (p.symbols.symbol s).name).withInstr i).withValue id
      (.reg (g.nextReg (p.symbols.symbol s).name))).mark = g.mark.instr i := by simp
  rw [em] at hH'
  obtain rfl := Eval.read_inv hn he
  have hl := hfr.read hs
  cases hv : p.load σ.params ρ s with
  | none => exact σ.site.fails_instr hH' fun code => step_load_none (hl.trans hv)
  | some a =>
    rw [hv] at hl he
    simp only [Option.map_some] at he
    refine ⟨_, by rw [em]; exact σ.site.flows_instr hH' fun code => step_load hl, hfr.set _ _,
      Frame.Kept.set _ (le_refl _), by simp, ?_⟩
    exact Recorded.node he (held_nextReg g _ i) (by simp [hc]) fun y b hy => .inl (Visits.leaf_inv hn rfl hy)

/-- An integer constant is its own operand, and writes no code. -/
theorem computed_int {id : NodeId} {n : Int32} {t : Option Ty} (hn : p.ast.get? id = some (.expr (.int n) t))
    {v : Value} (h : Runs (p.lowerForm w id (.int n)) g v g') (hR : p.Ready σ id g) :
    p.Computed σ (p.isComparison id) id g v g' := by
  obtain ⟨rfl, rfl⟩ := runs_lowerForm_int h
  have hc : p.isComparison id = false := by simp [isComparison, hn]
  rw [hc]
  refine ⟨by simpa using hR.spilled, by simp, fun h => by simpa using h, trivial, fun ρ => ⟨_, .int hn⟩, ?_⟩
  intro hH hH' ρ fr r hfr he
  obtain rfl := Eval.int_inv hn he
  exact ⟨fr, by simpa using Site.Flows.refl g.mark fr, hfr, .refl g fr, rfl,
    Recorded.node he trivial (by simp [hc]) fun y b hy => .inl (Visits.leaf_inv hn rfl hy)⟩

section Operands

variable (hx : ∀ {id : NodeId} {g : Generator} {v : Value} {g' : Generator}, Runs (w.expr id) g v g' →
    p.Computes σ id g v g' ∧ p.Grows id g g')
include hx

/-- A negation subtracts its operand from zero. -/
theorem computed_neg {id x : NodeId} {t : Option Ty} (hn : p.ast.get? id = some (.expr (.neg x) t))
    {v : Value} (h : Runs (p.lowerForm w id (.neg x)) g v g') (hR : p.Ready σ id g) :
    p.Computed σ (p.isComparison id) id g v g' := by
  obtain ⟨-, v₁, g₁, h₁, rfl, rfl⟩ := runs_lowerForm_neg h
  have c₁ := computed_valueOf hx h₁ (hR.child hn (by simp [Node.children]))
  have k₁ := grows_valueOf (fun h => (hx h).2) h₁
  have hc : p.isComparison id = false := by simp [isComparison, hn]
  rw [hc]
  set i := Instr.arith (g₁.nextReg "tmp") .sub (.int 0) v₁
  refine ⟨by simpa using c₁.spilled, by simpa using c₁.owned, fun _ => by simp, by simpa using held_nextReg g₁ _ i,
    fun ρ => ?_, ?_⟩
  · obtain ⟨r₁, e₁⟩ := c₁.total ρ
    exact ⟨_, .neg hn e₁⟩
  intro hH hH' ρ fr r hfr he
  have em : (((g₁.withFresh "tmp").withInstr i).withValue id (.reg (g₁.nextReg "tmp"))).mark = g₁.mark.instr i := by
    simp
  rw [em] at hH'
  have hH₁ : σ.site.Holds g₁.mark := hH.between hH' k₁.code (prefix_instr g₁ i)
  obtain ⟨r₁, e₁, rfl⟩ := Eval.neg_inv hn he
  cases r₁ with
  | none => exact c₁.runs hH hH₁ ρ fr none hfr e₁
  | some ar =>
    obtain ⟨a, ρ₁⟩ := ar
    simp only [Option.map_some] at he
    obtain ⟨fr₁, f₁, a₁, k, o₁, R₁⟩ := c₁.runs hH hH₁ ρ fr _ hfr e₁
    refine ⟨_, by rw [em]; exact f₁.trans (σ.site.flows_instr hH' fun code => step_arith (Frame.operand_int _ 0) o₁ rfl),
      a₁.set _ _, k.trans (Frame.Kept.set _ (le_refl _)) k₁.counters, by simp, ?_⟩
    have Q₁ := (R₁.fresh "tmp" i (.int (0 - a))).withValue
      (hR.tree.not_reaches hn (by simp [Node.children])) (.reg (g₁.nextReg "tmp"))
    exact Recorded.node he (held_nextReg g₁ _ i) (by simp [hc]) fun y b hy =>
      (Visits.neg_inv hn hy).imp (fun h => h) fun hy => ⟨x, ρ, Q₁, hy⟩

/-- The two operands of a node, lowered left to right from a generator that meets the node for the first time: each
is met for the first time in its turn, so each is computed, and both are integers. -/
theorem computed_operands {id l r : NodeId} {n : Node} {t : Ty} (hn : p.ast.get? id = some n)
    (hc : n.children = [l, r]) (hR : p.Ready σ id g) (hl : p.ast.ty? l = some t) {vl vr : Value} {g₁ g₂ : Generator}
    (h₁ : Runs (p.valueOf w l) g vl g₁) (h₂ : Runs (p.valueOf w r) g₁ vr g₂) :
    t = .int ∧ p.Computed σ false l g vl g₁ ∧ p.Grows l g g₁ ∧ p.Computed σ false r g₁ vr g₂ ∧ p.Grows r g₁ g₂ := by
  have R₁ : p.Ready σ l g := hR.child hn (by simp [hc])
  have c₁ := computed_valueOf hx h₁ R₁
  have k₁ := grows_valueOf (fun h => (hx h).2) h₁
  have R₂ : p.Ready σ r g₁ := hR.next hn (show n.children = [] ++ l :: [] ++ r :: [] from hc) k₁.values c₁.spilled
  exact ⟨R₁.ty hl, c₁, k₁, computed_valueOf hx h₂ R₂, grows_valueOf (fun h => (hx h).2) h₂⟩

/-- An arithmetic node runs its operands left to right, then its instruction, which fails where its result is
undefined. -/
theorem computed_arith {id l r : NodeId} {op : ArithOp} {t : Option Ty}
    (hn : p.ast.get? id = some (.expr (.arith op l r) t)) {v : Value} (h : Runs (p.lowerForm w id (.arith op l r)) g v g')
    (hR : p.Ready σ id g) : p.Computed σ (p.isComparison id) id g v g' := by
  obtain ⟨t', hl, -, vl, g₁, vr, g₂, h₁, h₂, rfl, hg'⟩ := runs_lowerForm_arith h
  obtain ⟨ht, c₁, k₁, c₂, k₂⟩ := computed_operands hx hn rfl hR hl h₁ h₂
  -- the operands are integers, so no strings are joined
  rcases hg' with ⟨-, rfl⟩ | ⟨hs, -⟩
  swap
  · cases ht.symm.trans hs
  have hc : p.isComparison id = false := by simp [isComparison, hn]
  rw [hc]
  set i := Instr.arith (g₂.nextReg "tmp") op vl vr
  refine ⟨by simpa using c₂.spilled, by simpa using c₂.owned.trans c₁.owned, fun _ => by simp,
    by simpa using held_nextReg g₂ _ i, fun ρ => ?_, ?_⟩
  · obtain ⟨r₁, e₁⟩ := c₁.total ρ
    rcases r₁ with _ | ⟨a, ρ₁⟩
    · exact ⟨_, .arithLeft hn e₁⟩
    · obtain ⟨r₂, e₂⟩ := c₂.total ρ₁
      rcases r₂ with _ | ⟨b, ρ₂⟩
      · exact ⟨_, .arithRight hn e₁ e₂⟩
      · exact ⟨_, .arith hn e₁ e₂⟩
  intro hH hH' ρ fr res hfr he
  have em : (((g₂.withFresh "tmp").withInstr i).withValue id (.reg (g₂.nextReg "tmp"))).mark = g₂.mark.instr i := by
    simp
  rw [em] at hH'
  have hH₂ : σ.site.Holds g₂.mark := hH.between hH' (k₁.code.trans k₂.code) (prefix_instr g₂ i)
  have hH₁ : σ.site.Holds g₁.mark := hH.between hH₂ k₁.code k₂.code
  rcases Eval.arith_inv hn he with ⟨a, ρ₁, b, ρ₂, e₁, e₂, rfl⟩ | ⟨e₁, rfl⟩ | ⟨a, ρ₁, e₁, e₂, rfl⟩
  · obtain ⟨fr₂, f₂, a₂, k, ol, or, R₁, R₂⟩ := operands_run c₁ c₂ k₁.counters hH hH₁ hH₂ hfr e₁ e₂
    cases hap : op.apply a b with
    | none => exact Fails.of_steps f₂ (σ.site.fails_instr hH' fun code => step_arith_none ol or hap)
    | some c =>
      rw [hap] at he
      simp only [Option.map_some] at he
      refine ⟨_, by rw [em]; exact f₂.trans (σ.site.flows_instr hH' fun code => step_arith ol or hap), a₂.set _ _,
        k.trans (Frame.Kept.set _ (le_refl _)) fun b => (k₁.counters b).trans (k₂.counters b), by simp, ?_⟩
      exact Recorded.node he (held_nextReg g₂ _ i) (by simp [hc])
        (recorded_operands hR hn rfl k₂ e₁ R₁ R₂ i _ _ fun y b hy => Visits.arith_inv hn hy)
  · exact c₁.runs hH hH₁ ρ fr none hfr e₁
  · exact operands_fail c₁ c₂ hH hH₁ hH₂ hfr e₁ e₂

/-- A comparison runs its operands left to right, then compares them into a truth value. -/
theorem computed_cmp {id l r : NodeId} {op : CmpOp} {t : Option Ty}
    (hn : p.ast.get? id = some (.expr (.cmp op l r) t)) {v : Value} (h : Runs (p.lowerForm w id (.cmp op l r)) g v g')
    (hR : p.Ready σ id g) : p.Computed σ (p.isComparison id) id g v g' := by
  obtain ⟨t', hl, -, vl, g₁, vr, g₂, h₁, h₂, rfl, hg'⟩ := runs_lowerForm_cmp h
  obtain ⟨ht, c₁, k₁, c₂, k₂⟩ := computed_operands hx hn rfl hR hl h₁ h₂
  rcases hg' with ⟨-, rfl⟩ | ⟨hs, -⟩
  swap
  · cases ht.symm.trans hs
  have hc : p.isComparison id = true := by simp [isComparison, hn]
  rw [hc]
  set i := Instr.icmp (g₂.nextReg "tmp") op vl vr
  refine ⟨by simpa using c₂.spilled, by simpa using c₂.owned.trans c₁.owned, fun _ => by simp,
    by simpa using held_nextReg g₂ _ i, fun ρ => ?_, ?_⟩
  · obtain ⟨r₁, e₁⟩ := c₁.total ρ
    rcases r₁ with _ | ⟨a, ρ₁⟩
    · exact ⟨_, .cmpLeft hn e₁⟩
    · obtain ⟨r₂, e₂⟩ := c₂.total ρ₁
      rcases r₂ with _ | ⟨b, ρ₂⟩
      · exact ⟨_, .cmpRight hn e₁ e₂⟩
      · exact ⟨_, .cmp hn e₁ e₂⟩
  intro hH hH' ρ fr res hfr he
  have em : (((g₂.withFresh "tmp").withInstr i).withValue id (.reg (g₂.nextReg "tmp"))).mark = g₂.mark.instr i := by
    simp
  rw [em] at hH'
  have hH₂ : σ.site.Holds g₂.mark := hH.between hH' (k₁.code.trans k₂.code) (prefix_instr g₂ i)
  have hH₁ : σ.site.Holds g₁.mark := hH.between hH₂ k₁.code k₂.code
  rcases Eval.cmp_inv hn he with ⟨a, ρ₁, b, ρ₂, e₁, e₂, rfl⟩ | ⟨e₁, rfl⟩ | ⟨a, ρ₁, e₁, e₂, rfl⟩
  · obtain ⟨fr₂, f₂, a₂, k, ol, or, R₁, R₂⟩ := operands_run c₁ c₂ k₁.counters hH hH₁ hH₂ hfr e₁ e₂
    have ho : (fr₂.set (g₂.nextReg "tmp") (.bit (op.holds a b))).operand (.reg (g₂.nextReg "tmp")) =
        some (Word.of true (if op.holds a b then 1 else 0)) := by
      cases op.holds a b <;> simp
    refine ⟨_, by rw [em]; exact f₂.trans (σ.site.flows_instr hH' fun code => step_icmp ol or), a₂.set _ _,
      k.trans (Frame.Kept.set _ (le_refl _)) fun b => (k₁.counters b).trans (k₂.counters b), ho, ?_⟩
    exact Recorded.node he (held_nextReg g₂ _ i) (by rw [hc]; exact ho)
      (recorded_operands hR hn rfl k₂ e₁ R₁ R₂ i _ _ fun y b hy => Visits.cmp_inv hn hy)
  · exact c₁.runs hH hH₁ ρ fr none hfr e₁
  · exact operands_fail c₁ c₂ hH hH₁ hH₂ hfr e₁ e₂

/-- An assignment stores its value where lowering keeps the variable; it fails, on both sides, for a local not
declared yet. -/
theorem computed_assign {id x : NodeId} {s : SymbolId} {t : Option Ty}
    (hn : p.ast.get? id = some (.expr (.assign s x) t)) {v : Value} (h : Runs (p.lowerForm w id (.assign s x)) g v g')
    (hR : p.Ready σ id g) : p.Computed σ (p.isComparison id) id g v g' := by
  obtain ⟨-, g₁, h₁, rfl⟩ := runs_lowerForm_assign h
  have hs : σ.vars s := (hR.fragment.node hn).2
  have c₁ := computed_valueOf hx h₁ (hR.child hn (by simp [Node.children]))
  have k₁ := grows_valueOf (fun h => (hx h).2) h₁
  have hc : p.isComparison id = false := by simp [isComparison, hn]
  rw [hc, c₁.spilled]
  set i := Instr.store (p.symbols.symbol s).ty v (p.addressOf σ.params s)
  refine ⟨by simpa using c₁.spilled, by simpa using c₁.owned, fun _ => by simp,
    c₁.held.mono fun b => by simp, fun ρ => ?_, ?_⟩
  · obtain ⟨r₁, e₁⟩ := c₁.total ρ
    rcases r₁ with _ | ⟨a, ρ₁⟩
    · exact ⟨_, .assignErr hn e₁⟩
    · exact ⟨_, .assign hn e₁⟩
  intro hH hH' ρ fr r hfr he
  have em : ((g₁.withInstr i).withValue id v).mark = g₁.mark.instr i := by simp
  rw [em] at hH'
  have hH₁ : σ.site.Holds g₁.mark := hH.between hH' k₁.code (prefix_instr g₁ i)
  rcases Eval.assign_inv hn he with ⟨a, ρ₁, e₁, rfl⟩ | ⟨e₁, rfl⟩
  · obtain ⟨fr₁, f₁, a₁, k, o₁, R₁⟩ := c₁.runs hH hH₁ ρ fr _ hfr e₁
    rw [Word.of_false] at o₁
    have hw := a₁.write hR.apart hs a
    cases hst : p.store σ.params ρ₁ s a with
    | none =>
      cases hwr : fr₁.write (p.addressOf σ.params s) a with
      | none => exact Fails.of_steps f₁ (σ.site.fails_instr hH' fun code => by rw [step_store o₁, hwr]; rfl)
      | some fr' =>
        rw [hst, hwr] at hw
        exact hw.elim
    | some ρ' =>
      cases hwr : fr₁.write (p.addressOf σ.params s) a with
      | none =>
        rw [hst, hwr] at hw
        exact hw.elim
      | some fr' =>
        rw [hst, hwr] at hw
        rw [hst] at he
        simp only [Option.map_some] at he
        obtain ⟨ha', hregs⟩ := hw
        have k' : fr₁.Kept g₁ fr' := fun r _ => by rw [hregs]
        have ho : fr'.operand v = some (.int a) := by rw [c₁.held.operand k', o₁]
        refine ⟨fr', by rw [em]; exact f₁.trans (σ.site.flows_instr hH' fun code => by rw [step_store o₁, hwr]; rfl),
          ha', k.trans k' k₁.counters, ho, ?_⟩
        have Q₁ : p.Recorded σ.params ρ x ((g₁.withInstr i).withValue id v) fr' :=
          Recorded.withValue (R₁.mono (fun _ _ => by simp) (fun b => by simp) k')
            (hR.tree.not_reaches hn (by simp [Node.children])) v
        exact Recorded.node he (c₁.held.mono fun b => by simp) (by simp [hc, ho]) fun y b hy =>
          (Visits.assign_inv hn hy).imp (fun h => h) fun hy => ⟨x, ρ, Q₁, hy⟩
  · exact c₁.runs hH hH₁ ρ fr none hfr e₁

/-- Lowering an expression of the fragment by its form computes it. -/
theorem computed_lowerForm {id : NodeId} {e : Expr} {t : Option Ty} (hn : p.ast.get? id = some (.expr e t))
    {v : Value} (h : Runs (p.lowerForm w id e) g v g') (hR : p.Ready σ id g) :
    p.Computed σ (p.isComparison id) id g v g' := by
  have hi := hR.fragment.node hn
  cases e with
  | read s => exact computed_read hn h hR
  | int n => exact computed_int hn h hR
  | neg x => exact computed_neg hx hn h hR
  | arith op l r => exact computed_arith hx hn h hR
  | cmp op l r => exact computed_cmp hx hn h hR
  | assign s x => exact computed_assign hx hn h hR
  | str raw => simp [IntNode] at hi
  | call f args => simp [IntNode] at hi

/-- One level of the walk computes each expression it meets for the first time, given that the level below does. -/
theorem computes_lowerExpr {id : NodeId} {v : Value} (h : Runs (p.lowerExpr w id) g v g') : p.Computes σ id g v g' := by
  intro hR
  rcases runs_lowerExpr h with ⟨hv, -⟩ | ⟨-, e, t, hn, h⟩
  · rw [hR.not_recorded] at hv
    cases hv
  · exact computed_lowerForm hx hn h hR

end Operands

end Forms

/-! ## The code lowering appends -/

/-- Lowering an expression at any depth of the walk computes it, when the expression is met for the first time. -/
theorem computes_walk (n : Nat) {id : NodeId} {g g' : Generator} {v : Value} (h : Runs ((p.walk n).expr id) g v g') :
    p.Computes σ id g v g' := by
  induction n generalizing id g v g' with
  | zero => exact absurd h Runs.throw_false
  | succ n ih => exact computes_lowerExpr (fun h' => ⟨ih h', (grows_walk n).expr h'⟩) h

/-- Lowering an integer expression tree none of whose nodes is lowered yet, at any depth of the walk, appends code that
computes the expression. The code is run from a frame that stores every variable of the tree where lowering keeps it,
with the value the environment gives it; no two of the variables share a slot. When the evaluation is an error the
code fails. Otherwise the code runs to its end and leaves the variables as the evaluation leaves them, with the operand
lowering gives holding the value, and the operand recorded for every node the evaluation passes holding that node's
value, a comparison's as a truth value. -/
theorem lowered_expression_computes {n : Nat} {id : NodeId} {g g' : Generator} {v : Value} {vars : SymbolId → Prop}
    (h : Runs ((p.walk n).expr id) g v g') (hap : p.SlotsApart g.spilled vars)
    (hint : p.Within (p.IntNode g.spilled vars) id) (htree : p.Tree id) (hnew : p.Unlowered g id)
    (init : String → Int32) {ρ : Env} {fr : Frame} (hfr : p.Stores g.spilled vars ρ fr) :
    ∃ code, g'.mark.code = g.mark.code ++ code ∧ (∃ r, p.Eval g.spilled ρ id r) ∧
      (p.Eval g.spilled ρ id none → Fails code init code fr) ∧
      ∀ a ρ', p.Eval g.spilled ρ id (some (a, ρ')) → ∃ fr', Steps code init code fr [] fr' ∧
        p.Stores g.spilled vars ρ' fr' ∧ fr'.operand v = some (Word.of (p.isComparison id) a) ∧
        p.Recorded g.spilled ρ id g' fr' := by
  -- the appended code places each of its labels once, so it is a body the code can run in
  obtain ⟨-, -, code, hcode, -, hfresh⟩ := (bodySpans_walk n).expr h
  let σ : Setting := ⟨g.spilled, vars, init, ⟨g.mark.code, code, hfresh.nodup⟩⟩
  have c : p.Computed σ (p.isComparison id) id g v g' := computes_walk n h ⟨rfl, hap, hint, htree, hnew⟩
  have hH : σ.site.Holds g.mark := ⟨List.prefix_refl _, List.prefix_append _ _⟩
  have hH' : σ.site.Holds g'.mark := ⟨hcode ▸ List.prefix_append _ _, hcode ▸ List.prefix_refl _⟩
  have hrest : σ.site.rest g.mark = code := by simp [Site.rest, σ]
  have hrest' : σ.site.rest g'.mark = [] := by simp [Site.rest, σ, hcode]
  refine ⟨code, hcode, c.total ρ, fun he => ?_, fun a ρ' he => ?_⟩
  · have hf : Fails code init (σ.site.rest g.mark) fr := c.runs hH hH' ρ fr none hfr he
    rwa [hrest] at hf
  · obtain ⟨fr', hf, hs, -, ho, hr⟩ := c.runs hH hH' ρ fr _ hfr he
    refine ⟨fr', ?_, hs, ho, hr⟩
    have hf' : Steps code init (σ.site.rest g.mark) fr (σ.site.rest g'.mark) fr' := hf
    rwa [hrest, hrest'] at hf'

/-- The assignment x = a / 2 + (a < 3) to a local, of the sum of a quotient and a comparison, each reading the
local a. -/
def quotientUnit : Program where
  symbols := { symbols := #[{ name := "a", ty := .int, flags := {} }, { name := "x", ty := .int, flags := {} }] }
  ast := { nodes := #[.expr (.read 0) (some .int), .expr (.int 2) (some .int), .expr (.arith .div 0 1) (some .int),
      .expr (.read 0) (some .int), .expr (.int 3) (some .int), .expr (.cmp .lt 3 4) (some .int),
      .expr (.arith .add 2 5) (some .int), .expr (.assign 1 6) (some .int)] }

/-- The quotient unit's nodes form a forest built bottom up. -/
theorem quotientUnit_forest : quotientUnit.Forest := by decide

/-- Lowering the assignment succeeds, leaving its value in the fourth temporary: the quotient, the comparison, its
widening and the sum take one each. -/
theorem quotientUnit_run :
    (((quotientUnit.walk 9).expr 7).run.run (Generator.new {})).1 = .ok (.reg ⟨"tmp", 4⟩) := by
  have h0 : quotientUnit.ast.get? 0 = some (.expr (.read 0) (some .int)) := rfl
  have h1 : quotientUnit.ast.get? 1 = some (.expr (.int 2) (some .int)) := rfl
  have h2 : quotientUnit.ast.get? 2 = some (.expr (.arith .div 0 1) (some .int)) := rfl
  have h3 : quotientUnit.ast.get? 3 = some (.expr (.read 0) (some .int)) := rfl
  have h4 : quotientUnit.ast.get? 4 = some (.expr (.int 3) (some .int)) := rfl
  have h5 : quotientUnit.ast.get? 5 = some (.expr (.cmp .lt 3 4) (some .int)) := rfl
  have h6 : quotientUnit.ast.get? 6 = some (.expr (.arith .add 2 5) (some .int)) := rfl
  have h7 : quotientUnit.ast.get? 7 = some (.expr (.assign 1 6) (some .int)) := rfl
  have ha : quotientUnit.symbols.symbol 0 = { name := "a", ty := .int, flags := {} } := rfl
  have hx : quotientUnit.symbols.symbol 1 = { name := "x", ty := .int, flags := {} } := rfl
  simp only [h0, h1, h2, h3, h4, h5, h6, h7, ha, hx, Runs.run_bind, Runs.run_pure, Runs.run_get, walk_succ_expr,
    lowerExpr, lowerForm, valueOf, exprType, operandType, isComparison, storage, temp, run_instr, run_fresh,
    run_remember, withInstr, withItem, withFresh, withValue, nextIndex, Generator.new, Std.HashMap.getElem?_insert,
    Std.HashMap.getElem?_empty, Std.HashMap.getD_insert, Std.HashMap.getD_empty, List.contains_nil, ne_eq,
    not_true_eq_false, ↓reduceIte, Bool.false_eq_true, reduceCtorEq, and_false, Nat.reduceAdd, Nat.reduceBEq,
    beq_self_eq_true, String.reduceBEq, false_and, and_self, Bool.or_self]

/-- The local's slot is its name. -/
theorem quotientUnit_slotsApart : quotientUnit.SlotsApart [] (· ∈ [0, 1]) := by
  intro s s' hs hs' _ _ h
  simp only [List.mem_cons, List.not_mem_nil, or_false] at hs hs'
  rcases hs with rfl | rfl <;> rcases hs' with rfl | rfl <;> simp_all [slotOf, quotientUnit, SymbolTable.symbol]

/-- With `a` holding 7, lowering `x = a / 2 + (a < 3)` succeeds, and its code computes what the assignment evaluates to,
leaving it in the fourth temporary. -/
theorem quotientUnit_computes :
    ∃ g', Runs ((quotientUnit.walk 9).expr 7) (Generator.new {}) (.reg ⟨"tmp", 4⟩) g' ∧
      ∃ code, g'.mark.code = (Generator.new {}).mark.code ++ code ∧
        (∃ r, quotientUnit.Eval [] ⟨fun s => some (if s = 0 then 7 else 0), fun _ => 0⟩ 7 r) ∧
        (quotientUnit.Eval [] ⟨fun s => some (if s = 0 then 7 else 0), fun _ => 0⟩ 7 none →
          Fails code (fun _ => 0) code ⟨fun _ => none, fun n => some (if n = "a" then 7 else 0), fun _ => 0,
            fun _ => none⟩) ∧
        ∀ a ρ', quotientUnit.Eval [] ⟨fun s => some (if s = 0 then 7 else 0), fun _ => 0⟩ 7 (some (a, ρ')) →
          ∃ fr', Steps code (fun _ => 0) code ⟨fun _ => none, fun n => some (if n = "a" then 7 else 0),
              fun _ => 0, fun _ => none⟩ [] fr' ∧
            quotientUnit.Stores [] (· ∈ [0, 1]) ρ' fr' ∧
            fr'.operand (.reg ⟨"tmp", 4⟩) = some (Word.of (quotientUnit.isComparison 7) a) ∧
            quotientUnit.Recorded [] ⟨fun s => some (if s = 0 then 7 else 0), fun _ => 0⟩ 7 g' fr' := by
  have hrun : Runs ((quotientUnit.walk 9).expr 7) (Generator.new {}) (.reg ⟨"tmp", 4⟩)
      (((quotientUnit.walk 9).expr 7).run.run (Generator.new {})).2 := by
    unfold Runs
    rw [Prod.ext_iff]
    exact ⟨quotientUnit_run, rfl⟩
  have hint : quotientUnit.Within (quotientUnit.IntNode [] (· ∈ [0, 1])) 7 := by
    refine within_of_closed [0, 1, 2, 3, 4, 5, 6, 7] (fun d hd n hn => ?_) (by simp)
    simp only [List.mem_cons, List.not_mem_nil, or_false] at hd
    rcases hd with rfl | rfl | rfl | rfl | rfl | rfl | rfl | rfl <;> simp [quotientUnit, Ast.get?] at hn <;>
      subst hn <;> simp [IntNode, Node.children]
  have hfr : quotientUnit.Stores [] (· ∈ [0, 1]) ⟨fun s => some (if s = 0 then 7 else 0), fun _ => 0⟩
      ⟨fun _ => none, fun n => some (if n = "a" then 7 else 0), fun _ => 0, fun _ => none⟩ := by
    refine ⟨rfl, fun s hs _ => ?_⟩
    simp only [List.mem_cons, List.not_mem_nil, or_false] at hs
    rcases hs with rfl | rfl <;> simp [slotOf, quotientUnit, SymbolTable.symbol]
  exact ⟨_, hrun, lowered_expression_computes hrun quotientUnit_slotsApart hint (quotientUnit_forest.tree 7)
    (fun x _ => by simp [Generator.new]) (fun _ => 0) hfr⟩

end Program

end Lowering
