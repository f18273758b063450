import Lowering.Proofs.Constants

/-!
# What lowering adds to a generator

Lowering only adds to what a generator holds. Register counters only go up and written code stays: every change of a
generator keeps both (`stepsKeep_counters`, `stepsKeep_code`), so every lowering run does. And lowering a node records
an operand only for a node it reaches (`valuesKept_walk`): the operands recorded for the other nodes stay as they were.
The last is a fact of the rules, proved node by node.
-/

namespace Lowering

open Ir Generator

namespace Generator

variable (g : Generator)

/-! ## The steps that leave the spilled parameters and owned strings alone -/

/-- Taking a register spills no parameter. -/
@[simp] theorem withFresh_spilled (b : String) : (g.withFresh b).spilled = g.spilled := rfl

/-- Taking a register owns no string. -/
@[simp] theorem withFresh_owned (b : String) : (g.withFresh b).owned = g.owned := rfl

/-- Taking a register leaves the block open or closed. -/
@[simp] theorem withFresh_closed (b : String) : (g.withFresh b).closed = g.closed := rfl

/-- Recording an operand spills no parameter. -/
@[simp] theorem withValue_spilled (id : NodeId) (v : Value) : (g.withValue id v).spilled = g.spilled := rfl

/-- Recording an operand owns no string. -/
@[simp] theorem withValue_owned (id : NodeId) (v : Value) : (g.withValue id v).owned = g.owned := rfl

/-- Recording an operand leaves the block open or closed. -/
@[simp] theorem withValue_closed (id : NodeId) (v : Value) : (g.withValue id v).closed = g.closed := rfl

/-- Recording an operand takes no register. -/
@[simp] theorem nextIndex_withValue (id : NodeId) (v : Value) (b : String) :
    (g.withValue id v).nextIndex b = g.nextIndex b := rfl

/-- A label spills no parameter. -/
@[simp] theorem withLabel_spilled (l : Label) : (g.withLabel l).spilled = g.spilled := rfl

/-- A label opens a block in the generator. -/
@[simp] theorem withLabel_closed (l : Label) : (g.withLabel l).closed = false := rfl

/-- A banner spills no parameter. -/
@[simp] theorem withBanner_spilled (c : Construct) : (g.withBanner c).spilled = g.spilled := by
  unfold withBanner
  split <;> rfl

/-- A banner leaves the block open or closed. -/
@[simp] theorem withBanner_closed (c : Construct) : (g.withBanner c).closed = g.closed := by
  unfold withBanner
  split <;> rfl

/-- Taking labels spills no parameter. -/
@[simp] theorem withLabels_spilled (n : Nat) : (g.withLabels n).spilled = g.spilled := rfl

/-- Taking labels leaves the generator's block open or closed. -/
@[simp] theorem withLabels_closed (n : Nat) : (g.withLabels n).closed = g.closed := rfl

/-- Opening a string scope spills no parameter. -/
@[simp] theorem withScope_spilled : g.withScope.spilled = g.spilled := rfl

/-- Opening a string scope leaves the block open or closed. -/
@[simp] theorem withScope_closed : g.withScope.closed = g.closed := rfl

/-- A terminator spills no parameter. -/
@[simp] theorem withTerminator_spilled (i : Instr) : (g.withTerminator i).spilled = g.spilled :=
  withInstr_spilled g i

/-- A jump spills no parameter. -/
@[simp] theorem withJump_spilled (l : Label) : (g.withJump l).spilled = g.spilled := by
  unfold withJump
  split <;> simp

/-- Dropping the innermost scope spills no parameter. -/
@[simp] theorem withoutInner_spilled : g.withoutInner.spilled = g.spilled := rfl

/-- Dropping the innermost scope leaves the block open or closed. -/
@[simp] theorem withoutInner_closed : g.withoutInner.closed = g.closed := rfl

/-- With no string owned, closing a scope only forgets it. -/
theorem withoutScope_of_owned {g : Generator} (h : g.owned = []) : g.withoutScope = { g with marks := g.marks.tail } := by
  unfold withoutScope
  rw [if_neg (by simp [h])]

end Generator

namespace Program

variable {p : Program}

/-! ## Counters and code -/

/-- What a step that keeps a property says of a run: the generator it leaves has the property. -/
theorem Keeps.of_runs {P : Generator → Prop} {α : Type} {x : GenM α} (hk : Keeps P x) {g g' : Generator} {a : α}
    (h : Runs x g a g') (hg : P g) : P g' := by
  have hr := hk.run hg
  rwa [h] at hr

/-- No change of a generator takes a register back: every counter only goes up. -/
theorem stepsKeep_counters (g₀ : Generator) : p.StepsKeep fun g => ∀ b, g₀.nextIndex b ≤ g.nextIndex b where
  frame g g' hg _ hc _ _ _ := fun b => by simpa [nextIndex, hc] using hg b
  item _ _ _ hg _ _ := hg
  blank _ hg := hg
  fresh g b hg := fun b' => (hg b').trans (nextIndex_le_withFresh g b b')
  value _ _ _ hg _ := hg
  literal g id raw _ hg _ _ := fun b => by
    rw [nextIndex_withLiteral]
    exact (hg b).trans (nextIndex_le_withFresh g _ b)
  flush g hg := by simpa using hg

/-- No change of a generator takes written code back. -/
theorem stepsKeep_code (g₀ : Generator) : p.StepsKeep fun g => g₀.mark.code <+: g.mark.code where
  frame g g' hg hl _ _ _ _ := by simpa [mark, hl] using hg
  item g k i hg _ _ := hg.trans ⟨(Line.item k i).code, by simp [mark]⟩
  blank g hg := by simpa using hg
  fresh _ _ hg := hg
  value _ _ _ hg _ := hg
  literal g id raw _ hg _ _ := hg.trans ⟨_, (code_withLiteral g id _).symm⟩
  flush g hg := hg.trans ⟨_, (code_withConstantsWritten g).symm⟩

/-- A run of the walk takes no register back. -/
theorem counters_le {n : Nat} {id : NodeId} {g g' : Generator} (h : Runs ((p.walk n).emit id) g () g') (b : String) :
    g.nextIndex b ≤ g'.nextIndex b :=
  Keeps.of_runs ((keeps_walk (stepsKeep_counters g) n).emit id) h (fun _ => le_refl _) b

/-- A run of the walk on an expression takes no register back. -/
theorem counters_le_expr {n : Nat} {id : NodeId} {g g' : Generator} {v : Value} (h : Runs ((p.walk n).expr id) g v g')
    (b : String) : g.nextIndex b ≤ g'.nextIndex b :=
  Keeps.of_runs ((keeps_walk (stepsKeep_counters g) n).expr id) h (fun _ => le_refl _) b

/-- A run of the walk keeps the code written before it. -/
theorem code_prefix {n : Nat} {id : NodeId} {g g' : Generator} (h : Runs ((p.walk n).emit id) g () g') :
    g.mark.code <+: g'.mark.code :=
  Keeps.of_runs ((keeps_walk (stepsKeep_code g) n).emit id) h (List.prefix_refl _)

/-- A run of the walk on an expression keeps the code written before it. -/
theorem code_prefix_expr {n : Nat} {id : NodeId} {g g' : Generator} {v : Value} (h : Runs ((p.walk n).expr id) g v g') :
    g.mark.code <+: g'.mark.code :=
  Keeps.of_runs ((keeps_walk (stepsKeep_code g) n).expr id) h (List.prefix_refl _)

/-! ## Recorded operands -/

/-- Lowering node `id` from `g` to `g'` left the operands recorded for the nodes `id` does not reach as they were. -/
def ValuesKept (p : Program) (id : NodeId) (g g' : Generator) : Prop :=
  ∀ x, ¬p.Reaches id x → g'.values[x]? = g.values[x]?

namespace ValuesKept

variable {id c : NodeId} {g g₁ g' : Generator}

/-- A step that records nothing keeps every operand. -/
theorem of_values (h : g'.values = g.values) : p.ValuesKept id g g' := fun _ _ => by rw [h]

/-- Two runs one after the other, each keeping the operands of the nodes `id` does not reach, keep them. -/
theorem trans (h₁ : p.ValuesKept id g g₁) (h₂ : p.ValuesKept id g₁ g') : p.ValuesKept id g g' :=
  fun x hx => (h₂ x hx).trans (h₁ x hx)

/-- What a node's reference keeps, the node keeps. -/
theorem child {n : Node} (hn : p.ast.get? id = some n) (hc : c ∈ n.children) (h : p.ValuesKept c g g') :
    p.ValuesKept id g g' :=
  fun x hx => h x fun hr => hx (.child hn hc hr)

/-- Recording the operand of the node itself. -/
theorem withValue (v : Value) : p.ValuesKept id g (g.withValue id v) := by
  intro x hx
  have hne : id ≠ x := fun e => hx (e ▸ .refl id)
  simp [Std.HashMap.getElem?_insert, hne]

end ValuesKept

section Rules

variable {w : Walk} {g g' : Generator}
  (hx : ∀ {id : NodeId} {g : Generator} {v : Value} {g' : Generator}, Runs (w.expr id) g v g' → p.ValuesKept id g g')
include hx

/-- Lowering an operand records only for the nodes it reaches; a widened truth value records nothing more. -/
theorem valuesKept_valueOf {id : NodeId} {v : Value} (h : Runs (p.valueOf w id) g v g') : p.ValuesKept id g g' := by
  obtain ⟨v₁, g₁, h₁, h₂⟩ := runs_valueOf h
  split at h₂
  · obtain ⟨-, rfl⟩ := h₂
    exact (hx h₁).trans (.of_values (by simp))
  · obtain ⟨-, rfl⟩ := h₂
    exact hx h₁

/-- Lowering a condition records only for the nodes it reaches. -/
theorem valuesKept_testOf {id : NodeId} {v : Value} (h : Runs (p.testOf w id) g v g') : p.ValuesKept id g g' := by
  obtain ⟨t, -, ⟨-, h⟩ | ⟨-, -, v₁, g₁, h₁, -, rfl⟩⟩ := runs_testOf h
  · exact hx h
  · exact (valuesKept_valueOf hx h₁).trans (.of_values (by simp))

/-- Lowering the arguments of a call records only for the nodes the call reaches. -/
theorem valuesKept_arguments {id : NodeId} {n : Node} (hn : p.ast.get? id = some n) {callee : String} {i : Nat}
    {args : List (NodeId × SymbolId)} (ha : ∀ a ∈ args, a.1 ∈ n.children) {vs : List (Ty × Value)}
    (h : Runs (p.arguments w callee i args) g vs g') : p.ValuesKept id g g' := by
  induction args generalizing i g vs with
  | nil =>
    obtain ⟨-, rfl⟩ := runs_arguments_nil.mp h
    exact .of_values rfl
  | cons a rest ih =>
    obtain ⟨-, v, g₁, vs', h₁, h₂, -⟩ := runs_arguments_cons h
    exact ((valuesKept_valueOf hx h₁).child hn (ha a (List.mem_cons_self ..))).trans
      (ih (fun b hb => ha b (List.mem_cons_of_mem _ hb)) h₂)

/-- Lowering an expression by its form records the operands of its references and its own. -/
theorem valuesKept_lowerForm {id : NodeId} {e : Expr} {t : Option Ty} (hn : p.ast.get? id = some (.expr e t))
    {v : Value} (h : Runs (p.lowerForm w id e) g v g') : p.ValuesKept id g g' := by
  have ch : ∀ {c g g'}, c ∈ (Node.expr e t).children → p.ValuesKept c g g' → p.ValuesKept id g g' :=
    fun hc hk => hk.child hn hc
  cases e with
  | read s =>
    obtain ⟨-, rfl⟩ := runs_lowerForm_read h
    exact (ValuesKept.of_values (by simp)).trans (.withValue _)
  | int n =>
    obtain ⟨-, rfl⟩ := runs_lowerForm_int h
    exact .withValue _
  | str raw =>
    obtain ⟨-, rfl⟩ := runs_lowerForm_str h
    exact (ValuesKept.of_values (by simp)).trans (.withValue _)
  | neg x =>
    obtain ⟨-, v₁, g₁, h₁, -, rfl⟩ := runs_lowerForm_neg h
    exact ((ch (by simp [Node.children]) (valuesKept_valueOf hx h₁)).trans (.of_values (by simp))).trans (.withValue _)
  | arith op l r =>
    obtain ⟨t, -, -, vl, g₁, vr, g₂, h₁, h₂, -, ⟨-, rfl⟩ | ⟨-, -, rfl⟩⟩ := runs_lowerForm_arith h <;>
    exact (((ch (by simp [Node.children]) (valuesKept_valueOf hx h₁)).trans
      (ch (by simp [Node.children]) (valuesKept_valueOf hx h₂))).trans (.of_values (by simp))).trans (.withValue _)
  | cmp op l r =>
    obtain ⟨t, -, -, vl, g₁, vr, g₂, h₁, h₂, -, ⟨-, rfl⟩ | ⟨-, -, rfl⟩⟩ := runs_lowerForm_cmp h <;>
    exact (((ch (by simp [Node.children]) (valuesKept_valueOf hx h₁)).trans
      (ch (by simp [Node.children]) (valuesKept_valueOf hx h₂))).trans (.of_values (by simp))).trans (.withValue _)
  | assign s x =>
    obtain ⟨-, g₁, h₁, rfl⟩ := runs_lowerForm_assign h
    exact ((ch (by simp [Node.children]) (valuesKept_valueOf hx h₁)).trans (.of_values (by simp))).trans (.withValue _)
  | call f args =>
    obtain ⟨-, vs, g₁, h₁, -, ⟨-, rfl⟩ | ⟨-, rfl⟩⟩ := runs_lowerForm_call h <;>
    exact ((valuesKept_arguments hx hn (fun a ha => by simpa [Node.children] using (List.of_mem_zip ha).1) h₁).trans
      (.of_values (by simp))).trans (.withValue _)

/-- Lowering an expression node records only for the nodes it reaches. -/
theorem valuesKept_lowerExpr {id : NodeId} {v : Value} (h : Runs (p.lowerExpr w id) g v g') : p.ValuesKept id g g' := by
  rcases runs_lowerExpr h with ⟨-, rfl⟩ | ⟨-, e, t, hn, h⟩
  · exact .of_values rfl
  · exact valuesKept_lowerForm hx hn h

end Rules

/-- Items lowered one after another, each recording only for nodes `id` reaches, record only for those. -/
theorem valuesKept_forM {w : Walk} {id : NodeId} {items : List NodeId} {g g' : Generator} {u : PUnit}
    (he : ∀ {c g g'}, c ∈ items → Runs (w.emit c) g () g' → p.ValuesKept id g g') (h : Runs (items.forM w.emit) g u g') :
    p.ValuesKept id g g' := by
  induction items generalizing g with
  | nil =>
    obtain rfl := Runs.forM_nil.mp h
    exact .of_values rfl
  | cons i items ih =>
    obtain ⟨g₁, h₁, h₂⟩ := Runs.forM_cons.mp h
    exact (he (List.mem_cons_self ..) h₁).trans (ih (fun hc h => he (List.mem_cons_of_mem _ hc) h) h₂)

/-- One level of lowering rules records operands only for the nodes a lowered node reaches, given that the walk one
level down does. -/
theorem valuesKept_step {w : Walk} (hw : w.Sound p.ValuesKept fun id g _ g' => p.ValuesKept id g g') :
    (p.step w).Sound p.ValuesKept fun id g _ g' => p.ValuesKept id g g' := by
  have hx : ∀ {id g v g'}, Runs (w.expr id) g v g' → p.ValuesKept id g g' := fun h => hw.expr h
  refine ⟨fun {id g g'} h => ?_, fun h => valuesKept_lowerExpr hx h⟩
  rcases runs_emitNode h with ⟨e, t, hn, ⟨-, rfl⟩ | ⟨-, v, h⟩⟩ | ⟨s, hn, h⟩
  · exact .of_values rfl
  · exact valuesKept_lowerForm hx hn h
  · -- an instruction records only through the nodes it refers to
    have ch : ∀ {c g g'}, c ∈ (Node.stmt s).children → p.ValuesKept c g g' → p.ValuesKept id g g' :=
      fun hc hk => hk.child hn hc
    have he : ∀ {c g g'}, c ∈ (Node.stmt s).children → Runs (w.emit c) g () g' → p.ValuesKept id g g' :=
      fun hc h => ch hc (hw.emit h)
    cases s with
    | declare syms =>
      rw [runs_lowerDeclarations h]
      exact .of_values (by simp)
    | eval e =>
      obtain ⟨v, h⟩ := Runs.discard_iff.mp h
      exact ch (by simp [Node.children]) (hx h)
    | ite c t e =>
      obtain ⟨v, g₁, g₂, g₃, hc, ht, hel, rfl⟩ := runs_lowerChoice h
      have k₁ := ch (by simp [Node.children]) (valuesKept_testOf hx hc)
      have k₂ := he (by simp [Node.children]) ht
      have k₃ : p.ValuesKept id g₂ g₃ := by
        cases e with
        | some e =>
          obtain ⟨g₄, hel, rfl⟩ := hel
          exact ((ValuesKept.of_values (by simp)).trans (he (by simp [Node.children]) hel)).trans
            (.of_values (by simp))
        | none =>
          subst hel
          exact .of_values (by simp)
      exact ((((ValuesKept.of_values (by simp)).trans k₁).trans ((ValuesKept.of_values (by simp)).trans k₂)).trans
        k₃).trans (.of_values (by simp))
    | whileLoop c b =>
      obtain ⟨v, g₁, g₂, hc, hb, rfl⟩ := runs_lowerWhile h
      exact (((ValuesKept.of_values (by simp)).trans (ch (by simp [Node.children]) (valuesKept_testOf hx hc))).trans
        ((ValuesKept.of_values (by simp)).trans (he (by simp [Node.children]) hb))).trans (.of_values (by simp))
    | doLoop b c =>
      obtain ⟨g₁, v, g₂, hb, hc, rfl⟩ := runs_lowerDo h
      exact (((ValuesKept.of_values (by simp)).trans (he (by simp [Node.children]) hb)).trans
        ((ValuesKept.of_values (by simp)).trans (ch (by simp [Node.children]) (valuesKept_testOf hx hc)))).trans
        (.of_values (by simp))
    | forLoop i c st b =>
      obtain ⟨vi, g₁, v, g₂, g₃, vs, g₄, hi, hc, hb, hs, rfl⟩ := runs_lowerFor h
      exact (((((ValuesKept.of_values (by simp)).trans (ch (by simp [Node.children]) (hx hi))).trans
        ((ValuesKept.of_values (by simp)).trans (ch (by simp [Node.children]) (valuesKept_testOf hx hc)))).trans
        ((ValuesKept.of_values (by simp)).trans (he (by simp [Node.children]) hb))).trans
        ((ValuesKept.of_values (by simp)).trans (ch (by simp [Node.children]) (hx hs)))).trans (.of_values (by simp))
    | ret x =>
      obtain ⟨t, v, g₁, v', kept, g₂, -, hv, hh, rfl⟩ := runs_lowerReturn h
      have k : p.ValuesKept id g₁ g₂ := by
        rcases runs_handOver hh with ⟨-, _, -, -, rfl⟩ | ⟨-, -, -, rfl⟩ | ⟨-, -, rfl⟩ <;> exact .of_values (by simp)
      exact ((ch (by simp [Node.children]) (valuesKept_valueOf hx hv)).trans k).trans (.of_values (by simp))
    | block items => exact valuesKept_forM (fun hc h => he (by simpa [Node.children] using hc) h) h
    | prototype f =>
      rw [runs_lowerPrototype h]
      exact .of_values rfl
    | define f b =>
      obtain ⟨g₁, h₁, rfl⟩ := runs_lowerDefinition h
      exact ((ValuesKept.of_values (by simp [bodyStart])).trans (he (by simp [Node.children]) h₁)).trans
        (.of_values (by simp [bodyEnd]))

/-- Lowering a node, at any depth of the walk, records operands only for the nodes it reaches. -/
theorem valuesKept_walk (n : Nat) : (p.walk n).Sound p.ValuesKept fun id g _ g' => p.ValuesKept id g g' :=
  walk_induction _ _ (fun _ hw => valuesKept_step hw) n

/-! ## Everything lowering a node adds -/

/-- What lowering node `id` from `g` to `g'` does to the generator, whatever the node: it records operands only for
nodes `id` reaches, takes no register back, and keeps the code written before. -/
structure Grows (p : Program) (id : NodeId) (g g' : Generator) : Prop where
  values : p.ValuesKept id g g'
  counters : ∀ b, g.nextIndex b ≤ g'.nextIndex b
  code : g.mark.code <+: g'.mark.code

/-- Lowering a node, at any depth of the walk, only adds to the generator. -/
theorem grows_walk (n : Nat) : (p.walk n).Sound p.Grows fun id g _ g' => p.Grows id g g' :=
  ⟨fun h => ⟨(valuesKept_walk n).emit h, counters_le h, code_prefix h⟩,
    fun h => ⟨(valuesKept_walk n).expr h, counters_le_expr h, code_prefix_expr h⟩⟩

/-- A fresh register and an instruction after it add no recorded operand, and keep counters and code growing. -/
theorem Grows.fresh_instr {id : NodeId} {g g₁ : Generator} (h : p.Grows id g g₁) (b : String) (i : Instr) :
    p.Grows id g ((g₁.withFresh b).withInstr i) :=
  ⟨h.values.trans (.of_values (by simp)), fun b' => (h.counters b').trans (by
    rw [nextIndex_withInstr]; exact nextIndex_le_withFresh g₁ b b'),
    h.code.trans (by rw [code_withInstr, mark_withFresh]; exact List.prefix_append _ _)⟩

section Operands

variable {w : Walk} {g g' : Generator}
  (hx : ∀ {id : NodeId} {g : Generator} {v : Value} {g' : Generator}, Runs (w.expr id) g v g' → p.Grows id g g')
include hx

/-- Lowering an operand only adds to the generator. -/
theorem grows_valueOf {id : NodeId} {v : Value} (h : Runs (p.valueOf w id) g v g') : p.Grows id g g' := by
  obtain ⟨v₁, g₁, h₁, h₂⟩ := runs_valueOf h
  split at h₂
  · obtain ⟨-, rfl⟩ := h₂
    exact (hx h₁).fresh_instr _ _
  · obtain ⟨-, rfl⟩ := h₂
    exact hx h₁

/-- Lowering a condition only adds to the generator. -/
theorem grows_testOf {id : NodeId} {v : Value} (h : Runs (p.testOf w id) g v g') : p.Grows id g g' := by
  obtain ⟨t, -, ⟨-, h⟩ | ⟨-, -, v₁, g₁, h₁, -, rfl⟩⟩ := runs_testOf h
  · exact hx h
  · exact (grows_valueOf hx h₁).fresh_instr _ _

end Operands

end Program

end Lowering
