import Lowering.Proofs.Violations
import Lowering.Proofs.Refinement.Expressions

/-!
# Lowering stops at the first violation

`Ends x g r` says how a run of the step `x` from `g` ends: with the error `r` names, or with a result when `r` is
`none`. A sequence ends as its first step when that fails and as the rest otherwise (`Ends.bind`), which is how `<|>`
joins the violations in `Program.violation`; a type check ends as `withType` says (`ends_exprType_bind`), and a check
that refuses as its `if` (`Ends.refuse`).

Each rule of lowering then ends as `Program.check` says of its node, given that the walk it calls lowers the node's
references as `below` says (`Walk.Reports`). This needs every node the rule reaches to be met for the first time
(`Program.Unlowered`), since a node already lowered is read back without its checks; in a tree, lowering one reference
records operands only for the nodes it reaches, none of which a later reference reaches (`Program.Meets`).

By induction on the depth of the walk, every node built bottom up is lowered as `violation` says (`reports_walk`), and
a unit whose roots are such trees, no two reaching a common node, compiles exactly when no root breaks a rule, and
otherwise fails with the first rule broken (`compile_fails_at_first_violation`).
-/

namespace Lowering

open Ir Generator

/-- The run of `x` from `g` ends as `r` says: failing with the error `r` names, or succeeding when `r` is `none`. -/
def Ends {α : Type} (x : GenM α) (g : Generator) (r : Option CodegenError) : Prop :=
  match (x.run.run g).1 with
  | .ok _ => r = none
  | .error e => r = some e

namespace Ends

variable {α β : Type} {x : GenM α} {f : α → GenM β} {g g₁ : Generator} {a : α} {r r' : Option CodegenError}

/-- A run that succeeds ends with a result. -/
theorem of_runs (h : Runs x g a g₁) : Ends x g none := by
  unfold Ends
  rw [show x.run.run g = _ from h]

/-- Returning a value ends with a result. -/
theorem pure_ (a : α) : Ends (pure a : GenM α) g none := rfl

/-- A refusal ends with its error, whatever was to follow it. -/
theorem throw_bind (e : CodegenError) : Ends (throw e >>= f) g (some e) := rfl

/-- A sequence fails as its first step does, and otherwise ends as the rest does from where the first step left
off. -/
theorem bind (hx : Ends x g r) (hf : ∀ a g₁, Runs x g a g₁ → Ends (f a) g₁ r') : Ends (x >>= f) g (r <|> r') := by
  unfold Ends at hx ⊢
  rw [Runs.run_bind]
  rcases h : x.run.run g with ⟨_ | a, g₁⟩
  · rw [h] at hx
    subst hx
    rfl
  · rw [h] at hx
    subst hx
    exact hf a g₁ h

/-- A sequence whose rest cannot fail ends as its first step. -/
theorem bind_last (hx : Ends x g r) (hf : ∀ a g₁, Runs x g a g₁ → Ends (f a) g₁ none) : Ends (x >>= f) g r := by
  have h := bind hx hf
  cases r <;> exact h

/-- A check that refuses with `e` when `c` holds, then the rest. -/
theorem refuse {c : Prop} [Decidable c] {e : CodegenError} {k : Unit → GenM α} (hk : ¬c → Ends (k ()) g r) :
    Ends (if c then throw e >>= k else k ()) g (if c then some e else r) := by
  by_cases hc : c
  · rw [if_pos hc, if_pos hc]
    exact throw_bind e
  · rw [if_neg hc, if_neg hc]
    exact hk hc

/-- A step that cannot fail, run for what it leaves: the sequence ends as its rest. -/
theorem bind_of_run (hx : x.run.run g = (.ok a, g₁)) : Ends (x >>= f) g r ↔ Ends (f a) g₁ r := by
  unfold Ends
  rw [Runs.run_bind, hx]

/-- A step in a string scope of its own ends as the step does. -/
theorem inScope (h : Ends x g.withScope r) : Ends (Generator.inScope x) g r :=
  (bind_of_run (run_openScope g)).mpr (bind_last h fun a g₁ _ => (bind_of_run (run_closeScope g₁)).mpr (pure_ a))

/-- Dropping a step's value ends as the step does. -/
theorem discard (h : Ends x g r) : Ends (Functor.discard x) g r := by
  rw [Runs.discard_eq]
  exact bind_last h fun _ _ _ => pure_ ()

/-- A step that succeeds from `g` ends with a result. -/
theorem of_exists (h : ∃ a g₁, Runs x g a g₁) : Ends x g none := by
  obtain ⟨a, g₁, h⟩ := h
  exact of_runs h

/-- A loop over steps that cannot fail cannot fail. -/
theorem forM_none {γ : Type} {xs : List γ} {f : γ → GenM PUnit} (h : ∀ a g, Ends (f a) g none) :
    Ends (xs.forM f) g none := by
  induction xs generalizing g with
  | nil => exact pure_ _
  | cons a as ih => exact bind_last (h a g) fun _ g₁ _ => ih

end Ends

/-- The walk `w` lowers node `id`, from every generator in which no node `id` reaches is lowered yet, failing
exactly as `below` says of each place. -/
def Walk.Reports (p : Program) (w : Walk) (below : Place → NodeId → Option CodegenError) (id : NodeId) : Prop :=
  ∀ g, p.Unlowered g id → Ends (w.emit id) g (below .instr id) ∧ Ends (w.expr id) g (below .value id)

namespace Program

variable {p : Program} {g g' : Generator}

/-- Reading the type recorded for a position cannot change the generator: it gives `typeAt`. -/
theorem run_exprType (id : NodeId) (g : Generator) : (p.exprType id).run.run g = (p.typeAt id, g) := by
  unfold exprType typeAt
  cases p.ast.get? id with
  | none => rfl
  | some n =>
    cases n with
    | stmt s => rfl
    | expr e t => cases t <;> rfl

/-- Reading the type recorded for a position, then steps that depend on it, end as `withType` says. -/
theorem ends_exprType_bind {β : Type} {id : NodeId} {f : Ty → GenM β} {k : Ty → Option CodegenError}
    (hf : ∀ t, Ends (f t) g (k t)) : Ends (p.exprType id >>= f) g (p.withType id k) := by
  unfold Ends withType
  rw [Runs.run_bind, run_exprType]
  cases p.typeAt id with
  | ok t => exact hf t
  | error e => rfl

/-- Both operands' types are read and compared before anything is lowered. -/
theorem ends_operandType_bind {β : Type} {op : Operation} {l r : NodeId} {f : Ty → GenM β}
    {k : Ty → Option CodegenError} (hf : ∀ t, Ends (f t) g (k t)) :
    Ends (p.operandType op l r >>= f) g
      (p.withType l fun tl => p.withType r fun tr => if tl ≠ tr then some (.mismatched op tl tr) else k tl) := by
  unfold operandType
  simp only [bind_assoc]
  refine ends_exprType_bind fun tl => ends_exprType_bind fun tr => ?_
  by_cases h : tl ≠ tr
  · rw [if_pos h, if_pos h]
    exact Ends.throw_bind _
  · rw [if_neg h, if_neg h, pure_bind]
    exact hf tl

/-! ## Nodes met for the first time -/

section Unlowered

variable {id c : NodeId} {n : Node}

/-- A reference of a node met for the first time is met for the first time too. -/
theorem Unlowered.child (h : p.Unlowered g id) (hn : p.ast.get? id = some n) (hc : c ∈ n.children) :
    p.Unlowered g c :=
  fun x hx => h x (.child hn hc hx)

/-- A step that records no operand keeps every node unlowered. -/
theorem Unlowered.of_values (h : p.Unlowered g id) (hv : g'.values = g.values) : p.Unlowered g' id := by
  intro x hx
  rw [hv]
  exact h x hx

/-- Lowering a node records nothing that a node apart from it reaches. -/
theorem Unlowered.kept (h : p.Unlowered g id) (hk : p.ValuesKept c g g') (hap : ∀ x, p.Reaches c x → ¬p.Reaches id x) :
    p.Unlowered g' id :=
  fun x hx => (hk x fun hc => hap x hc hx).trans (h x hx)

/-- Steps that record nothing, then the lowering of a node apart from `id`: `id` is still unlowered. -/
theorem Unlowered.after {g₁ : Generator} (h : p.Unlowered g id) (hv : g₁.values = g.values) (hk : p.ValuesKept c g₁ g')
    (hap : ∀ x, p.Reaches c x → ¬p.Reaches id x) : p.Unlowered g' id :=
  (h.of_values hv).kept hk hap

/-- In a tree, no two references of a node reach a common node. -/
theorem Tree.pairwise (h : p.Tree id) (hn : p.ast.get? id = some n) :
    n.children.Pairwise fun c c' => ∀ x, p.Reaches c x → ¬p.Reaches c' x :=
  (h id n (.refl id) hn).1

end Unlowered

/-! ## Operands -/

section Operands

variable {w : Walk} {below : Place → NodeId → Option CodegenError} {c : NodeId}

/-- Lowering a reference for its value ends as `below` says of the place of a value. -/
theorem ends_valueOf (h : w.Reports p below c) (hu : p.Unlowered g c) : Ends (p.valueOf w c) g (below .value c) := by
  unfold valueOf
  refine Ends.bind_last (h g hu).2 fun v g₁ _ => ?_
  split
  · rw [Ends.bind_of_run (run_temp _), Ends.bind_of_run (run_instr _ _)]
    exact Ends.pure_ _
  · exact Ends.pure_ _

/-- Lowering a condition ends as `testCheck` says. -/
theorem ends_testOf (h : w.Reports p below c) (hu : p.Unlowered g c) :
    Ends (p.testOf w c) g (p.testCheck below c) := by
  unfold testOf testCheck
  refine ends_exprType_bind fun t => ?_
  cases hc : p.isComparison c with
  | true => simpa using (h g hu).2
  | false =>
    cases t with
    | int =>
      simp only [Bool.false_eq_true, if_false, reduceCtorEq, and_false]
      refine Ends.bind_last (ends_valueOf h hu) fun v g₁ _ => ?_
      rw [Ends.bind_of_run (run_temp _), Ends.bind_of_run (run_instr _ _)]
      exact Ends.pure_ _
    | string => rfl

end Operands

variable (p) in
/-- What lowering node `id`, of form `n`, from `g` through the walk `w` needs to end as `check below` says: the walk
lowers each reference of the node as `below` says and records operands only for the nodes it lowers, the node is a
tree, and no node it reaches is lowered yet. -/
structure Meets (w : Walk) (below : Place → NodeId → Option CodegenError) (id : NodeId) (n : Node) (g : Generator) :
    Prop where
  get : p.ast.get? id = some n
  kept : w.Sound p.ValuesKept fun id g _ g' => p.ValuesKept id g g'
  reports : ∀ c ∈ n.children, w.Reports p below c
  tree : p.Tree id
  unlowered : p.Unlowered g id

namespace Meets

variable {w : Walk} {below : Place → NodeId → Option CodegenError} {id c : NodeId} {n : Node}

/-- Each reference of a node met for the first time is met for the first time. -/
theorem fresh (H : p.Meets w below id n g) (hc : c ∈ n.children) : p.Unlowered g c :=
  H.unlowered.child H.get hc

/-- No two references of the node reach a common node. -/
theorem apart (H : p.Meets w below id n g) : n.children.Pairwise fun c c' => ∀ x, p.Reaches c x → ¬p.Reaches c' x :=
  H.tree.pairwise H.get

end Meets

/-! ## Expressions -/

section Expressions

variable {w : Walk} {below : Place → NodeId → Option CodegenError} {id : NodeId} {ty : Option Ty}

/-- A node's only reference lowered for its value, then steps that cannot fail. -/
theorem ends_operand {β : Type} {n : Node} {x : NodeId} (H : p.Meets w below id n g) (hn : n.children = [x])
    {k : Value → GenM β} (hk : ∀ v g, Ends (k v) g none) :
    Ends (p.valueOf w x >>= k) g (below .value x) := by
  have hx : x ∈ n.children := by simp [hn]
  exact Ends.bind_last (ends_valueOf (H.reports x hx) (H.fresh hx)) fun v g₁ _ => hk v g₁

/-- A node's two references lowered for their values, left to right, then steps that cannot fail: lowering the
first records nothing the second reaches. -/
theorem ends_operands {β : Type} {n : Node} {l r : NodeId} (H : p.Meets w below id n g) (hn : n.children = [l, r])
    {k : Value → Value → GenM β} (hk : ∀ vl vr g, Ends (k vl vr) g none) :
    Ends (p.valueOf w l >>= fun vl => p.valueOf w r >>= fun vr => k vl vr) g (below .value l <|> below .value r) := by
  have hl : l ∈ n.children := by simp [hn]
  have hr : r ∈ n.children := by simp [hn]
  have hap : ∀ x, p.Reaches l x → ¬p.Reaches r x := by simpa [hn] using H.apart
  refine Ends.bind (ends_valueOf (H.reports l hl) (H.fresh hl)) fun _ g₁ h₁ => ?_
  have hur : p.Unlowered g₁ r := (H.fresh hr).kept (valuesKept_valueOf H.kept.expr h₁) hap
  exact Ends.bind_last (ends_valueOf (H.reports r hr) hur) fun _ g₂ _ => hk _ _ g₂

/-- A negation ends as `formCheck` says: the type check, then its operand. -/
theorem ends_lowerForm_neg {x : NodeId} (H : p.Meets w below id (.expr (.neg x) ty) g) :
    Ends (p.lowerForm w id (.neg x)) g (p.formCheck below (.neg x)) := by
  simp only [lowerForm, formCheck]
  exact ends_exprType_bind fun t => Ends.refuse fun _ =>
    ends_operand H rfl fun v g₁ => Ends.of_exists (by simp [Runs.bind_iff])

/-- An arithmetic node ends as `formCheck` says: the operand types, then the operands left to right. -/
theorem ends_lowerForm_arith {op : ArithOp} {l r : NodeId} (H : p.Meets w below id (.expr (.arith op l r) ty) g) :
    Ends (p.lowerForm w id (.arith op l r)) g (p.formCheck below (.arith op l r)) := by
  simp only [lowerForm, formCheck, binaryCheck]
  refine ends_operandType_bind fun t => Ends.refuse fun _ => ends_operands H rfl fun vl vr g₁ => ?_
  cases t <;> exact Ends.of_exists (by simp [Runs.bind_iff])

/-- A comparison ends as `formCheck` says: the operand types, then the operands left to right. -/
theorem ends_lowerForm_cmp {op : CmpOp} {l r : NodeId} (H : p.Meets w below id (.expr (.cmp op l r) ty) g) :
    Ends (p.lowerForm w id (.cmp op l r)) g (p.formCheck below (.cmp op l r)) := by
  simp only [lowerForm, formCheck, binaryCheck]
  refine ends_operandType_bind fun t => Ends.refuse fun _ => ends_operands H rfl fun vl vr g₁ => ?_
  cases t <;> exact Ends.of_exists (by simp [Runs.bind_iff])

/-- An assignment ends as `formCheck` says: the type check, then its value. -/
theorem ends_lowerForm_assign {s : SymbolId} {x : NodeId} (H : p.Meets w below id (.expr (.assign s x) ty) g) :
    Ends (p.lowerForm w id (.assign s x)) g (p.formCheck below (.assign s x)) := by
  simp only [lowerForm, formCheck]
  exact ends_exprType_bind fun t => Ends.refuse fun _ =>
    ends_operand H rfl fun v g₁ => Ends.of_exists (by simp [Runs.bind_iff, runs_storage])

/-- A call's arguments, left to right, each checked against its parameter before it is lowered: lowering one records
nothing the arguments after it reach. -/
theorem ends_arguments (hw : w.Sound p.ValuesKept fun id g _ g' => p.ValuesKept id g g') {callee : String} :
    ∀ (i : Nat) (as : List (NodeId × SymbolId)) {g : Generator}, (∀ a ∈ as, w.Reports p below a.1) →
      (as.map Prod.fst).Pairwise (fun c c' => ∀ x, p.Reaches c x → ¬p.Reaches c' x) →
      (∀ a ∈ as, p.Unlowered g a.1) → Ends (p.arguments w callee i as) g (p.argumentsCheck below callee i as)
  | i, [], g, _, _, _ => by
    rw [arguments, argumentsCheck]
    exact Ends.pure_ _
  | i, (a, s) :: rest, g, hr, hp, hu => by
    rw [arguments, argumentsCheck]
    simp only [List.map_cons, List.pairwise_cons, List.mem_map] at hp
    refine ends_exprType_bind fun t => Ends.refuse fun _ => ?_
    refine Ends.bind (ends_valueOf (hr (a, s) (by simp)) (hu (a, s) (by simp))) fun v g₁ h₁ => ?_
    have hk := valuesKept_valueOf hw.expr h₁
    have hrest : ∀ b ∈ rest, p.Unlowered g₁ b.1 := fun b hb =>
      (hu b (by simp [hb])).kept hk (hp.1 b.1 ⟨b, hb, rfl⟩)
    exact Ends.bind_last (ends_arguments hw (i + 1) rest (fun b hb => hr b (by simp [hb])) hp.2 hrest)
      fun _ _ _ => Ends.pure_ _

/-- A call ends as `formCheck` says: the count of its arguments, then each argument in order. -/
theorem ends_lowerForm_call {f : FunctionId} {args : List NodeId} (H : p.Meets w below id (.expr (.call f args) ty) g) :
    Ends (p.lowerForm w id (.call f args)) g (p.formCheck below (.call f args)) := by
  simp only [lowerForm, formCheck]
  refine Ends.refuse fun hlen => ?_
  have hfst : (args.zip (p.symbols.signature f).params).map Prod.fst = args := List.map_fst_zip (by omega)
  have hp : ((args.zip (p.symbols.signature f).params).map Prod.fst).Pairwise
      fun c c' => ∀ x, p.Reaches c x → ¬p.Reaches c' x := by
    rw [hfst]
    exact H.apart
  refine Ends.bind_last (ends_arguments H.kept 0 _ (fun a ha => H.reports a.1 (List.of_mem_zip ha).1) hp
    fun a ha => H.fresh (List.of_mem_zip ha).1) fun vs g₁ _ => ?_
  by_cases hs : (p.symbols.signature f).result = .string <;> exact Ends.of_exists (by simp [Runs.bind_iff, hs])

/-- An expression lowered by its form ends as `formCheck` says. -/
theorem ends_lowerForm {e : Expr} (H : p.Meets w below id (.expr e ty) g) :
    Ends (p.lowerForm w id e) g (p.formCheck below e) := by
  cases e with
  | read s => exact Ends.of_exists (by simp [lowerForm, Runs.bind_iff, runs_storage])
  | int v => exact Ends.of_exists (by simp [lowerForm])
  | str raw => exact Ends.of_exists (by simp [lowerForm, Runs.bind_iff])
  | neg x => exact ends_lowerForm_neg H
  | arith op l r => exact ends_lowerForm_arith H
  | cmp op l r => exact ends_lowerForm_cmp H
  | assign s x => exact ends_lowerForm_assign H
  | call f args => exact ends_lowerForm_call H

/-- A node lowered for its value, met for the first time, ends as `check` says of the place of a value. -/
theorem ends_lowerExpr {n : Node} (H : p.Meets w below id n g) : Ends (p.lowerExpr w id) g (p.check below .value id) := by
  have hv : g.values[id]? = none := H.unlowered id (.refl id)
  unfold lowerExpr check
  rw [Ends.bind_of_run (Runs.run_get g)]
  cases n with
  | expr e t =>
    cases t with
    | none => simp only [hv, H.get]; rfl
    | some t =>
      simp only [hv, H.get]
      exact ends_lowerForm H
  | stmt s => simp only [hv, H.get]; rfl

end Expressions

/-! ## Instructions -/

section Instructions

variable {w : Walk} {below : Place → NodeId → Option CodegenError} {id : NodeId}

/-- A string scope records what its step records. -/
theorem valuesKept_inScope {α : Type} {x : GenM α} {c : NodeId} {a : α}
    (hx : ∀ {g a g'}, Runs x g a g' → p.ValuesKept c g g') (h : Runs (Generator.inScope x) g a g') :
    p.ValuesKept c g g' := by
  obtain ⟨g₁, h₁, rfl⟩ := runs_inScope.mp h
  exact ((ValuesKept.of_values (by simp)).trans (hx h₁)).trans (.of_values (by simp))

/-- A condition tested in a string scope, then the rest, which starts from what the condition's lowering left: only
operands of nodes the condition reaches recorded. -/
theorem ends_testIn_bind {β : Type} {c : NodeId} {f : Value → GenM β} {r : Option CodegenError}
    (hw : w.Sound p.ValuesKept fun id g _ g' => p.ValuesKept id g g') (hc : w.Reports p below c)
    (hu : p.Unlowered g c) (hf : ∀ v g', p.ValuesKept c g g' → Ends (f v) g' r) :
    Ends (Generator.inScope (p.testOf w c) >>= f) g (p.testCheck below c <|> r) :=
  Ends.bind (Ends.inScope (ends_testOf hc (hu.of_values (by simp)))) fun v _ h =>
    hf v _ (valuesKept_inScope (fun h => valuesKept_testOf hw.expr h) h)

/-- A node emitted in a string scope, then the rest, which starts from what the node's lowering left. -/
theorem ends_emitIn_bind {β : Type} {c : NodeId} {f : Unit → GenM β} {r : Option CodegenError}
    (hw : w.Sound p.ValuesKept fun id g _ g' => p.ValuesKept id g g') (hc : w.Reports p below c)
    (hu : p.Unlowered g c) (hf : ∀ g', p.ValuesKept c g g' → Ends (f ()) g' r) :
    Ends (Generator.inScope (w.emit c) >>= f) g (below .instr c <|> r) :=
  Ends.bind (Ends.inScope (hc _ (hu.of_values (by simp))).1) fun _ _ h => hf _ (valuesKept_inScope hw.emit h)

/-- The first violation among nodes is that of the first node, or else the first among the rest. -/
theorem findSome?_cons_eq {c : NodeId} {cs : List NodeId} (f : NodeId → Option CodegenError) :
    (c :: cs).findSome? f = (f c <|> cs.findSome? f) := by
  rw [List.findSome?_cons]
  cases f c <;> rfl

/-- Nodes emitted one after another, no two reaching a common node: lowering one records nothing the later ones
reach, and the loop stops at the first that fails. -/
theorem ends_forM (hw : w.Sound p.ValuesKept fun id g _ g' => p.ValuesKept id g g') :
    ∀ (items : List NodeId) {g : Generator}, (∀ c ∈ items, w.Reports p below c) →
      items.Pairwise (fun c c' => ∀ x, p.Reaches c x → ¬p.Reaches c' x) → (∀ c ∈ items, p.Unlowered g c) →
      Ends (items.forM w.emit) g (items.findSome? (below .instr))
  | [], g, _, _, _ => Ends.pure_ _
  | c :: cs, g, hr, hp, hu => by
    rw [findSome?_cons_eq]
    rw [List.pairwise_cons] at hp
    refine Ends.bind ((hr c (by simp)) g (hu c (by simp))).1 fun _ g₁ h₁ => ?_
    exact ends_forM hw cs (fun c' hc' => hr c' (by simp [hc'])) hp.2
      fun c' hc' => (hu c' (by simp [hc'])).kept (hw.emit h₁) (hp.1 c' hc')

/-- A choice ends as `stmtCheck` says: its test, its then arm, then its else arm if any. -/
theorem ends_lowerChoice {c t : NodeId} {e : Option NodeId} (H : p.Meets w below id (.stmt (.ite c t e)) g) :
    Ends (p.lowerChoice w c t e) g (p.stmtCheck below (.ite c t e)) := by
  have hc : c ∈ (Node.stmt (.ite c t e)).children := by simp [Node.children]
  have ht : t ∈ (Node.stmt (.ite c t e)).children := by simp [Node.children]
  have hap := H.apart
  simp only [Node.children, List.pairwise_cons, List.mem_cons, Option.mem_toList] at hap
  simp only [lowerChoice, stmtCheck]
  rw [Ends.bind_of_run (run_banner _ _), Ends.bind_of_run (run_newLabel _), Ends.bind_of_run (run_newLabel _),
    Ends.bind_of_run (run_newLabel _)]
  refine ends_testIn_bind H.kept (H.reports c hc) ((H.fresh hc).of_values (by simp)) fun v g₁ k₁ => ?_
  rw [Ends.bind_of_run (run_branch _ _ _ _), Ends.bind_of_run (run_placeLabel _ _)]
  refine ends_emitIn_bind H.kept (H.reports t ht) ?_ fun g₂ k₂ => ?_
  · exact ((H.fresh ht).after (by simp) k₁ (hap.1 t (.inl rfl))).of_values (by simp)
  rw [Ends.bind_of_run (run_jump _ _), Ends.bind_of_run (run_placeLabel _ _)]
  cases e with
  | none => exact Ends.of_exists (by simp [Runs.bind_iff])
  | some b =>
    have hb : b ∈ (Node.stmt (.ite c t (some b))).children := by simp [Node.children]
    have hub : p.Unlowered g₂ b :=
      ((H.fresh hb).after (by simp) k₁ (hap.1 b (.inr rfl))).after (by simp) k₂ (hap.2.1 b rfl)
    exact Ends.bind_last (Ends.inScope ((H.reports b hb) _ (hub.of_values (by simp))).1)
      fun _ _ _ => Ends.of_exists (by simp [Runs.bind_iff])

/-- A while loop ends as `stmtCheck` says: its test, then its body. -/
theorem ends_lowerWhile {c b : NodeId} (H : p.Meets w below id (.stmt (.whileLoop c b)) g) :
    Ends (p.lowerWhile w c b) g (p.stmtCheck below (.whileLoop c b)) := by
  have hc : c ∈ (Node.stmt (.whileLoop c b)).children := by simp [Node.children]
  have hb : b ∈ (Node.stmt (.whileLoop c b)).children := by simp [Node.children]
  have hap : ∀ x, p.Reaches c x → ¬p.Reaches b x := by simpa [Node.children] using H.apart
  simp only [lowerWhile, stmtCheck]
  rw [Ends.bind_of_run (run_banner _ _), Ends.bind_of_run (run_newLabel _), Ends.bind_of_run (run_newLabel _),
    Ends.bind_of_run (run_newLabel _), Ends.bind_of_run (run_jump _ _), Ends.bind_of_run (run_placeLabel _ _)]
  refine ends_testIn_bind H.kept (H.reports c hc) ((H.fresh hc).of_values (by simp)) fun v g₁ k₁ => ?_
  have hub : p.Unlowered g₁ b := (H.fresh hb).after (by simp) k₁ hap
  rw [Ends.bind_of_run (run_branch _ _ _ _), Ends.bind_of_run (run_placeLabel _ _)]
  exact Ends.bind_last (Ends.inScope ((H.reports b hb) _ (hub.of_values (by simp))).1)
    fun _ _ _ => Ends.of_exists (by simp [Runs.bind_iff])

/-- A do loop ends as `stmtCheck` says: its body, then its test. -/
theorem ends_lowerDo {b c : NodeId} (H : p.Meets w below id (.stmt (.doLoop b c)) g) :
    Ends (p.lowerDo w b c) g (p.stmtCheck below (.doLoop b c)) := by
  have hb : b ∈ (Node.stmt (.doLoop b c)).children := by simp [Node.children]
  have hc : c ∈ (Node.stmt (.doLoop b c)).children := by simp [Node.children]
  have hap : ∀ x, p.Reaches b x → ¬p.Reaches c x := by simpa [Node.children] using H.apart
  simp only [lowerDo, stmtCheck]
  rw [Ends.bind_of_run (run_banner _ _), Ends.bind_of_run (run_newLabel _), Ends.bind_of_run (run_newLabel _),
    Ends.bind_of_run (run_newLabel _), Ends.bind_of_run (run_jump _ _), Ends.bind_of_run (run_placeLabel _ _)]
  refine ends_emitIn_bind H.kept (H.reports b hb) ((H.fresh hb).of_values (by simp)) fun g₁ k₁ => ?_
  have huc : p.Unlowered g₁ c := (H.fresh hc).after (by simp) k₁ hap
  rw [Ends.bind_of_run (run_jump _ _), Ends.bind_of_run (run_placeLabel _ _)]
  exact Ends.bind_last (Ends.inScope (ends_testOf (H.reports c hc) (huc.of_values (by simp))))
    fun _ _ _ => Ends.of_exists (by simp [Runs.bind_iff])

/-- A `for` loop lowers its start, condition, body and step in that order, each a reference apart from the others. -/
theorem ends_lowerFor {i c s b : NodeId} (H : p.Meets w below id (.stmt (.forLoop i c s b)) g) :
    Ends (p.lowerFor w i c s b) g (p.stmtCheck below (.forLoop i c s b)) := by
  have hi : i ∈ (Node.stmt (.forLoop i c s b)).children := by simp [Node.children]
  have hc : c ∈ (Node.stmt (.forLoop i c s b)).children := by simp [Node.children]
  have hs : s ∈ (Node.stmt (.forLoop i c s b)).children := by simp [Node.children]
  have hb : b ∈ (Node.stmt (.forLoop i c s b)).children := by simp [Node.children]
  have hap := H.apart
  simp [Node.children] at hap
  obtain ⟨⟨hic, his, hib⟩, ⟨hcs, hcb⟩, hsb⟩ := hap
  simp only [lowerFor, stmtCheck]
  rw [Ends.bind_of_run (run_banner _ _), Ends.bind_of_run (run_newLabel _), Ends.bind_of_run (run_newLabel _),
    Ends.bind_of_run (run_newLabel _), Ends.bind_of_run (run_newLabel _)]
  refine Ends.bind (Ends.discard ((H.reports i hi) _ ((H.fresh hi).of_values (by simp))).2) fun _ g₁ h₁ => ?_
  obtain ⟨_, h₁⟩ := Runs.discard_iff.mp h₁
  have k₁ := H.kept.expr h₁
  rw [Ends.bind_of_run (run_jump _ _), Ends.bind_of_run (run_placeLabel _ _)]
  have huc : p.Unlowered g₁ c := (H.fresh hc).after (by simp) k₁ hic
  refine ends_testIn_bind H.kept (H.reports c hc) (huc.of_values (by simp)) fun v g₂ k₂ => ?_
  rw [Ends.bind_of_run (run_branch _ _ _ _), Ends.bind_of_run (run_placeLabel _ _)]
  refine ends_emitIn_bind H.kept (H.reports b hb) ?_ fun g₃ k₃ => ?_
  · exact (((H.fresh hb).after (by simp) k₁ hib).after (by simp) k₂ hcb).of_values (by simp)
  have hus : p.Unlowered g₃ s :=
    (((H.fresh hs).after (by simp) k₁ his).after (by simp) k₂ hcs).after (by simp) k₃ fun x hxb hxs => hsb x hxs hxb
  rw [Ends.bind_of_run (run_jump _ _), Ends.bind_of_run (run_placeLabel _ _)]
  exact Ends.bind_last (Ends.inScope (Ends.discard ((H.reports s hs) _ (hus.of_values (by simp))).2))
    fun _ _ _ => Ends.of_exists (by simp [Runs.bind_iff])

/-- Handing a value over cannot fail: the sequence ends as its rest. -/
theorem ends_handOver_bind {γ : Type} {t : Ty} {v : Value} {f : Value × Option Nat → GenM γ} {r : Option CodegenError}
    (hf : ∀ a g', Ends (f a) g' r) : Ends (handOver t v >>= f) g r := by
  unfold handOver
  by_cases ht : t = .string
  · rw [if_pos ht, bind_assoc, Ends.bind_of_run (Runs.run_get g)]
    cases ownedIndex g.owned v with
    | some i => exact (Ends.bind_of_run rfl).mpr (hf _ _)
    | none =>
      simp only [bind_assoc]
      rw [Ends.bind_of_run (run_temp _), Ends.bind_of_run (run_instr _ _), Ends.bind_of_run (run_useRuntime _)]
      exact (Ends.bind_of_run rfl).mpr (hf _ _)
  · rw [if_neg ht]
    exact (Ends.bind_of_run rfl).mpr (hf _ _)

/-- A return ends as `stmtCheck` says: its type check, then its value. -/
theorem ends_lowerReturn {x : NodeId} (H : p.Meets w below id (.stmt (.ret x)) g) :
    Ends (p.lowerReturn w x) g (p.stmtCheck below (.ret x)) := by
  simp only [lowerReturn, stmtCheck]
  refine ends_exprType_bind fun t => ends_operand H rfl fun v g₁ => ends_handOver_bind fun r g₂ => ?_
  obtain ⟨v', kept⟩ := r
  rw [Ends.bind_of_run (Runs.run_get _), Ends.bind_of_run (run_freeAll _ _), Ends.bind_of_run (run_terminate _ _)]
  exact Ends.of_runs (Runs.run_modify _ _)

/-- A definition ends as `stmtCheck` says: as its body does. -/
theorem ends_lowerDefinition {f : FunctionId} {b : NodeId} (H : p.Meets w below id (.stmt (.define f b)) g) :
    Ends (p.lowerDefinition w f b) g (p.stmtCheck below (.define f b)) := by
  have hb : b ∈ (Node.stmt (.define f b)).children := by simp [Node.children]
  simp only [lowerDefinition, stmtCheck]
  rw [Ends.bind_of_run (run_write _ _), Ends.bind_of_run (run_write _ _), Ends.bind_of_run (Runs.run_modify _ _),
    Ends.bind_of_run (runs_spills.mpr rfl : Runs _ _ PUnit.unit _), Ends.bind_of_run (Runs.run_get _),
    Ends.bind_of_run (Runs.run_modify _ _)]
  refine Ends.bind_last ((H.reports b hb) _ ((H.fresh hb).of_values (by simp))).1 fun _ g₁ _ => ?_
  rw [Ends.bind_of_run (Runs.run_get _)]
  -- whether or not the body fell off its end, the epilogue and the rest cannot fail
  split <;> simp only [Ends, Runs.run_bind, Runs.run_modify, run_write, run_writeBlank, run_freeOwned, run_terminate,
    run_flushConstants, run_declareRuntime]

/-- Declarations cannot fail. -/
theorem ends_lowerDeclarations (syms : List SymbolId) : Ends (p.lowerDeclarations syms) g none := by
  unfold lowerDeclarations
  refine Ends.forM_none fun s g => ?_
  dsimp only
  split
  · exact Ends.of_runs (run_write _ _)
  · split
    · exact Ends.of_runs (run_write _ _)
    · exact Ends.of_runs (run_instr _ _)

/-- An instruction lowered by its rule ends as `stmtCheck` says. -/
theorem ends_lowerStmt {st : Stmt} (H : p.Meets w below id (.stmt st) g) :
    Ends (p.lowerStmt w st) g (p.stmtCheck below st) := by
  cases st with
  | declare syms => exact ends_lowerDeclarations syms
  | eval e => exact Ends.discard ((H.reports e (by simp [Node.children])) g (H.fresh (by simp [Node.children]))).2
  | ite c t e => exact ends_lowerChoice H
  | whileLoop c b => exact ends_lowerWhile H
  | doLoop b c => exact ends_lowerDo H
  | forLoop i c s b => exact ends_lowerFor H
  | ret x => exact ends_lowerReturn H
  | block items => exact ends_forM H.kept items H.reports H.apart fun c hc => H.fresh hc
  | prototype f => exact Ends.of_runs (run_write _ _)
  | define f b => exact ends_lowerDefinition H

/-- A node emitted for its effect, met for the first time, ends as `check` says of the place of an instruction. -/
theorem ends_emitNode {n : Node} (H : p.Meets w below id n g) : Ends (p.emitNode w id) g (p.check below .instr id) := by
  unfold emitNode check
  cases n with
  | expr e t =>
    -- an expression met for the first time has no operand recorded, so it is lowered by its form
    have hv : g.values.contains id = false := by
      simp [Std.HashMap.contains_eq_isSome_getElem?, H.unlowered id (.refl id)]
    simp only [H.get]
    rw [Ends.bind_of_run (Runs.run_get g), hv]
    simp only [Bool.false_eq_true, if_false]
    exact Ends.discard (ends_lowerForm H)
  | stmt st =>
    simp only [H.get]
    exact ends_lowerStmt H

end Instructions

/-! ## Every node built bottom up -/

theorem reports_congr {w : Walk} {below below' : Place → NodeId → Option CodegenError} {c : NodeId}
    (h : w.Reports p below c) (he : ∀ pl, below pl c = below' pl c) : w.Reports p below' c := by
  intro g hu
  rw [← he, ← he]
  exact h g hu

/-- One level of lowering rules, over a walk that lowers the references of a tree node as `below` says and records
operands only for the nodes it lowers, lowers the node as `check below` says. -/
theorem reports_step {w : Walk} {below : Place → NodeId → Option CodegenError} {id : NodeId}
    (hw : w.Sound p.ValuesKept fun id g _ g' => p.ValuesKept id g g')
    (hr : ∀ n, p.ast.get? id = some n → ∀ c ∈ n.children, w.Reports p below c) (ht : p.Tree id) :
    (p.step w).Reports p (p.check below) id := by
  intro g hu
  cases hn : p.ast.get? id with
  | none =>
    constructor
    · show Ends (p.emitNode w id) g _
      unfold emitNode check
      simp only [hn]
      rfl
    · show Ends (p.lowerExpr w id) g _
      unfold lowerExpr check
      rw [Ends.bind_of_run (Runs.run_get g)]
      simp only [hu id (.refl id), hn]
      rfl
  | some n =>
    have H : p.Meets w below id n g := ⟨hn, hw, hr n hn, ht, hu⟩
    exact ⟨ends_emitNode H, ends_lowerExpr H⟩

/-- The walk one level up lowers a node built bottom up as `violation` says, given that the walk lowers the node's
references so: they are earlier nodes, which is all `violation` follows. -/
theorem reports_succ {n : Nat} {id : NodeId} (hup : p.BuiltUp id) (ht : p.Tree id)
    (hr : ∀ node, p.ast.get? id = some node → ∀ c ∈ node.children, (p.walk n).Reports p p.violation c) :
    (p.walk (n + 1)).Reports p p.violation id := by
  have h : (p.step (p.walk n)).Reports p (p.check fun pl c => if c < id then p.violation pl c else none) id :=
    reports_step (valuesKept_walk n)
      (fun node hn c hc => reports_congr (hr node hn c hc) fun pl => (if_pos (hup.lt hn hc)).symm) ht
  exact reports_congr h fun pl => (p.violation_eq pl id).symm

/-- The walk at depth `n` lowers every node before the `n`-th that is a tree built bottom up as `violation` says. -/
theorem reports_walk (n : Nat) {id : NodeId} (hid : id < n) (hup : p.BuiltUp id) (ht : p.Tree id) :
    (p.walk n).Reports p p.violation id := by
  induction n generalizing id with
  | zero => exact absurd hid (Nat.not_lt_zero id)
  | succ n ih =>
    exact reports_succ hup ht fun node hn c hc =>
      ih (Nat.lt_of_lt_of_le (hup.lt hn hc) (Nat.lt_succ_iff.mp hid)) (hup.child hn hc) (ht.child hn hc)

/-- The walk that lowers a unit lowers each of its trees built bottom up as `violation` says. -/
theorem reports_emit {id : NodeId} (hup : p.BuiltUp id) (ht : p.Tree id) :
    (p.walk (p.ast.size + 1)).Reports p p.violation id :=
  reports_succ hup ht fun _ hn _ hc =>
    reports_walk _ ((hup.lt hn hc).trans (Ast.lt_size hn)) (hup.child hn hc) (ht.child hn hc)

/-- A unit compiles, or fails, as the lowering of its roots ends. -/
theorem compile_of_ends {layout : Layout} {r : Option CodegenError}
    (h : Ends (p.ast.roots.toList.forM (p.walk (p.ast.size + 1)).emit) (Generator.new layout) r) :
    (∀ e, p.compile layout = .error e ↔ r = some e) ∧ ((∃ s, p.compile layout = .ok s) ↔ r = none) := by
  unfold compile
  dsimp only
  unfold Ends at h
  revert h
  rcases (p.ast.roots.toList.forM (p.walk (p.ast.size + 1)).emit).run.run (Generator.new layout) with
    ⟨_ | ⟨⟩, g⟩
  · intro h
    change r = some _ at h
    subst h
    simp
  · intro h
    change r = none at h
    subst h
    simp

/-- A unit whose roots are trees built bottom up, no two reaching a common node, compiles exactly when no root breaks
a rule, and otherwise fails with the first rule broken: the roots in order, and in each the order of `violation`. -/
theorem compile_fails_at_first_violation (layout : Layout) (hup : ∀ r ∈ p.ast.roots.toList, p.BuiltUp r)
    (ht : ∀ r ∈ p.ast.roots.toList, p.Tree r)
    (hap : p.ast.roots.toList.Pairwise fun r r' => ∀ x, p.Reaches r x → ¬p.Reaches r' x) :
    (∀ e, p.compile layout = .error e ↔ p.ast.roots.toList.findSome? (p.violation .instr) = some e) ∧
      ((∃ s, p.compile layout = .ok s) ↔ p.ast.roots.toList.findSome? (p.violation .instr) = none) :=
  compile_of_ends (ends_forM (valuesKept_walk _) _ (fun r hr => reports_emit (hup r hr) (ht r hr)) hap
    fun _ _ x _ => by simp [Generator.new])

/-- A function returning `-"s" - d`, where `d` is a declaration and so has no value; each expression has the type
its builder gives it. -/
def ownCheckFirstUnit : Program where
  ast := { nodes := #[.expr (.str "s") (some .string), .expr (.neg 0) (some .string), .stmt (.declare []),
    .expr (.arith .sub 1 2) (some .string), .stmt (.ret 3), .stmt (.define 0 4)], roots := #[5] }

/-- The nodes of the unit whose ownership check comes first form a forest built bottom up. -/
theorem ownCheckFirstUnit_forest : ownCheckFirstUnit.Forest := by decide

/-- The first violation of the unit is the declaration standing as an operand. -/
theorem ownCheckFirstUnit_violation :
    ownCheckFirstUnit.violation .instr 5 = some (.notAnExpression 2 "DeclarationList") := by
  rw [violation_eq]
  simp [check, stmtCheck, ownCheckFirstUnit, Ast.get?]
  rw [violation_eq]
  simp [check, stmtCheck, withType, typeAt, Ast.get?]
  rw [violation_eq]
  simp [check, formCheck, binaryCheck, withType, typeAt, Ast.get?, Node.kindName, Stmt.kindName]

/-- In `-"s" - d` the subtraction checks the type of its right operand before it lowers its left one: lowering
reports the declaration that stands as an operand, not the negated string. -/
theorem ownCheckFirstUnit_compile :
    ownCheckFirstUnit.compile {} = .error (.notAnExpression 2 "DeclarationList") := by
  have hroots : ownCheckFirstUnit.ast.roots.toList = [5] := rfl
  refine ((compile_fails_at_first_violation {} ?_ ?_ ?_).1 _).mpr ?_
  · exact fun r _ => ownCheckFirstUnit_forest.builtUp r
  · exact fun r _ => ownCheckFirstUnit_forest.tree r
  · rw [hroots]
    exact List.pairwise_singleton _ _
  · rw [hroots]
    simpa using ownCheckFirstUnit_violation

end Program

end Lowering
