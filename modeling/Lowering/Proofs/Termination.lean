import Lowering.Proofs.Keeps

/-!
# Lowering ends on every tree without reference cycles

Lowering follows references through the walk: `Program.walk n` follows chains of at most `n` references and reports
`cyclic` when a chain is longer, where an unbounded recursion would not come back. References may name nodes that do
not exist, or later nodes, so a node's position bounds nothing; what bounds the recursion is the number of nodes on
the chains of references from the node (`Program.Bounded`).

A rule calls the walk only on the references of the node it lowers (`step_congr`). So a walk as deep as the chains
from a node lowers the node whatever lies below that depth (`Bounded.walkFrom_congr`): every deeper walk lowers it
alike (`walk_stable`), and none runs out on it (`Bounded.neverCyclic`), since no rule itself reports a cycle.

When no reference leads back to the node it leaves from (`Program.Acyclic`), a chain passes through each node at most
once, so through at most as many nodes as the tree has and one missing node after them (`Acyclic.bounded`). Lowering
any node then ends with a result or with an error that is not a cycle, as every deeper walk does
(`emit_terminates`).
-/

set_option mvcgen.warning false

namespace Lowering

open Std.Do Ir Generator

/-- The step `x` never fails with a cycle: whatever it reports is a fault of the tree, not a walk run out. -/
abbrev NeverCyclic {α : Type} (x : GenM α) : Prop :=
  ⦃fun _ => ⌜True⌝⦄ x ⦃post⟨fun _ _ => ⌜True⌝, fun e _ => ⌜∀ c, e ≠ .cyclic c⌝⟩⦄

/-- Both ways of lowering through a walk never fail with a cycle. -/
structure Walk.NeverCyclic (w : Walk) : Prop where
  emit : ∀ id, Lowering.NeverCyclic (w.emit id)
  expr : ∀ id, Lowering.NeverCyclic (w.expr id)

/-- The walk that lowers nothing. -/
def Walk.idle : Walk := ⟨fun _ => pure (), fun _ => pure (.int 0)⟩

/-- Two walks that lower the nodes of a list alike. -/
def Walk.AgreeOn (w w' : Walk) (cs : List NodeId) : Prop :=
  ∀ c ∈ cs, w.emit c = w'.emit c ∧ w.expr c = w'.expr c

namespace Walk.AgreeOn

variable {w w' : Walk} {cs : List NodeId} {c : NodeId}

/-- Walks that agree on a list emit its nodes alike. -/
theorem emit (h : w.AgreeOn w' cs) (hc : c ∈ cs) : w.emit c = w'.emit c := (h c hc).1

/-- Walks that agree on a list lower its nodes as expressions alike. -/
theorem expr (h : w.AgreeOn w' cs) (hc : c ∈ cs) : w.expr c = w'.expr c := (h c hc).2

end Walk.AgreeOn

namespace Program

/-- No reference of a node leads back to it. -/
def Acyclic (p : Program) : Prop :=
  ∀ id n c, p.ast.get? id = some n → c ∈ n.children → ¬p.Reaches c id

/-- Every chain of references from the node passes through at most `k` nodes, a missing last one included. -/
def Bounded (p : Program) : Nat → NodeId → Prop
  | 0, _ => False
  | k + 1, id => ∀ n, p.ast.get? id = some n → ∀ c ∈ n.children, p.Bounded k c

/-- The walk that follows chains of at most `n` references and hands what lies further on to `base`. -/
def walkFrom (p : Program) (base : Walk) : Nat → Walk
  | 0 => base
  | n + 1 => p.step (p.walkFrom base n)

variable {p : Program}

/-! ## Chains of references -/

theorem Reaches.trans {a b c : NodeId} (h₁ : p.Reaches a b) (h₂ : p.Reaches b c) : p.Reaches a c := by
  induction h₁ with
  | refl => exact h₂
  | child hn hc _ ih => exact .child hn hc (ih h₂)

/-- A chain extended by one reference. -/
theorem Reaches.tail {a b c : NodeId} {n : Node} (h : p.Reaches a b) (hn : p.ast.get? b = some n)
    (hc : c ∈ n.children) : p.Reaches a c :=
  h.trans (.child hn hc (.refl c))

/-- A node from which a chain of at least one reference leads to `id`. -/
def Leads (p : Program) (x id : NodeId) : Prop :=
  ∃ n c, p.ast.get? x = some n ∧ c ∈ n.children ∧ p.Reaches c id

/-- Distinct positions below `N` are at most `N`. -/
theorem length_le_of_nodup {l : List NodeId} {N : Nat} (hnd : l.Nodup) (hl : ∀ x ∈ l, x < N) : l.length ≤ N := by
  have hsub : l.toFinset ⊆ Finset.range N := fun x hx => Finset.mem_range.mpr (hl x (List.mem_toFinset.mp hx))
  have hcard := Finset.card_le_card hsub
  rwa [List.toFinset_card_of_nodup hnd, Finset.card_range] at hcard

/-- A path of distinct nodes that all lead to an existing node `id` which does not lead back to itself, grows by `id`
and stays a path of distinct nodes of the tree. -/
theorem Leads.extend (hp : p.Acyclic) {path : List NodeId} {id : NodeId} {n : Node}
    (hnd : path.Nodup) (hl : ∀ x ∈ path, x < p.ast.size ∧ p.Leads x id) (hn : p.ast.get? id = some n) :
    (id :: path).Nodup ∧ (id :: path).length ≤ p.ast.size ∧
      ∀ c ∈ n.children, ∀ x ∈ id :: path, x < p.ast.size ∧ p.Leads x c := by
  have hid : id ∉ path := fun hm => by
    obtain ⟨-, n', c, hn', hc, hr⟩ := hl id hm
    exact hp id n' c hn' hc hr
  have hnd' : (id :: path).Nodup := List.nodup_cons.mpr ⟨hid, hnd⟩
  refine ⟨hnd', length_le_of_nodup hnd' fun x hx => ?_, fun c hc x hx => ?_⟩
  · rcases List.mem_cons.mp hx with rfl | hx
    · exact Ast.lt_size hn
    · exact (hl x hx).1
  · rcases List.mem_cons.mp hx with rfl | hx
    · exact ⟨Ast.lt_size hn, n, c, hn, hc, .refl c⟩
    · obtain ⟨hlt, n', c', hn', hc', hr⟩ := hl x hx
      exact ⟨hlt, n', c', hn', hc', hr.tail hn hc⟩

/-- Below a path of distinct nodes of the tree that lead to `id`, the chains from `id` pass through no more nodes than
the tree has left. -/
theorem bounded_of_path (hp : p.Acyclic) (m : Nat) {path : List NodeId} {id : NodeId} (hm : p.ast.size ≤ path.length + m)
    (hnd : path.Nodup) (hl : ∀ x ∈ path, x < p.ast.size ∧ p.Leads x id) : p.Bounded (m + 1) id := by
  induction m generalizing path id with
  | zero =>
    intro n hn
    obtain ⟨-, hlen, -⟩ := Leads.extend hp hnd hl hn
    simp only [List.length_cons] at hlen
    omega
  | succ m ih =>
    intro n hn c hc
    obtain ⟨hnd', -, hl'⟩ := Leads.extend hp hnd hl hn
    exact ih (by simp only [List.length_cons]; omega) hnd' (hl' c hc)

/-- Without reference cycles, a chain of references visits each node once: it passes through at most as many nodes
as the tree has, and one missing node after them. -/
theorem Acyclic.bounded (hp : p.Acyclic) (id : NodeId) : p.Bounded (p.ast.size + 1) id :=
  bounded_of_path hp p.ast.size (by simp) (List.nodup_nil : ([] : List NodeId).Nodup) (by simp)

/-! ## A rule calls the walk only on the references of its node -/

section Congruence

variable {w w' : Walk} {cs : List NodeId}

/-- Lowering an operand depends only on how the walk lowers it. -/
theorem valueOf_congr {id : NodeId} (h : w.expr id = w'.expr id) : p.valueOf w id = p.valueOf w' id := by
  unfold valueOf
  rw [h]

/-- Lowering a condition depends only on how the walk lowers it. -/
theorem testOf_congr {id : NodeId} (h : w.expr id = w'.expr id) : p.testOf w id = p.testOf w' id := by
  unfold testOf
  rw [h, valueOf_congr h]

/-- Lowering arguments depends only on how the walk lowers them. -/
theorem arguments_congr {callee : String} {i : Nat} {args : List (NodeId × SymbolId)}
    (h : ∀ a ∈ args, w.expr a.1 = w'.expr a.1) : p.arguments w callee i args = p.arguments w' callee i args := by
  induction args generalizing i with
  | nil => rfl
  | cons a args ih =>
    simp only [arguments, valueOf_congr (h a List.mem_cons_self),
      ih (fun b hb => h b (List.mem_cons_of_mem a hb))]

/-- Two loops over a list agree when their bodies agree on its members. -/
theorem forM_congr {α : Type} {xs : List α} {f f' : α → GenM PUnit} (h : ∀ a ∈ xs, f a = f' a) :
    xs.forM f = xs.forM f' := by
  induction xs with
  | nil => rfl
  | cons a xs ih => simp only [List.forM, h a List.mem_cons_self, ih fun b hb => h b (List.mem_cons_of_mem a hb)]

/-- Lowering an expression by its form depends only on how the walk lowers its references. -/
theorem lowerForm_congr {id : NodeId} {e : Expr} {t : Option Ty} (h : w.AgreeOn w' (Node.expr e t).children) :
    p.lowerForm w id e = p.lowerForm w' id e := by
  cases e with
  | read | int | str => rfl
  | neg x => simp only [lowerForm, valueOf_congr (h.expr (c := x) (by simp [Node.children]))]
  | arith op l r =>
    simp only [lowerForm, valueOf_congr (h.expr (c := l) (by simp [Node.children])),
      valueOf_congr (h.expr (c := r) (by simp [Node.children]))]
  | cmp op l r =>
    simp only [lowerForm, valueOf_congr (h.expr (c := l) (by simp [Node.children])),
      valueOf_congr (h.expr (c := r) (by simp [Node.children]))]
  | assign s x => simp only [lowerForm, valueOf_congr (h.expr (c := x) (by simp [Node.children]))]
  | call f args =>
    have hargs : ∀ a ∈ args.zip (p.symbols.signature f).params, w.expr a.1 = w'.expr a.1 :=
      fun a ha => h.expr (by simpa [Node.children] using (List.of_mem_zip ha).1)
    simp only [lowerForm, arguments_congr hargs]

/-- A statement rule depends only on how the walk lowers the statement's references. -/
theorem lowerStmt_congr {s : Stmt} (h : w.AgreeOn w' (Node.stmt s).children) :
    p.lowerStmt w s = p.lowerStmt w' s := by
  cases s with
  | declare | prototype => rfl
  | eval e => simp only [lowerStmt, h.expr (c := e) (by simp [Node.children])]
  | ite c t e =>
    cases e with
    | none =>
      simp only [lowerStmt, lowerChoice, testOf_congr (h.expr (c := c) (by simp [Node.children])),
        h.emit (c := t) (by simp [Node.children])]
    | some e =>
      simp only [lowerStmt, lowerChoice, testOf_congr (h.expr (c := c) (by simp [Node.children])),
        h.emit (c := t) (by simp [Node.children]), h.emit (c := e) (by simp [Node.children])]
  | whileLoop c b =>
    simp only [lowerStmt, lowerWhile, testOf_congr (h.expr (c := c) (by simp [Node.children])),
      h.emit (c := b) (by simp [Node.children])]
  | doLoop b c =>
    simp only [lowerStmt, lowerDo, testOf_congr (h.expr (c := c) (by simp [Node.children])),
      h.emit (c := b) (by simp [Node.children])]
  | forLoop i c st b =>
    simp only [lowerStmt, lowerFor, h.expr (c := i) (by simp [Node.children]),
      testOf_congr (h.expr (c := c) (by simp [Node.children])), h.emit (c := b) (by simp [Node.children]),
      h.expr (c := st) (by simp [Node.children])]
  | ret x => simp only [lowerStmt, lowerReturn, valueOf_congr (h.expr (c := x) (by simp [Node.children]))]
  | block items => simp only [lowerStmt, forM_congr (fun c hc => h.emit (by simpa [Node.children] using hc))]
  | define f b => simp only [lowerStmt, lowerDefinition, h.emit (c := b) (by simp [Node.children])]

/-- One level of rules lowers a node alike through two walks that lower its references alike. -/
theorem step_congr {id : NodeId} (h : ∀ n, p.ast.get? id = some n → w.AgreeOn w' n.children) :
    (p.step w).emit id = (p.step w').emit id ∧ (p.step w).expr id = (p.step w').expr id := by
  cases hn : p.ast.get? id with
  | none => exact ⟨by simp only [step, emitNode, hn], by simp only [step, lowerExpr, hn]⟩
  | some n =>
    have ha := h n hn
    cases n with
    | expr e t =>
      refine ⟨by simp only [step, emitNode, hn, lowerForm_congr ha], ?_⟩
      cases t with
      | none => simp only [step, lowerExpr, hn]
      | some t => simp only [step, lowerExpr, hn, lowerForm_congr ha]
    | stmt s => exact ⟨by simp only [step, emitNode, hn, lowerStmt_congr ha], by simp only [step, lowerExpr, hn]⟩

end Congruence

/-! ## Deep enough walks agree -/

theorem walk_eq_walkFrom (n : Nat) : p.walk n = p.walkFrom stuck n := by
  induction n with
  | zero => rfl
  | succ n ih => simp only [walk, walkFrom, ih]

/-- Raising a base walk `m` levels, then `n` more, is raising it `m + n` levels. -/
theorem walkFrom_add (base : Walk) (m n : Nat) : p.walkFrom base (m + n) = p.walkFrom (p.walkFrom base m) n := by
  induction n with
  | zero => rfl
  | succ n ih =>
    show p.step (p.walkFrom base (m + n)) = p.step (p.walkFrom (p.walkFrom base m) n)
    rw [ih]

/-- A walk deep enough for every chain of references from a node lowers the node whatever lies below its depth. -/
theorem Bounded.walkFrom_congr {k : Nat} {id : NodeId} (h : p.Bounded k id) (b b' : Walk) :
    (p.walkFrom b k).emit id = (p.walkFrom b' k).emit id ∧ (p.walkFrom b k).expr id = (p.walkFrom b' k).expr id := by
  induction k generalizing id with
  | zero => simp [Bounded] at h
  | succ k ih => exact step_congr fun n hn c hc => ih (h n hn c hc)

/-- Past a bound on the chains of references from a node, a deeper walk lowers the node alike. -/
theorem walk_stable {k n : Nat} {id : NodeId} (h : p.Bounded k id) (hkn : k ≤ n) :
    (p.walk n).emit id = (p.walk k).emit id ∧ (p.walk n).expr id = (p.walk k).expr id := by
  obtain ⟨m, rfl⟩ := Nat.exists_eq_add_of_le hkn
  rw [walk_eq_walkFrom, walk_eq_walkFrom, Nat.add_comm k m, walkFrom_add]
  exact h.walkFrom_congr _ _

/-! ## No rule fails with a cycle -/

/-- What never failing with a cycle says of a run. -/
theorem NeverCyclic.run {α : Type} {x : GenM α} (h : NeverCyclic x) (g : Generator) (c : NodeId) :
    (x.run.run g).1 ≠ .error (.cyclic c) := by
  have hw := h g trivial
  simp only [wp, PredTrans.apply_pushExcept, PredTrans.apply_pushArg] at hw
  rcases hx : x.run.run g with ⟨_ | _, g'⟩
  · simp only [hx, Id.run] at hw
    simpa using hw c
  · simp

/-- A loop of steps that never fail with a cycle never does. -/
theorem neverCyclic_forM {α : Type} {xs : List α} {f : α → GenM PUnit} (hf : ∀ a, NeverCyclic (f a)) :
    NeverCyclic (xs.forM f) := by
  induction xs with
  | nil => mvcgen
  | cons a xs ih =>
    rw [List.forM_eq_forM, List.forM_cons]
    mvcgen [hf, ih]

section Rules

variable {w : Walk} (hw : w.NeverCyclic)
include hw

/-- Lowering an operand never fails with a cycle when the walk below does not. -/
theorem neverCyclic_valueOf (id : NodeId) : NeverCyclic (p.valueOf w id) := by
  have hx := hw.expr id
  mvcgen [Program.valueOf, temp, fresh_spec, instr_spec, hx]

/-- Lowering a condition never fails with a cycle when the walk below does not. -/
theorem neverCyclic_testOf (id : NodeId) : NeverCyclic (p.testOf w id) := by
  have hx := hw.expr id
  have hv := neverCyclic_valueOf (p := p) hw id
  mvcgen [Program.testOf, Program.exprType, temp, fresh_spec, instr_spec, hx, hv]
  all_goals simp

/-- Lowering the arguments of a call never fails with a cycle when the walk below does not. -/
theorem neverCyclic_arguments (callee : String) (i : Nat) (args : List (NodeId × SymbolId)) :
    NeverCyclic (p.arguments w callee i args) := by
  have hv := neverCyclic_valueOf (p := p) hw
  induction args generalizing i with
  | nil => mvcgen [Program.arguments]
  | cons a args ih => mvcgen [Program.arguments, Program.exprType, hv, ih] <;> simp

/-- Lowering an expression by its form never fails with a cycle when the walk below does not. -/
theorem neverCyclic_lowerForm (id : NodeId) (e : Expr) : NeverCyclic (p.lowerForm w id e) := by
  have hv := neverCyclic_valueOf (p := p) hw
  have ha := neverCyclic_arguments (p := p) hw
  cases e <;> mvcgen [Program.lowerForm, Program.storage, Program.exprType, Program.operandType, temp, fresh_spec,
    instr_spec, remember_spec, own_spec, useRuntime_spec, queueConstant_spec, hv, ha]
  -- what is left are the rule's own refusals, none of which is a cycle
  all_goals simp

/-- Lowering an expression node never fails with a cycle when the walk below does not. -/
theorem neverCyclic_lowerExpr (id : NodeId) : NeverCyclic (p.lowerExpr w id) := by
  have hf := neverCyclic_lowerForm hw (p := p) id
  mvcgen [Program.lowerExpr, hf]
  all_goals simp

/-- No statement rule fails with a cycle when the walk below does not. -/
theorem neverCyclic_lowerStmt (s : Stmt) : NeverCyclic (p.lowerStmt w s) := by
  have hx := hw.expr
  have he := hw.emit
  have ht := neverCyclic_testOf (p := p) hw
  have hv := neverCyclic_valueOf (p := p) hw
  have hs : ∀ items : List NodeId, NeverCyclic (items.forM w.emit) := fun _ => neverCyclic_forM he
  have hd : ∀ syms : List SymbolId, NeverCyclic (p.lowerDeclarations syms) := fun _ =>
    neverCyclic_forM fun _ => by mvcgen [write_spec, instr_spec]
  have hsp : ∀ ps : List Symbol, NeverCyclic (ps.forM fun s => do
      instr (.alloca (s.name ++ ".addr") s.ty)
      instr (.store s.ty (.arg s.name) (.slot (s.name ++ ".addr")))) :=
    fun _ => neverCyclic_forM fun _ => by mvcgen [instr_spec]
  cases s <;> mvcgen [Program.lowerStmt, Program.lowerChoice, Program.lowerWhile, Program.lowerDo, Program.lowerFor,
    Program.lowerReturn, Program.handOver, Program.lowerPrototype, Program.lowerDefinition, Program.exprType, inScope,
    Runs.discard_eq, temp, fresh_spec, instr_spec, write_spec, writeBlank_spec, banner_spec, newLabel_spec,
    placeLabel_spec, openScope_spec, closeScope_spec, branch_spec, jump_spec, terminate_spec, freeAll_spec,
    freeOwned_spec, useRuntime_spec, flushConstants_spec, declareRuntime_spec, hx, he, ht, hv, hs, hd, hsp]
  all_goals simp

/-- Emitting a node never fails with a cycle when the walk below does not. -/
theorem neverCyclic_emitNode (id : NodeId) : NeverCyclic (p.emitNode w id) := by
  have hs := neverCyclic_lowerStmt (p := p) hw
  have hf := neverCyclic_lowerForm (p := p) hw id
  mvcgen [Program.emitNode, Runs.discard_eq, hs, hf]
  all_goals simp

end Rules

/-- A walk over the idle walk never fails with a cycle, at any depth. -/
theorem neverCyclic_walkFrom_idle (n : Nat) : (p.walkFrom Walk.idle n).NeverCyclic := by
  induction n with
  | zero => exact ⟨fun id => by mvcgen [walkFrom, Walk.idle], fun id => by mvcgen [walkFrom, Walk.idle]⟩
  | succ n ih => exact ⟨neverCyclic_emitNode ih, neverCyclic_lowerExpr ih⟩

/-- A walk deep enough for every chain of references from a node never runs out on it. -/
theorem Bounded.neverCyclic {k : Nat} {id : NodeId} (h : p.Bounded k id) :
    NeverCyclic ((p.walk k).emit id) ∧ NeverCyclic ((p.walk k).expr id) := by
  rw [walk_eq_walkFrom, (h.walkFrom_congr stuck Walk.idle).1, (h.walkFrom_congr stuck Walk.idle).2]
  exact ⟨(neverCyclic_walkFrom_idle k).emit id, (neverCyclic_walkFrom_idle k).expr id⟩

/-- Lowering a node of a tree without reference cycles ends, with a result or with an error that is not a cycle, and
as every deeper walk ends: the recursion through the rules goes down the chains of references from the node, each of
which passes through at most one node more than the tree has. -/
theorem emit_terminates (hp : p.Acyclic) (id : NodeId) :
    p.Bounded (p.ast.size + 1) id ∧ (∀ n, p.ast.size < n → (p.walk n).emit id = p.emit id) ∧
      ∀ g c, ((p.emit id).run.run g).1 ≠ .error (.cyclic c) := by
  have hb := hp.bounded id
  refine ⟨hb, fun n hn => (walk_stable hb hn).1, fun g c => ?_⟩
  exact NeverCyclic.run hb.neverCyclic.1 g c

/-- A ranking of the nodes that drops along every reference rules out reference cycles. -/
theorem acyclic_of_rank (r : NodeId → Nat) (hr : ∀ id n c, p.ast.get? id = some n → c ∈ n.children → r c < r id) :
    p.Acyclic := by
  have hle : ∀ {a b}, p.Reaches a b → r b ≤ r a := by
    intro a b h
    induction h with
    | refl => exact Nat.le_refl _
    | child hn hc _ ih => exact Nat.le_of_lt (Nat.lt_of_le_of_lt ih (hr _ _ _ hn hc))
  intro id n c hn hc hreach
  exact Nat.lt_irrefl _ (Nat.lt_of_lt_of_le (hr id n c hn hc) (hle hreach))

/-- A unit whose first node refers forward: it evaluates the integer literal built after it. -/
def forwardUnit : Program where
  ast := { nodes := #[.stmt (.eval 1), .expr (.int 5) (some .int)] }

/-- The unit has no cycle, though its reference names a later node: the rank `1 - id` falls along it. -/
theorem forwardUnit_acyclic : forwardUnit.Acyclic := by
  refine acyclic_of_rank (fun id => 1 - id) fun id n c hn hc => ?_
  rcases id with _ | _ | id
  · simp [forwardUnit, Ast.get?] at hn
    subst hn
    simp only [Node.children, List.mem_singleton] at hc
    subst hc
    decide
  · simp [forwardUnit, Ast.get?] at hn
    subst hn
    simp [Node.children] at hc
  · simp [forwardUnit, Ast.get?] at hn

/-- The unit that refers forward lowers its first node to an end. -/
theorem forwardUnit_terminates : forwardUnit.Acyclic ∧
    forwardUnit.Bounded (forwardUnit.ast.size + 1) 0 ∧
    (∀ n, forwardUnit.ast.size < n → (forwardUnit.walk n).emit 0 = forwardUnit.emit 0) ∧
    ∀ g c, ((forwardUnit.emit 0).run.run g).1 ≠ .error (.cyclic c) :=
  ⟨forwardUnit_acyclic, emit_terminates forwardUnit_acyclic 0⟩

end Program

end Lowering
