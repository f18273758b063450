import Lowering.Proofs.OwnedCode

/-!
# Each lowering rule keeps string ownership

One lemma per rule, as for typing: given that lowering the expressions and the nodes a rule refers to keeps string
ownership, the rule does too. Ownership relates the strings a rule starts with to those at each label it places, so
it too is carried rule by rule. An expression makes strings only in the current block and frees none. A construct
opens a string scope around each condition, arm and loop body, which frees the strings made inside when it closes,
so that each label of the construct is placed, and each jump to it taken, owning what the construct owned when its
labels were made. A return frees every string the function owns but the one it hands over.
-/

namespace Lowering

open Ir Generator

namespace Program

variable {p : Program} {w : Walk} {g g' : Generator}

/-- What lowering an expression node does: from a generator with the invariant, a run that keeps ownership, writes
no function and jumps nowhere. -/
def ExprOwned (p : Program) (_ : NodeId) (g : Generator) (_ : Value) (g' : Generator) : Prop :=
  g.Owning → ∃ M, p.Owned True [] M g g'

/-- What emitting a node does: from a generator with the invariant, a run that keeps ownership and, when the node
reaches only local nodes, leaves no jump to a label it does not place. -/
def EmitOwned (p : Program) (id : NodeId) (g g' : Generator) : Prop :=
  g.Owning → ∃ M, p.Owned (p.Within p.Local id) [] M g g'

/-! ## Expressions -/

section Expressions

variable (hx : ∀ {id g v g'}, Runs (w.expr id) g v g' → p.ExprOwned id g v g')
include hx

/-- Lowering an expression as an operand keeps ownership; a truth value is widened into a fresh register, which owns
nothing. -/
theorem owned_valueOf {id : NodeId} {v : Value} (h : Runs (p.valueOf w id) g v g') (hT : g.Owning) :
    ∃ M, p.Owned True [] M g g' := by
  obtain ⟨v₁, g₁, hv, h⟩ := runs_valueOf h
  obtain ⟨M₁, h₁⟩ := hx hv hT
  split at h
  · obtain ⟨rfl, rfl⟩ := h
    exact ⟨_, h₁.trans (owned_define g₁ (.widen (g₁.nextReg "tmp") v₁) "tmp" h₁.owning rfl rfl rfl)⟩
  · obtain ⟨rfl, rfl⟩ := h
    exact ⟨M₁, h₁⟩

/-- Lowering a condition keeps ownership; an integer is compared with zero. -/
theorem owned_testOf {id : NodeId} {v : Value} (h : Runs (p.testOf w id) g v g') (hT : g.Owning) :
    ∃ M, p.Owned True [] M g g' := by
  obtain ⟨t, -, ⟨-, he⟩ | ⟨-, -, v₁, g₁, hv, rfl, rfl⟩⟩ := runs_testOf h
  · exact hx he hT
  · obtain ⟨M₁, h₁⟩ := owned_valueOf hx hv hT
    exact ⟨_, h₁.trans (owned_define g₁ (.icmp (g₁.nextReg "tmp") .ne v₁ (.int 0)) "tmp" h₁.owning rfl rfl rfl)⟩

/-- Lowering the arguments of a call keeps ownership, one argument after another. -/
theorem owned_arguments {callee : String} {i : Nat} {args : List (NodeId × SymbolId)} {vs : List (Ty × Value)}
    (h : Runs (p.arguments w callee i args) g vs g') (hT : g.Owning) : ∃ M, p.Owned True [] M g g' := by
  induction args generalizing i g vs with
  | nil =>
    obtain ⟨rfl, rfl⟩ := runs_arguments_nil.mp h
    exact ⟨[], .refl hT⟩
  | cons a args ih =>
    obtain ⟨a, s⟩ := a
    obtain ⟨-, v, g₁, vs', hv, hrest, rfl⟩ := runs_arguments_cons h
    obtain ⟨M₁, h₁⟩ := owned_valueOf hx hv hT
    obtain ⟨M₂, h₂⟩ := ih hrest h₁.owning
    exact ⟨_, h₁.trans h₂⟩

/-- An expression lowered by its form makes its value in a fresh register; the strings it makes are a join of two
strings and a string a call returns, which the function then owns. -/
theorem owned_lowerForm {id : NodeId} {e : Expr} {v : Value} (h : Runs (p.lowerForm w id e) g v g') (hT : g.Owning) :
    ∃ M, p.Owned True [] M g g' := by
  cases e with
  | read s =>
    obtain ⟨rfl, rfl⟩ := runs_lowerForm_read h
    let i := Instr.load (g.nextReg (p.symbols.symbol s).name) (p.symbols.symbol s).ty (p.addressOf g.spilled s)
    have h₁ : p.Owned True [] _ g _ := owned_define g i _ hT rfl rfl rfl
    exact ⟨_, h₁.trans (owned_withValue _ id _ h₁.owning)⟩
  | int n =>
    obtain ⟨rfl, rfl⟩ := runs_lowerForm_int h
    exact ⟨_, owned_withValue g id _ hT⟩
  | str raw =>
    obtain ⟨rfl, rfl⟩ := runs_lowerForm_str h
    let i := Instr.literal (g.nextReg "str") ((Literal.decode raw).length + 1)
    have h₁ : p.Owned True [] _ g _ := owned_define g i "str" hT rfl rfl rfl
    have h₂ := h₁.trans (owned_withConstant _ (g.nextReg "str") (Literal.decode raw) h₁.owning)
    exact ⟨_, h₂.trans (owned_withValue _ id _ h₂.owning)⟩
  | neg x =>
    obtain ⟨-, v₁, g₁, hv, rfl, rfl⟩ := runs_lowerForm_neg h
    obtain ⟨M₁, h₁⟩ := owned_valueOf hx hv hT
    have h₂ := h₁.trans (owned_define g₁ (.arith (g₁.nextReg "tmp") .sub (.int 0) v₁) "tmp" h₁.owning rfl rfl rfl)
    exact ⟨_, h₂.trans (owned_withValue _ id _ h₂.owning)⟩
  | arith op l r =>
    obtain ⟨t, -, -, vl, g₁, vr, g₂, hvl, hvr, rfl, hform⟩ := runs_lowerForm_arith h
    obtain ⟨M₁, h₁⟩ := owned_valueOf hx hvl hT
    obtain ⟨M₂, h₂⟩ := owned_valueOf hx hvr h₁.owning
    have h₁₂ := h₁.trans h₂
    rcases hform with ⟨-, rfl⟩ | ⟨-, -, rfl⟩
    · have h₃ := h₁₂.trans (owned_define g₂ (.arith (g₂.nextReg "tmp") op vl vr) "tmp" h₂.owning rfl rfl rfl)
      exact ⟨_, h₃.trans (owned_withValue _ id _ h₃.owning)⟩
    · -- the join is owned by the function; that the runtime is called changes nothing here
      have h₃ := h₁₂.trans (owned_own g₂ (.concat (g₂.nextReg "tmp") vl vr) "tmp" h₂.owning rfl rfl)
      have h₄ := h₃.trans (owned_withRuntime _ h₃.owning)
      exact ⟨_, h₄.trans (owned_withValue _ id _ h₄.owning)⟩
  | cmp op l r =>
    obtain ⟨t, -, -, vl, g₁, vr, g₂, hvl, hvr, rfl, hform⟩ := runs_lowerForm_cmp h
    obtain ⟨M₁, h₁⟩ := owned_valueOf hx hvl hT
    obtain ⟨M₂, h₂⟩ := owned_valueOf hx hvr h₁.owning
    have h₁₂ := h₁.trans h₂
    rcases hform with ⟨-, rfl⟩ | ⟨-, -, rfl⟩
    · have h₃ := h₁₂.trans (owned_define g₂ (.icmp (g₂.nextReg "tmp") op vl vr) "tmp" h₂.owning rfl rfl rfl)
      exact ⟨_, h₃.trans (owned_withValue _ id _ h₃.owning)⟩
    · have h₃ := h₁₂.trans
        (owned_define g₂ (.strTest (g₂.nextReg "tmp") (decide (op = .eq)) vl vr) "tmp" h₂.owning rfl rfl rfl)
      have h₄ := h₃.trans (owned_withRuntime _ h₃.owning)
      exact ⟨_, h₄.trans (owned_withValue _ id _ h₄.owning)⟩
  | assign s x =>
    obtain ⟨-, g₁, hv, rfl⟩ := runs_lowerForm_assign h
    obtain ⟨M₁, h₁⟩ := owned_valueOf hx hv hT
    have h₂ := h₁.trans (owned_withInstr g₁ (.store (p.symbols.symbol s).ty v (p.addressOf g₁.spilled s)) h₁.owning rfl
      rfl fun _ => by simp)
    exact ⟨_, h₂.trans (owned_withValue _ id _ h₂.owning)⟩
  | call f args =>
    obtain ⟨-, vs, g₁, hvs, rfl, hform⟩ := runs_lowerForm_call h
    obtain ⟨M₁, h₁⟩ := owned_arguments hx hvs hT
    let i := Instr.call (g₁.nextReg "tmp") (p.symbols.signature f).result (p.symbols.signature f).name vs
    rcases hform with ⟨hr, rfl⟩ | ⟨hr, rfl⟩
    · have h₂ := h₁.trans (owned_define g₁ i "tmp" h₁.owning rfl rfl (by simp [i, Instr.owns?, hr]))
      exact ⟨_, h₂.trans (owned_withValue _ id _ h₂.owning)⟩
    · have h₂ := h₁.trans (owned_own g₁ i "tmp" h₁.owning rfl (by simp [i, Instr.owns?, hr]))
      exact ⟨_, h₂.trans (owned_withValue _ id _ h₂.owning)⟩

/-- Lowering an expression node keeps ownership; an operand recorded is read back as it is. -/
theorem owned_lowerExpr {id : NodeId} {v : Value} (h : Runs (p.lowerExpr w id) g v g') : p.ExprOwned id g v g' := by
  intro hT
  rcases runs_lowerExpr h with ⟨-, rfl⟩ | ⟨-, e, t, -, hf⟩
  · exact ⟨[], .refl hT⟩
  · exact owned_lowerForm hx hf hT

end Expressions

/-! ## Labels and scopes -/

section Glue

variable {L L' : Prop} {X M : List (Label × List Reg)} {g₁ : Generator}

/-- The start of a construct, its banner and its labels, keeps the strings owned. -/
theorem owned_constructStart (c : Construct) (n : Nat) (hT : g.Owning) :
    p.Owned L X [] g ((g.withBanner c).withLabels n) :=
  let h₁ := owned_withBanner g c hT
  h₁.trans (owned_withLabels _ n h₁.owning)

/-- A condition, an arm or a loop body in a string scope. -/
theorem owned_scope (h : p.Owned L' [] M g.withScope g₁) (hL : L → L') : p.Owned L X M g g₁.withoutScope :=
  (h.mono hL fun _ _ hx => absurd hx List.not_mem_nil).inScope.1

/-- In a body, the generator owns again, once a scope closes, what it owned when the scope opened. -/
theorem owned_after_scope {O : List Reg} (h : p.Owned L' [] M g.withScope g₁) (hL : L → L') (hO : L → g.owned = O) :
    L → g₁.withoutScope.owned = O :=
  fun hl => (h.inScope.2 (hL hl)).trans (hO hl)

/-- Falling through to a label that owns O, then placing the next label, which owns O too. -/
theorem owned_jumpLabel (O : List Reg) (l l' : Label) (hT : g.Owning) (hO : L → g.owned = O) (hX : L → (l, O) ∈ X) :
    p.Owned L X [(l', O)] g ((g.withJump l).withLabel l') := by
  have h₁ : p.Owned L X [] g (g.withJump l) :=
    (owned_withJump g l hT).mono id fun hl x hx => by
      rw [List.mem_singleton.mp hx, hO hl]
      exact hX hl
  exact (h₁.trans (owned_withLabel _ l' h₁.owning (BlocksAux.withJump_closed g l))).relabel fun hl => by simp [hO hl]

/-- Branching to two labels that own O, then placing one of them. -/
theorem owned_branchLabel (O : List Reg) (v : Value) (l₁ l₂ l : Label) (hT : g.Owning) (hO : L → g.owned = O)
    (hX : L → (l₁, O) ∈ X ∧ (l₂, O) ∈ X) :
    p.Owned L X (g.reopen ++ [(l, O)]) g ((g.withTerminator (.branch v l₁ l₂)).withLabel l) := by
  have h₁ : p.Owned L X g.reopen g (g.withTerminator (.branch v l₁ l₂)) :=
    (owned_branch g v l₁ l₂ hT).mono id fun hl x hx => by
      simp only [List.mem_cons, List.not_mem_nil, or_false] at hx
      rcases hx with rfl | rfl
      · rw [hO hl]; exact (hX hl).1
      · rw [hO hl]; exact (hX hl).2
  exact (h₁.trans (owned_withLabel _ l h₁.owning rfl)).relabel fun hl => by simp [hO hl]

end Glue

/-! ## Constructs -/

section Constructs

variable (hx : ∀ {id g v g'}, Runs (w.expr id) g v g' → p.ExprOwned id g v g')
  (he : ∀ {id g g'}, Runs (w.emit id) g () g' → p.EmitOwned id g g')

include hx he in
/-- A choice keeps ownership: the condition and each arm run in a scope of their own, so each of the three labels is
placed, and each jump to one taken, owning what the choice started with. -/
theorem owned_lowerChoice {id c t : NodeId} {e : Option NodeId} (hn : p.ast.get? id = some (.stmt (.ite c t e)))
    (h : Runs (p.lowerChoice w c t e) g () g') : p.EmitOwned id g g' := by
  intro hT
  obtain ⟨v, g₁, g₂, g₃, hc, ht, hel, rfl⟩ := runs_lowerChoice h
  -- each label of the choice is placed, and each jump to one taken, owning what the choice started with
  let X : List (Label × List Reg) := [(⟨g.labels⟩, g.owned), (⟨g.labels + 1⟩, g.owned), (⟨g.labels + 2⟩, g.owned)]
  have hsub : ∀ {c'}, c' ∈ (Node.stmt (.ite c t e)).children → p.Within p.Local id → p.Within p.Local c' :=
    fun hc' hl => hl.child hn hc'
  have h₀ : p.Owned (p.Within p.Local id) X [] g _ := owned_constructStart .choice 3 hT
  have ho₀ : p.Within p.Local id → ((g.withBanner .choice).withLabels 3).owned = g.owned := fun _ => by simp
  obtain ⟨Mc, hc₁⟩ := owned_testOf hx hc h₀.owning.withScope
  have h₁ := h₀.trans (owned_scope hc₁ fun _ => trivial)
  have h₂ := h₁.trans (owned_branchLabel g.owned v ⟨g.labels⟩ ⟨g.labels + 1⟩ ⟨g.labels⟩ h₁.owning
    (owned_after_scope hc₁ (fun _ => trivial) ho₀) fun _ => by simp [X])
  obtain ⟨Mt, ht₁⟩ := he ht h₂.owning.withScope
  have ho₃ : p.Within p.Local id → g₂.withoutScope.owned = g.owned := owned_after_scope ht₁
    (hsub (by simp [Node.children])) fun hl => by simp [owned_after_scope hc₁ (fun _ => trivial) ho₀ hl]
  have h₃ := h₂.trans (owned_scope ht₁ (hsub (by simp [Node.children])))
  have h₄ := h₃.trans (owned_jumpLabel g.owned ⟨g.labels + 2⟩ ⟨g.labels + 1⟩ h₃.owning ho₃ fun _ => by simp [X])
  obtain ⟨Me, h₅, ho₅⟩ : ∃ Me, p.Owned (p.Within p.Local id) X Me ((g₂.withoutScope.withJump ⟨g.labels + 2⟩).withLabel
      ⟨g.labels + 1⟩) g₃ ∧ (p.Within p.Local id → g₃.owned = g.owned) := by
    cases e with
    | none =>
      subst hel
      exact ⟨[], .refl h₄.owning, fun hl => by simp [ho₃ hl]⟩
    | some e =>
      obtain ⟨g₄, hr, rfl⟩ := hel
      obtain ⟨Me, he₁⟩ := he hr h₄.owning.withScope
      exact ⟨Me, owned_scope he₁ (hsub (by simp [Node.children])),
        owned_after_scope he₁ (hsub (by simp [Node.children])) fun hl => by simp [ho₃ hl]⟩
  have h₆ := (h₄.trans h₅).trans (owned_jumpLabel g.owned ⟨g.labels + 2⟩ ⟨g.labels + 2⟩ h₅.owning ho₅
    fun _ => by simp [X])
  exact ⟨_, h₆.close fun _ x hx => by
    simp only [X, List.mem_cons, List.not_mem_nil, or_false] at hx
    rcases hx with rfl | rfl | rfl <;> simp⟩

include hx he in
/-- A while loop keeps ownership: the test and the body run in scopes of their own, so the test's label is reached,
from before the loop and from the end of the body, owning what the loop started with. -/
theorem owned_lowerWhile {id c b : NodeId} (hn : p.ast.get? id = some (.stmt (.whileLoop c b)))
    (h : Runs (p.lowerWhile w c b) g () g') : p.EmitOwned id g g' := by
  intro hT
  obtain ⟨v, g₁, g₂, hc, hb, rfl⟩ := runs_lowerWhile h
  let X : List (Label × List Reg) := [(⟨g.labels⟩, g.owned), (⟨g.labels + 1⟩, g.owned), (⟨g.labels + 2⟩, g.owned)]
  have h₀ : p.Owned (p.Within p.Local id) X [] g _ := owned_constructStart .whileLoop 3 hT
  have h₁ := h₀.trans (owned_jumpLabel g.owned ⟨g.labels⟩ ⟨g.labels⟩ h₀.owning (fun _ => by simp) fun _ => by simp [X])
  have ho₁ : p.Within p.Local id → (((((g.withBanner .whileLoop).withLabels 3).withJump ⟨g.labels⟩).withLabel
      ⟨g.labels⟩).owned = g.owned) := fun _ => by simp
  obtain ⟨Mc, hc₁⟩ := owned_testOf hx hc h₁.owning.withScope
  have h₂ := h₁.trans (owned_scope hc₁ fun _ => trivial)
  have ho₂ := owned_after_scope hc₁ (fun _ => trivial) ho₁
  have h₃ := h₂.trans (owned_branchLabel g.owned v ⟨g.labels + 1⟩ ⟨g.labels + 2⟩ ⟨g.labels + 1⟩ h₂.owning ho₂ fun _ => by simp [X])
  obtain ⟨Mb, hb₁⟩ := he hb h₃.owning.withScope
  have hl₁ : p.Within p.Local id → p.Within p.Local b := fun hl => hl.child hn (by simp [Node.children])
  have h₄ := h₃.trans (owned_scope hb₁ hl₁)
  have h₅ := h₄.trans (owned_jumpLabel g.owned ⟨g.labels⟩ ⟨g.labels + 2⟩ h₄.owning
    (owned_after_scope hb₁ hl₁ fun hl => by simp [ho₂ hl]) fun _ => by simp [X])
  exact ⟨_, h₅.close fun _ x hx => by
    simp only [X, List.mem_cons, List.not_mem_nil, or_false] at hx
    rcases hx with rfl | rfl | rfl <;> simp⟩

include hx he in
/-- A do loop keeps ownership: the body and the test run in scopes of their own, so the body's label is reached,
from before the loop and by the branch back, owning what the loop started with. -/
theorem owned_lowerDo {id b c : NodeId} (hn : p.ast.get? id = some (.stmt (.doLoop b c)))
    (h : Runs (p.lowerDo w b c) g () g') : p.EmitOwned id g g' := by
  intro hT
  obtain ⟨g₁, v, g₂, hb, hc, rfl⟩ := runs_lowerDo h
  let X : List (Label × List Reg) := [(⟨g.labels⟩, g.owned), (⟨g.labels + 1⟩, g.owned), (⟨g.labels + 2⟩, g.owned)]
  have h₀ : p.Owned (p.Within p.Local id) X [] g _ := owned_constructStart .doLoop 3 hT
  have h₁ := h₀.trans (owned_jumpLabel g.owned ⟨g.labels⟩ ⟨g.labels⟩ h₀.owning (fun _ => by simp) fun _ => by simp [X])
  have ho₁ : p.Within p.Local id → (((((g.withBanner .doLoop).withLabels 3).withJump ⟨g.labels⟩).withLabel
      ⟨g.labels⟩).owned = g.owned) := fun _ => by simp
  obtain ⟨Mb, hb₁⟩ := he hb h₁.owning.withScope
  have hl₁ : p.Within p.Local id → p.Within p.Local b := fun hl => hl.child hn (by simp [Node.children])
  have h₂ := h₁.trans (owned_scope hb₁ hl₁)
  have h₃ := h₂.trans (owned_jumpLabel g.owned ⟨g.labels + 1⟩ ⟨g.labels + 1⟩ h₂.owning
    (owned_after_scope hb₁ hl₁ ho₁) fun _ => by simp [X])
  obtain ⟨Mc, hc₁⟩ := owned_testOf hx hc h₃.owning.withScope
  have h₄ := h₃.trans (owned_scope hc₁ fun _ => trivial)
  have h₅ := h₄.trans (owned_branchLabel g.owned v ⟨g.labels⟩ ⟨g.labels + 2⟩ ⟨g.labels + 2⟩ h₄.owning
    (owned_after_scope hc₁ (fun _ => trivial) fun hl => by simp [owned_after_scope hb₁ hl₁ ho₁ hl])
    fun _ => by simp [X])
  exact ⟨_, h₅.close fun _ x hx => by
    simp only [X, List.mem_cons, List.not_mem_nil, or_false] at hx
    rcases hx with rfl | rfl | rfl <;> simp⟩

include hx he in
/-- A for loop keeps ownership. Its start expression runs in the current block, so the loop's labels own what the
generator owns after it; the test, the body and the step run in scopes of their own. -/
theorem owned_lowerFor {id i c s b : NodeId} (hn : p.ast.get? id = some (.stmt (.forLoop i c s b)))
    (h : Runs (p.lowerFor w i c s b) g () g') : p.EmitOwned id g g' := by
  intro hT
  obtain ⟨vi, g₁, v, g₂, g₃, vs, g₄, hi, hc, hb, hs, rfl⟩ := runs_lowerFor h
  have h₀ : p.Owned (p.Within p.Local id) [] [] g _ := owned_constructStart .forLoop 4 hT
  obtain ⟨Mi, hi₁⟩ := hx hi h₀.owning
  have hi₂ : p.Owned (p.Within p.Local id) [] Mi _ g₁ := hi₁.mono (fun _ => trivial) fun _ _ hx => hx
  let X : List (Label × List Reg) := [(⟨g.labels⟩, g₁.owned), (⟨g.labels + 1⟩, g₁.owned),
    (⟨g.labels + 2⟩, g₁.owned), (⟨g.labels + 3⟩, g₁.owned)]
  have h₁ : p.Owned (p.Within p.Local id) X _ g₁ _ :=
    owned_jumpLabel g₁.owned ⟨g.labels⟩ ⟨g.labels⟩ hi₂.owning (fun _ => rfl) fun _ => by simp [X]
  have ho₁ : p.Within p.Local id → ((g₁.withJump ⟨g.labels⟩).withLabel ⟨g.labels⟩).owned = g₁.owned :=
    fun _ => by simp
  obtain ⟨Mc, hc₁⟩ := owned_testOf hx hc h₁.owning.withScope
  have h₂ := h₁.trans (owned_scope hc₁ fun _ => trivial)
  have ho₂ := owned_after_scope hc₁ (fun _ => trivial) ho₁
  have h₃ := h₂.trans (owned_branchLabel g₁.owned v ⟨g.labels + 1⟩ ⟨g.labels + 3⟩ ⟨g.labels + 1⟩ h₂.owning ho₂ fun _ => by simp [X])
  obtain ⟨Mb, hb₁⟩ := he hb h₃.owning.withScope
  have hl₁ : p.Within p.Local id → p.Within p.Local b := fun hl => hl.child hn (by simp [Node.children])
  have h₄ := h₃.trans (owned_scope hb₁ hl₁)
  have ho₄ : p.Within p.Local id → g₃.withoutScope.owned = g₁.owned :=
    owned_after_scope hb₁ hl₁ fun hl => by simp [ho₂ hl]
  have h₅ := h₄.trans (owned_jumpLabel g₁.owned ⟨g.labels + 2⟩ ⟨g.labels + 2⟩ h₄.owning ho₄ fun _ => by simp [X])
  obtain ⟨Ms, hs₁⟩ := hx hs h₅.owning.withScope
  have h₆ := h₅.trans (owned_scope hs₁ fun _ => trivial)
  have h₇ := h₆.trans (owned_jumpLabel g₁.owned ⟨g.labels⟩ ⟨g.labels + 3⟩ h₆.owning
    (owned_after_scope hs₁ (fun _ => trivial) fun hl => by simp [ho₄ hl]) fun _ => by simp [X])
  exact ⟨_, (h₀.trans hi₂).trans (h₇.close fun _ x hx => by
    simp only [X, List.mem_cons, List.not_mem_nil, or_false] at hx
    rcases hx with rfl | rfl | rfl | rfl <;> simp)⟩

end Constructs

/-! ## Returns, declarations and blocks -/

section Statements

variable (hx : ∀ {id g v g'}, Runs (w.expr id) g v g' → p.ExprOwned id g v g')
include hx

/-- A return hands over the string it returns when the function owns it, and copies it otherwise; it frees every
other string the function owns, each once. -/
theorem owned_lowerReturn {id x : NodeId} (h : Runs (p.lowerReturn w x) g () g') : p.EmitOwned id g g' := by
  intro hT
  obtain ⟨t, v, g₁, v', kept, g₂, -, hv, hh, rfl⟩ := runs_lowerReturn h
  obtain ⟨M₁, h₁⟩ := owned_valueOf hx hv hT
  have h₁ : p.Owned (p.Within p.Local id) [] M₁ g g₁ := h₁.mono (fun _ => trivial) fun _ _ hx => hx
  rcases runs_handOver hh with ⟨rfl, i, hi, he, rfl⟩ | ⟨rfl, -, he, rfl⟩ | ⟨rfl, he, rfl⟩
  · obtain ⟨r, hr, he⟩ : ∃ r, g₂.owned.idxOf? r = some i ∧ (v', kept) = (.reg r, some i) := by
      cases v <;> simp_all [ownedIndex]
    obtain ⟨rfl, rfl⟩ := Prod.mk.inj he
    obtain ⟨hlt, hget, -⟩ := List.idxOf?_eq_some_iff.mp hr
    have ht : p.Owned (p.Within p.Local id) [] _ g₂ _ := owned_return g₂ .string (.reg r) (g₂.owned.eraseIdx i)
      h₁.owning (h₁.owning.nodup.sublist (List.eraseIdx_sublist _ _)) (fun _ h => List.mem_of_mem_eraseIdx h)
      fun c => by rw [OwnedAux.foldl_erase_eraseIdx h₁.owning.nodup hlt, hget]; simp [returnOk]
    exact ⟨_, h₁.trans ht⟩
  · -- any other string is copied first, and every owned one freed
    obtain ⟨rfl, rfl⟩ := Prod.mk.inj he
    have hG : (((g₁.withFresh "tmp").withInstr (.copy (g₁.nextReg "tmp") v)).withRuntime).owned = g₁.owned := by
      simp [withRuntime, withFresh]
    rw [hG]
    exact ⟨_, h₁.trans (owned_copyReturn g₁ v "tmp" h₁.owning)⟩
  · obtain ⟨rfl, rfl⟩ := Prod.mk.inj he
    exact ⟨_, h₁.trans (owned_return g₂ .int _ g₂.owned h₁.owning h₁.owning.nodup (fun _ h => h) fun c => by
      simp [returnOk, OwnedAux.foldl_erase_self h₁.owning.nodup])⟩

omit hx in
/-- Declarations reserve storage: in a function body, all locals, a stack slot each. -/
theorem owned_lowerDeclarations {L : Prop} {X : List (Label × List Reg)} {syms : List SymbolId} (hT : g.Owning)
    (hl : L → ∀ s ∈ syms, (p.symbols.symbol s).flags.external = false ∧ (p.symbols.symbol s).flags.global = false) :
    ∃ M, p.Owned L X M g (syms.foldl (fun g s => g.withDeclaration (p.symbols.symbol s)) g) := by
  induction syms generalizing g with
  | nil => exact ⟨[], .refl hT⟩
  | cons s syms ih =>
    obtain ⟨M₁, h₁⟩ : ∃ M, p.Owned L X M g (g.withDeclaration (p.symbols.symbol s)) := by
      have hs := fun hL => hl hL s List.mem_cons_self
      unfold withDeclaration
      split
      · exact ⟨[], owned_withItem g _ hT (fun hL => by simp_all) (by simp)⟩
      · split
        · exact ⟨[], owned_withItem g _ hT (fun hL => by simp_all) (by simp)⟩
        · exact ⟨_, owned_withInstr g _ hT rfl rfl fun _ => by simp⟩
    obtain ⟨M₂, h₂⟩ := ih h₁.owning fun hL s' hs' => hl hL s' (List.mem_cons_of_mem s hs')
    exact ⟨_, h₁.trans h₂⟩

omit hx in
/-- Declarations keep ownership: they write allocations and top-level items. -/
theorem owned_declare {id : NodeId} {syms : List SymbolId} {u : Unit} (hn : p.ast.get? id = some (.stmt (.declare syms)))
    (h : Runs (p.lowerDeclarations syms) g u g') : p.EmitOwned id g g' := by
  intro hT
  rw [runs_lowerDeclarations h]
  exact owned_lowerDeclarations hT fun hl => hl.node hn

/-- An expression statement keeps ownership. -/
theorem owned_eval {id e : NodeId} {u : Unit} (h : Runs (discard (w.expr e)) g u g') : p.EmitOwned id g g' := by
  intro hT
  obtain ⟨v, hv⟩ := Runs.discard_iff.mp h
  obtain ⟨M, h₁⟩ := hx hv hT
  exact ⟨M, h₁.mono (fun _ => trivial) fun _ _ hx => hx⟩

omit hx in
/-- A block lowers its items in order. -/
theorem owned_block (he : ∀ {id g g'}, Runs (w.emit id) g () g' → p.EmitOwned id g g') {id : NodeId}
    {items : List NodeId} {u : Unit} (hn : p.ast.get? id = some (.stmt (.block items))) (h : Runs (items.forM w.emit) g u g') :
    p.EmitOwned id g g' := by
  intro hT
  -- by induction over the items still to lower
  have key : ∀ (rest : List NodeId) (g g' : Generator), (∀ c ∈ rest, c ∈ items) → Runs (rest.forM w.emit) g () g' →
      g.Owning → ∃ M, p.Owned (p.Within p.Local id) [] M g g' := by
    intro rest
    induction rest with
    | nil =>
      intro g g' _ h hT
      obtain rfl := Runs.forM_nil.mp h
      exact ⟨[], .refl hT⟩
    | cons c rest ih =>
      intro g g' hsub h hT
      obtain ⟨g₁, h₁, h₂⟩ := Runs.forM_cons.mp h
      obtain ⟨M₁, t₁⟩ := he h₁ hT
      have t₁ : p.Owned (p.Within p.Local id) [] M₁ g g₁ :=
        t₁.mono (fun hl => hl.child hn (hsub c List.mem_cons_self)) fun _ _ hx => hx
      obtain ⟨M₂, t₂⟩ := ih g₁ g' (fun c' hc' => hsub c' (List.mem_cons_of_mem c hc')) h₂ t₁.owning
      exact ⟨_, t₁.trans t₂⟩
  exact key items g g' (fun _ h => h) h hT

omit hx in
/-- A prototype, one line outside any function body, keeps the strings owned. -/
theorem owned_prototype {id : NodeId} {f : FunctionId} {u : Unit} (hn : p.ast.get? id = some (.stmt (.prototype f)))
    (h : Runs (p.lowerPrototype f) g u g') : p.EmitOwned id g g' := by
  intro hT
  rw [runs_lowerPrototype h]
  exact ⟨[], owned_withItem g _ hT (fun hl => hl.node hn) (by simp)⟩

end Statements

end Program

end Lowering
