import Lowering.Proofs.TypedCode

/-!
# Each lowering rule is a typed run

One lemma per rule, over the parts the rule is made of: given that lowering the expressions a rule refers to is a
typed run leaving an operand of the type of the expression's value, the rule is a typed run too. A typed run relates
the generator a rule starts from to the one it leaves and to the operand it gives, so it is carried rule by rule, not
move by move as the invariants of `Program.walk_keeps_of_moves` are. Operand types rest
on the tree recording the type its parts give each expression (`Program.TypesRecorded`): a variable read has the
variable's type, an arithmetic node the type of its operands, a comparison is an integer whose value is a truth
value, a call has the callee's result type.
-/

namespace Lowering

open Ir Generator

namespace Program

variable {p : Program} {w : Walk} {g g' : Generator}

/-- What lowering an expression node does: from a generator with the invariant, a typed run of body code that stores
only variables the node refers to and returns nothing, leaving an operand of the type of the node's value. -/
def ExprTyped (p : Program) (id : NodeId) (g : Generator) (v : Value) (g' : Generator) : Prop :=
  p.Typing g → p.Typed True (p.VarOf id) (fun _ => False) g g' ∧ p.OperandTyped (defs g'.mark.code) id v

/-- What a reference of a node refers to, the node refers to. -/
theorem VarOf.child {id c : NodeId} {n : Node} {s : SymbolId} (hn : p.ast.get? id = some n) (hc : c ∈ n.children)
    (h : p.VarOf c s) : p.VarOf id s := by
  obtain ⟨d, n', hr, hd, hs⟩ := h
  exact ⟨d, n', .child hn hc hr, hd, hs⟩

/-- A node refers to the variables it reads or assigns. -/
theorem VarOf.self {id : NodeId} {n : Node} {s : SymbolId} (hn : p.ast.get? id = some n) (hs : s ∈ n.vars) :
    p.VarOf id s :=
  ⟨id, n, .refl id, hn, hs⟩

/-- A comparison is an integer expression. -/
theorem comparison_int (hty : p.TypesRecorded) {id : NodeId} {t : Ty} (hc : p.isComparison id = true)
    (ht : p.ast.ty? id = some t) : t = .int := by
  unfold isComparison at hc
  split at hc
  · rename_i e₀ op l r ty hn
    simp only [Ast.ty?, hn, Option.bind_some, Node.ty] at ht
    subst ht
    simpa [Ast.typeOf] using (hty id _ t hn).symm
  · cases hc

/-- The register an instruction defines is in the code once the instruction is written. -/
theorem mem_defs_define (g : Generator) (i : Instr) (b : String) {τ : IrTy} (hi : i.def? = some (g.nextReg b, τ)) :
    (g.nextReg b, τ) ∈ defs ((g.withFresh b).withInstr i).mark.code := by
  rw [code_withInstr, mark_withFresh, defs_append]
  exact List.mem_append_right _ (by split <;> simp [hi])

/-- Recording the operand of an expression node, of the type of the node's value, ends a typed run. -/
theorem typed_remember {L : Prop} {S : SymbolId → Prop} {R : Ty → Prop} {g₁ : Generator} {id : NodeId} {v : Value}
    (h : p.Typed L S R g g₁) (hv : p.OperandTyped (defs g₁.mark.code) id v) :
    p.Typed L S R g (g₁.withValue id v) ∧ p.OperandTyped (defs (g₁.withValue id v).mark.code) id v :=
  ⟨h.trans (typed_withValue g₁ h.typing hv), hv⟩

/-- An operand of an IR type that the type the node's form gives determines has the type of the node's value. -/
theorem operandTyped_of_form (hty : p.TypesRecorded) {id : NodeId} {e : Expr} {ty : Option Ty} {Γ : List (Reg × IrTy)}
    {v : Value} {τ : IrTy} (hn : p.ast.get? id = some (.expr e ty))
    (hτ : ∀ t, p.ast.typeOf p.symbols e = some t → p.valueTy id t = τ) (hv : ValueTyped Γ [] v τ) :
    p.OperandTyped Γ id v := by
  intro t ht
  simp only [Ast.ty?, hn, Option.bind_some, Node.ty] at ht
  subst ht
  rw [hτ t (hty id e t hn)]
  exact hv

section Expressions

variable (hty : p.TypesRecorded) (hx : ∀ {id g v g'}, Runs (w.expr id) g v g' → p.ExprTyped id g v g')
include hty hx

/-- A value as an integer or a string has the IR type of its source type. -/
theorem typed_valueOf {id : NodeId} {t : Ty} {v : Value} (ht : p.ast.ty? id = some t)
    (h : Runs (p.valueOf w id) g v g') (hT : p.Typing g) :
    p.Typed True (p.VarOf id) (fun _ => False) g g' ∧ ValueTyped (defs g'.mark.code) [] v t.irTy := by
  obtain ⟨v₁, g₁, hv, h⟩ := runs_valueOf h
  obtain ⟨h₁, hv₁⟩ := hx hv hT
  by_cases hc : p.isComparison id
  · simp only [hc, if_true] at h
    obtain ⟨rfl, rfl⟩ := h
    let i := Instr.widen (g₁.nextReg "tmp") v₁
    refine ⟨h₁.trans (typed_define g₁ i "tmp" h₁.typing rfl (by simpa [i, Instr.uses, valueTy, hc] using hv₁ t ht)
      trivial), ?_⟩
    rw [comparison_int hty hc ht]
    exact mem_defs_define g₁ i "tmp" rfl
  · simp only [hc, Bool.false_eq_true, if_false] at h
    obtain ⟨rfl, rfl⟩ := h
    exact ⟨h₁, by simpa [valueTy, hc] using hv₁ t ht⟩

/-- A branch condition is a truth value. -/
theorem typed_testOf {id : NodeId} {v : Value} (h : Runs (p.testOf w id) g v g') (hT : p.Typing g) :
    p.Typed True (p.VarOf id) (fun _ => False) g g' ∧ ValueTyped (defs g'.mark.code) [] v .i1 := by
  obtain ⟨t, ht, ⟨hc, he⟩ | ⟨hc, rfl, v₁, g₁, hv, rfl, rfl⟩⟩ := runs_testOf h
  · obtain ⟨h₁, hv⟩ := hx he hT
    exact ⟨h₁, by simpa [valueTy, hc] using hv t ht⟩
  · obtain ⟨h₁, hv₁⟩ := typed_valueOf hty hx ht hv hT
    have h₂ : p.Typed True (p.VarOf id) (fun _ => False) g₁ _ :=
      typed_define g₁ (.icmp (g₁.nextReg "tmp") .ne v₁ (.int 0)) "tmp" h₁.typing rfl
      (by simpa [Instr.uses, ValueTyped] using hv₁) trivial
    refine ⟨h₁.trans h₂, ?_⟩
    show (g₁.nextReg "tmp", IrTy.i1) ∈ _
    rw [code_withInstr, mark_withFresh, defs_append]
    exact List.mem_append_right _ (by split <;> simp [Instr.def?])

/-- The arguments of a call are lowered left to right, each of its parameter's type. -/
theorem typed_arguments {S : SymbolId → Prop} {callee : String} {i : Nat} {args : List (NodeId × SymbolId)}
    {vs : List (Ty × Value)} (h : Runs (p.arguments w callee i args) g vs g') (hT : p.Typing g)
    (hS : ∀ a ∈ args, ∀ s, p.VarOf a.1 s → S s) :
    p.Typed True S (fun _ => False) g g' ∧ vs.map Prod.fst = args.map (fun a => (p.symbols.symbol a.2).ty) ∧
      ∀ tv ∈ vs, ValueTyped (defs g'.mark.code) [] tv.2 tv.1.irTy := by
  induction args generalizing i g vs with
  | nil =>
    obtain ⟨rfl, rfl⟩ := runs_arguments_nil.mp h
    exact ⟨.refl hT, rfl, by simp⟩
  | cons a args ih =>
    obtain ⟨ha, v, g₁, vs', hv, hrest, rfl⟩ := runs_arguments_cons h
    obtain ⟨h₁, hv⟩ := typed_valueOf hty hx ha hv hT
    obtain ⟨h₂, hm, hvs⟩ := ih hrest h₁.typing fun a' ha' => hS a' (List.mem_cons_of_mem a ha')
    refine ⟨(h₁.mono (fun h => h) (hS a List.mem_cons_self) fun _ h => h).trans h₂, by simp [hm], ?_⟩
    intro tv htv
    rcases List.mem_cons.mp htv with rfl | htv
    · exact hv.mono h₂.defs_sub fun _ h => h
    · exact hvs tv htv

/-- Lowering an expression by its form leaves an operand of the type of its value. -/
theorem typed_lowerForm {id : NodeId} {e : Expr} {ty : Option Ty} {v : Value} (hn : p.ast.get? id = some (.expr e ty))
    (h : Runs (p.lowerForm w id e) g v g') (hT : p.Typing g) :
    p.Typed True (p.VarOf id) (fun _ => False) g g' ∧ p.OperandTyped (defs g'.mark.code) id v := by
  have hsub : ∀ c ∈ (Node.expr e ty).children, ∀ s, p.VarOf c s → p.VarOf id s :=
    fun c hc s => VarOf.child hn hc
  cases e with
  | read s =>
    obtain ⟨rfl, rfl⟩ := runs_lowerForm_read h
    let i := Instr.load (g.nextReg (p.symbols.symbol s).name) (p.symbols.symbol s).ty (p.addressOf g.spilled s)
    exact typed_remember (typed_define g i _ hT rfl (by simp [i, Instr.uses]) trivial)
      (operandTyped_of_form hty hn (by simp_all [Ast.typeOf, valueTy, isComparison]) (mem_defs_define g i _ rfl))
  | int n =>
    obtain ⟨rfl, rfl⟩ := runs_lowerForm_int h
    exact typed_remember (.refl hT)
      (operandTyped_of_form hty hn (by simp_all [Ast.typeOf, valueTy, isComparison])
        (show ValueTyped (defs g.mark.code) [] (.int n) .i32 from rfl))
  | str raw =>
    obtain ⟨rfl, rfl⟩ := runs_lowerForm_str h
    let i := Instr.literal (g.nextReg "str") ((Literal.decode raw).length + 1)
    have h₁ : p.Typed True (p.VarOf id) (fun _ => False) g _ := typed_define g i _ hT rfl (by simp [i, Instr.uses]) trivial
    exact typed_remember (h₁.trans (typed_withConstant _ _ _ h₁.typing))
      (operandTyped_of_form hty hn (by simp_all [Ast.typeOf, valueTy, isComparison]) (mem_defs_define g i _ rfl))
  | neg x =>
    obtain ⟨hx', v₁, g₁, hv, rfl, rfl⟩ := runs_lowerForm_neg h
    obtain ⟨h₁, hv₁⟩ := typed_valueOf hty hx hx' hv hT
    let i := Instr.arith (g₁.nextReg "tmp") .sub (.int 0) v₁
    have h₂ : p.Typed True (p.VarOf id) (fun _ => False) g₁ _ :=
      typed_define g₁ i _ h₁.typing rfl (by simpa [i, Instr.uses, ValueTyped] using hv₁) trivial
    exact typed_remember ((h₁.mono (fun h => h) (hsub x (by simp [Node.children])) fun _ h => h).trans h₂)
      (operandTyped_of_form hty hn (by simp_all [Ast.typeOf, valueTy, isComparison]) (mem_defs_define g₁ i _ rfl))
  | arith op l r =>
    obtain ⟨t, hl, hr, vl, g₁, vr, g₂, hvl, hvr, rfl, hform⟩ := runs_lowerForm_arith h
    obtain ⟨h₁, hvl'⟩ := typed_valueOf hty hx hl hvl hT
    obtain ⟨h₂, hvr'⟩ := typed_valueOf hty hx hr hvr h₁.typing
    have h₁₂ : p.Typed True (p.VarOf id) (fun _ => False) g g₂ :=
      (h₁.mono (fun h => h) (hsub l (by simp [Node.children])) fun _ h => h).trans
        (h₂.mono (fun h => h) (hsub r (by simp [Node.children])) fun _ h => h)
    have hvl'' := hvl'.mono h₂.defs_sub fun _ h => h
    have hτ : ∀ t', p.ast.typeOf p.symbols (.arith op l r) = some t' → p.valueTy id t' = t.irTy := by
      simp_all [Ast.typeOf, valueTy, isComparison]
    rcases hform with ⟨rfl, rfl⟩ | ⟨rfl, -, rfl⟩
    · let i := Instr.arith (g₂.nextReg "tmp") op vl vr
      exact typed_remember (h₁₂.trans (typed_define g₂ i _ h₂.typing rfl
          (by simp [i, Instr.uses]; exact ⟨hvl'', hvr'⟩) trivial))
        (operandTyped_of_form hty hn hτ (mem_defs_define g₂ i _ rfl))
    · let i := Instr.concat (g₂.nextReg "tmp") vl vr
      have h₃ : p.Typed True (p.VarOf id) (fun _ => False) g₂ _ :=
        typed_define g₂ i _ h₂.typing rfl (by simp [i, Instr.uses]; exact ⟨hvl'', hvr'⟩) trivial
      have hm := mem_defs_define g₂ i _ rfl
      have h₄ := h₃.trans (typed_withRuntime _ h₃.typing)
      exact typed_remember (h₁₂.trans (h₄.trans (typed_withOwned _ h₄.typing hm)))
        (operandTyped_of_form hty hn hτ hm)
  | cmp op l r =>
    obtain ⟨t, hl, hr, vl, g₁, vr, g₂, hvl, hvr, rfl, hform⟩ := runs_lowerForm_cmp h
    obtain ⟨h₁, hvl'⟩ := typed_valueOf hty hx hl hvl hT
    obtain ⟨h₂, hvr'⟩ := typed_valueOf hty hx hr hvr h₁.typing
    have h₁₂ : p.Typed True (p.VarOf id) (fun _ => False) g g₂ :=
      (h₁.mono (fun h => h) (hsub l (by simp [Node.children])) fun _ h => h).trans
        (h₂.mono (fun h => h) (hsub r (by simp [Node.children])) fun _ h => h)
    have hvl'' := hvl'.mono h₂.defs_sub fun _ h => h
    have hτ : ∀ t', p.ast.typeOf p.symbols (.cmp op l r) = some t' → p.valueTy id t' = .i1 := by
      simp [valueTy, isComparison, hn]
    rcases hform with ⟨rfl, rfl⟩ | ⟨rfl, -, rfl⟩
    · let i := Instr.icmp (g₂.nextReg "tmp") op vl vr
      exact typed_remember (h₁₂.trans (typed_define g₂ i _ h₂.typing rfl
          (by simp [i, Instr.uses]; exact ⟨hvl'', hvr'⟩) trivial))
        (operandTyped_of_form hty hn hτ (mem_defs_define g₂ i _ rfl))
    · let i := Instr.strTest (g₂.nextReg "tmp") (decide (op = .eq)) vl vr
      have h₃ : p.Typed True (p.VarOf id) (fun _ => False) g₂ _ :=
        typed_define g₂ i _ h₂.typing rfl (by simp [i, Instr.uses]; exact ⟨hvl'', hvr'⟩) trivial
      exact typed_remember (h₁₂.trans (h₃.trans (typed_withRuntime _ h₃.typing)))
        (operandTyped_of_form hty hn hτ (mem_defs_define g₂ i _ rfl))
  | assign s x =>
    obtain ⟨hx', g₁, hv, rfl⟩ := runs_lowerForm_assign h
    obtain ⟨h₁, hv₁⟩ := typed_valueOf hty hx hx' hv hT
    let i := Instr.store (p.symbols.symbol s).ty v (p.addressOf g₁.spilled s)
    have h₂ : p.Typed True (p.VarOf id) (fun _ => False) g₁ _ :=
      typed_withInstr g₁ i h₁.typing rfl (by simpa [i, Instr.uses] using hv₁)
        ⟨s, VarOf.self hn (by simp [Node.vars]), rfl, rfl⟩
    exact typed_remember ((h₁.mono (fun h => h) (hsub x (by simp [Node.children])) fun _ h => h).trans h₂)
      (operandTyped_of_form hty hn (by simp_all [Ast.typeOf, valueTy, isComparison])
        (hv₁.mono h₂.defs_sub fun _ h => h))
  | call f args =>
    obtain ⟨hlen, vs, g₁, hvs, rfl, hform⟩ := runs_lowerForm_call h
    obtain ⟨h₁, hm, hvs'⟩ := typed_arguments hty hx hvs hT
      (fun a ha s hs => hsub a.1 (by simpa [Node.children] using (List.of_mem_zip ha).1) s hs)
    let i := Instr.call (g₁.nextReg "tmp") (p.symbols.signature f).result (p.symbols.signature f).name vs
    have hok : p.InstrFrom g₁.spilled (p.VarOf id) (fun _ => False) i := by
      refine ⟨f, rfl, rfl, ?_⟩
      calc vs.map Prod.fst
          = (args.zip (p.symbols.signature f).params).map (fun a => (p.symbols.symbol a.2).ty) := hm
        _ = ((args.zip (p.symbols.signature f).params).map Prod.snd).map (fun s => (p.symbols.symbol s).ty) := by
          rw [List.map_map]; rfl
        _ = (p.symbols.signature f).params.map fun s => (p.symbols.symbol s).ty := by
          rw [List.map_snd_zip (Nat.le_of_eq hlen.symm)]
    have h₂ : p.Typed True (p.VarOf id) (fun _ => False) g₁ _ :=
      typed_define g₁ i _ h₁.typing rfl (fun u hu => by
        obtain ⟨⟨t, v⟩, htv, rfl⟩ := List.mem_map.mp hu
        exact hvs' _ htv) hok
    have hmem := mem_defs_define g₁ i _ rfl
    have hv := operandTyped_of_form hty hn (by simp_all [Ast.typeOf, valueTy, isComparison])
      (show ValueTyped _ [] (.reg (g₁.nextReg "tmp")) _ from hmem)
    rcases hform with ⟨-, rfl⟩ | ⟨hs, rfl⟩
    · exact typed_remember (h₁.trans h₂) hv
    · have h₃ := h₂.trans (typed_withOwned _ h₂.typing (by simpa [i, hs] using hmem))
      exact typed_remember (h₁.trans h₃) hv

/-- An expression node already lowered gives its recorded operand, which has the type of its value. -/
theorem typed_lowerExpr {id : NodeId} {v : Value} (h : Runs (p.lowerExpr w id) g v g') : p.ExprTyped id g v g' := by
  intro hT
  rcases runs_lowerExpr h with ⟨hv, rfl⟩ | ⟨-, e, t, hn, hf⟩
  · exact ⟨.refl hT, hT.values id v hv⟩
  · exact typed_lowerForm hty hx hn hf hT

end Expressions

/-! ## Instructions -/

/-- The code a node's lowering appends has an alloca for each local of the declarations, and a return for each return
statement, that the node reaches through statement positions. -/
def Covers (p : Program) (id : NodeId) (seg : List Item) : Prop :=
  ∀ d, p.StmtReaches id d →
    (∀ syms, p.ast.get? d = some (.stmt (.declare syms)) → ∀ s ∈ syms,
      .instr (.alloca (p.symbols.symbol s).name (p.symbols.symbol s).ty) ∈ seg) ∧
    (∀ x, p.ast.get? d = some (.stmt (.ret x)) → ∃ t v, p.ast.ty? x = some t ∧ .instr (.ret t v) ∈ seg)

/-- What emitting a node does: from a generator with the invariant, a typed run whose stores store variables the node
refers to and whose returns return what its return statements return; in a function body, one that covers the node's
declarations and returns. -/
def EmitTyped (p : Program) (id : NodeId) (g g' : Generator) : Prop :=
  p.Typing g → p.Typed (p.Within p.Local id) (p.VarOf id) (p.ReturnsFrom id) g g' ∧
    (p.Within p.Local id → p.Covers id (g.added g'))

/-- A node covered by some code is covered by code that holds it. -/
theorem Covers.mono {id : NodeId} {seg seg' : List Item} (h : p.Covers id seg) (hs : ∀ x ∈ seg, x ∈ seg') :
    p.Covers id seg' := fun d hd =>
  ⟨fun syms hn s hs' => hs _ ((h d hd).1 syms hn s hs'),
   fun x hn => let ⟨t, v, ht, hm⟩ := (h d hd).2 x hn; ⟨t, v, ht, hs _ hm⟩⟩

/-- A statement that neither declares nor returns covers what the nodes in its statement positions cover. -/
theorem covers_of_children {id : NodeId} {st : Stmt} {seg : List Item} (hn : p.ast.get? id = some (.stmt st))
    (hd : ∀ syms, st ≠ .declare syms) (hr : ∀ x, st ≠ .ret x) (hc : ∀ c ∈ (Node.stmt st).stmtChildren, p.Covers c seg) :
    p.Covers id seg := by
  intro d hreach
  cases hreach with
  | refl =>
    refine ⟨fun syms h => absurd ?_ (hd syms), fun x h => absurd ?_ (hr x)⟩ <;> simp_all
  | child hn' hmem hrest =>
    rw [hn] at hn'
    cases hn'
    exact hc _ hmem d hrest

/-- What a run between two others appends is part of what the three append. -/
theorem added_sub {g₀ g₁ g₂ g₃ : Generator} (h₁ : g₀.mark.code <+: g₁.mark.code) (h₂ : g₁.mark.code <+: g₂.mark.code)
    (h₃ : g₂.mark.code <+: g₃.mark.code) : ∀ x ∈ g₁.added g₂, x ∈ g₀.added g₃ := by
  obtain ⟨t₁, e₁⟩ := h₁
  obtain ⟨t₂, e₂⟩ := h₂
  obtain ⟨t₃, e₃⟩ := h₃
  rw [added_of_eq e₂.symm, added_of_eq (show g₃.mark.code = g₀.mark.code ++ (t₁ ++ t₂ ++ t₃) by
    rw [← e₃, ← e₂, ← e₁]; simp)]
  intro x hx
  simp [hx]

/-- What a statement reference of a node returns, the node returns. -/
theorem ReturnsFrom.child {id c : NodeId} {n : Node} {t : Ty} (hn : p.ast.get? id = some n) (hc : c ∈ n.stmtChildren)
    (h : p.ReturnsFrom c t) : p.ReturnsFrom id t := by
  obtain ⟨d, x, hr, hd, hx⟩ := h
  exact ⟨d, x, .child hn hc hr, hd, hx⟩

section Lifts

variable {id c : NodeId} {n : Node} (hn : p.ast.get? id = some n)
include hn

/-- A run of a node in a statement position of another is a run of the other. -/
theorem Typed.of_stmtChild (hc : c ∈ n.stmtChildren)
    (h : p.Typed (p.Within p.Local c) (p.VarOf c) (p.ReturnsFrom c) g g') :
    p.Typed (p.Within p.Local id) (p.VarOf id) (p.ReturnsFrom id) g g' :=
  h.mono (fun hl => hl.child hn (Node.stmtChildren_sub hc)) (fun _ => VarOf.child hn (Node.stmtChildren_sub hc))
    fun _ => ReturnsFrom.child hn hc

/-- A run of an expression a node refers to is a run of the node. -/
theorem Typed.of_exprChild {L : Prop} {R : Ty → Prop} (hc : c ∈ n.children)
    (h : p.Typed True (p.VarOf c) (fun _ => False) g g') : p.Typed L (p.VarOf id) R g g' :=
  h.mono (fun _ => trivial) (fun _ => VarOf.child hn hc) fun _ h => h.elim

end Lifts

section Glue

variable {L : Prop} {S : SymbolId → Prop} {R : Ty → Prop} (g : Generator)

/-- Starting an arm or a loop body: a label, and a string scope. -/
theorem typed_armStart (l : Label) (h : p.Typing g) : p.Typed L S R g (g.withLabel l).withScope :=
  let h₁ := typed_withLabel g l h
  h₁.trans (typed_withScope _ h₁.typing)

/-- Ending an arm: its scope closed, a jump to the join point, and the next label. -/
theorem typed_armEnd (l l' : Label) (h : p.Typing g) : p.Typed L S R g ((g.withoutScope.withJump l).withLabel l') :=
  let h₁ := typed_withoutScope g h
  let h₂ := h₁.trans (typed_withJump _ l h₁.typing)
  h₂.trans (typed_withLabel _ l' h₂.typing)

/-- A condition's scope closed, and a branch on its truth value. -/
theorem typed_branch {v : Value} (l₁ l₂ : Label) (h : p.Typing g) (hv : ValueTyped (defs g.mark.code) [] v .i1) :
    p.Typed L S R g (g.withoutScope.withTerminator (.branch v l₁ l₂)) :=
  let h₁ := typed_withoutScope g h
  h₁.trans (typed_withTerminator _ _ h₁.typing rfl (by simpa [Instr.uses] using hv.mono h₁.defs_sub fun _ h => h)
    trivial)

/-- The start of a construct, its banner and its labels, keeps the typing. -/
theorem typed_constructStart (c : Construct) (n : Nat) (h : p.Typing g) :
    p.Typed L S R g ((g.withBanner c).withLabels n) :=
  let h₁ := typed_withBanner g c h
  h₁.trans (typed_withLabels _ n h₁.typing)

/-- Writing an item that is not an entry label and defines no register; inside a function body it must be a body
item. -/
theorem typed_withItem {it : Item} (h : p.Typing g) (hi : it ≠ .entry) (hd : it.defs = [])
    (hb : L → ∀ x ∈ it.code, p.BodyItem (defs g.mark.code) g.spilled S R x) : p.Typed L S R g (g.withItem it) := by
  have hc : (g.withItem it).mark.code = g.mark.code ++ it.code := by simp
  have hcode : ∀ x ∈ it.code, x = it := by
    intro x hx
    cases it <;> simp_all [Item.code]
  have hd' : defs (g.withItem it).mark.code = defs g.mark.code := by
    rw [hc, defs_append]
    cases it <;> simp_all [Item.code]
  refine .of_append _ (h.frame hd' rfl (fun _ h => h) rfl) rfl rfl hc
    (Chunks.of_entry_not_mem fun he => hi (hcode _ he).symm) fun hl x hx => ?_
  rw [hd']
  exact hb hl x hx

/-- A returned value keeps its type when it is handed over: as it is, or as a fresh copy of a string. -/
theorem typed_handOver {t : Ty} {v : Value} {r : Value × Option Nat} (h : Runs (handOver t v) g r g') (hT : p.Typing g)
    (hv : ValueTyped (defs g.mark.code) [] v t.irTy) :
    p.Typed L S R g g' ∧ ValueTyped (defs g'.mark.code) [] r.1 t.irTy := by
  rcases runs_handOver h with ⟨rfl, i, -, rfl, rfl⟩ | ⟨rfl, -, rfl, rfl⟩ | ⟨rfl, rfl, rfl⟩
  · exact ⟨.refl hT, hv⟩
  · let i := Instr.copy (g.nextReg "tmp") v
    have h₁ : p.Typed L S R g _ := typed_define g i "tmp" hT rfl (by simpa [i, Instr.uses] using hv) trivial
    exact ⟨h₁.trans (typed_withRuntime _ h₁.typing), by simpa [ValueTyped] using mem_defs_define g i _ rfl⟩
  · exact ⟨.refl hT, hv⟩

/-- Declarations reserve storage for their variables: inside a function body, all locals, a stack slot each. -/
theorem typed_lowerDeclarations {syms : List SymbolId} (h : p.Typing g)
    (hl : L → ∀ s ∈ syms, (p.symbols.symbol s).flags.external = false ∧ (p.symbols.symbol s).flags.global = false) :
    p.Typed L S R g (syms.foldl (fun g s => g.withDeclaration (p.symbols.symbol s)) g) ∧
      (L → ∀ s ∈ syms, .instr (.alloca (p.symbols.symbol s).name (p.symbols.symbol s).ty) ∈
        g.added (syms.foldl (fun g s => g.withDeclaration (p.symbols.symbol s)) g)) := by
  induction syms generalizing g with
  | nil => exact ⟨.refl h, by simp⟩
  | cons s syms ih =>
    have h₁ : p.Typed L S R g (g.withDeclaration (p.symbols.symbol s)) ∧
        (L → .instr (.alloca (p.symbols.symbol s).name (p.symbols.symbol s).ty) ∈
          g.added (g.withDeclaration (p.symbols.symbol s))) := by
      unfold withDeclaration
      split
      · exact ⟨typed_withItem g h (by simp) rfl fun hL => absurd (hl hL s List.mem_cons_self).1 (by simp_all),
          fun hL => absurd (hl hL s List.mem_cons_self).1 (by simp_all)⟩
      · split
        · exact ⟨typed_withItem g h (by simp) rfl fun hL => absurd (hl hL s List.mem_cons_self).2 (by simp_all),
            fun hL => absurd (hl hL s List.mem_cons_self).2 (by simp_all)⟩
        · refine ⟨typed_withInstr g _ h rfl (by simp [Instr.uses]) trivial, fun _ => ?_⟩
          rw [added_of_eq (code_withInstr g _)]
          simp
    obtain ⟨h₂, hc₂⟩ := ih _ h₁.1.typing fun hL s' hs' => hl hL s' (List.mem_cons_of_mem s hs')
    refine ⟨h₁.1.trans h₂, fun hL s' hs' => ?_⟩
    rw [List.foldl_cons]
    rcases List.mem_cons.mp hs' with rfl | hs'
    · exact added_sub (List.prefix_refl _) h₁.1.grows h₂.grows _ (h₁.2 hL)
    · exact added_sub h₁.1.grows h₂.grows (List.prefix_refl _) _ (hc₂ hL s' hs')

end Glue

section Constructs

variable (hty : p.TypesRecorded) (hx : ∀ {id g v g'}, Runs (w.expr id) g v g' → p.ExprTyped id g v g')
  (he : ∀ {id g g'}, Runs (w.emit id) g () g' → p.EmitTyped id g g')
include hty hx he

/-- A choice is a typed run: the banner and its three labels, the condition in a scope of its own, the branch, the
then arm, the else arm if any, and the join, each piece from where the one before left off. -/
theorem typed_lowerChoice {id c t : NodeId} {e : Option NodeId} (hn : p.ast.get? id = some (.stmt (.ite c t e)))
    (h : Runs (p.lowerChoice w c t e) g () g') : p.EmitTyped id g g' := by
  intro hT
  obtain ⟨v, g₁, g₂, g₃, hc, ht, hel, rfl⟩ := runs_lowerChoice h
  have h₀ : p.Typed (p.Within p.Local id) (p.VarOf id) (p.ReturnsFrom id) g _ := typed_constructStart g .choice 3 hT
  have h₀ := h₀.trans (typed_withScope _ h₀.typing)
  obtain ⟨hc₁, hv⟩ := typed_testOf hty hx hc h₀.typing
  have h₁ := h₀.trans (hc₁.of_exprChild hn (by simp [Node.children]))
  have h₂ := h₁.trans (typed_branch g₁ ⟨g.labels⟩ ⟨g.labels + 1⟩ h₁.typing hv)
  have h₃ := h₂.trans (typed_armStart _ ⟨g.labels⟩ h₂.typing)
  obtain ⟨ht₁, htc⟩ := he ht h₃.typing
  have h₄ := h₃.trans (ht₁.of_stmtChild hn (by simp [Node.stmtChildren]))
  have hrest : p.Typed (p.Within p.Local id) (p.VarOf id) (p.ReturnsFrom id) g₂
      ((g₃.withJump ⟨g.labels + 2⟩).withLabel ⟨g.labels + 2⟩) ∧
      (p.Within p.Local id → ∀ c ∈ e.toList, p.Covers c (g₂.added ((g₃.withJump ⟨g.labels + 2⟩).withLabel
        ⟨g.labels + 2⟩))) := by
    cases e with
    | none =>
      subst hel
      have h₅ : p.Typed (p.Within p.Local id) (p.VarOf id) (p.ReturnsFrom id) g₂ _ :=
        typed_armEnd g₂ ⟨g.labels + 2⟩ ⟨g.labels + 1⟩ h₄.typing
      have h₅ := h₅.trans (typed_withJump _ ⟨g.labels + 2⟩ h₅.typing)
      exact ⟨h₅.trans (typed_withLabel _ _ h₅.typing), by simp⟩
    | some e =>
      obtain ⟨g₄, hr, rfl⟩ := hel
      have h₅ : p.Typed (p.Within p.Local id) (p.VarOf id) (p.ReturnsFrom id) g₂ _ :=
        typed_armEnd g₂ ⟨g.labels + 2⟩ ⟨g.labels + 1⟩ h₄.typing
      have h₅ := h₅.trans (typed_withScope _ h₅.typing)
      obtain ⟨he₁, hec⟩ := he hr h₅.typing
      have h₆ : p.Typed (p.Within p.Local id) (p.VarOf id) (p.ReturnsFrom id) g₄ _ :=
        typed_armEnd g₄ ⟨g.labels + 2⟩ ⟨g.labels + 2⟩ he₁.typing
      refine ⟨(h₅.trans (he₁.of_stmtChild hn (by simp [Node.stmtChildren]))).trans h₆, fun hl c hc => ?_⟩
      simp only [Option.toList_some, List.mem_singleton] at hc
      subst hc
      exact (hec (hl.child hn (by simp [Node.children]))).mono (added_sub h₅.grows he₁.grows h₆.grows)
  refine ⟨h₄.trans hrest.1, fun hl => covers_of_children hn (by simp) (by simp) fun c hc => ?_⟩
  simp only [Node.stmtChildren, List.mem_cons] at hc
  rcases hc with rfl | hc
  · exact (htc (hl.child hn (by simp [Node.children]))).mono (added_sub h₃.grows ht₁.grows hrest.1.grows)
  · exact (hrest.2 hl c hc).mono (added_sub h₄.grows hrest.1.grows (List.prefix_refl _))

/-- A while loop is a typed run: the jump to the test, the test in its scope, the branch, the body in its scope and
the jump back. -/
theorem typed_lowerWhile {id c b : NodeId} (hn : p.ast.get? id = some (.stmt (.whileLoop c b)))
    (h : Runs (p.lowerWhile w c b) g () g') : p.EmitTyped id g g' := by
  intro hT
  obtain ⟨v, g₁, g₂, hc, hb, rfl⟩ := runs_lowerWhile h
  have h₀ : p.Typed (p.Within p.Local id) (p.VarOf id) (p.ReturnsFrom id) g _ :=
    typed_constructStart g .whileLoop 3 hT
  have h₀ := h₀.trans (typed_withJump _ ⟨g.labels⟩ h₀.typing)
  have h₀ := h₀.trans (typed_armStart _ ⟨g.labels⟩ h₀.typing)
  obtain ⟨hc₁, hv⟩ := typed_testOf hty hx hc h₀.typing
  have h₁ := h₀.trans (hc₁.of_exprChild hn (by simp [Node.children]))
  have h₂ := h₁.trans (typed_branch g₁ ⟨g.labels + 1⟩ ⟨g.labels + 2⟩ h₁.typing hv)
  have h₂ := h₂.trans (typed_armStart _ ⟨g.labels + 1⟩ h₂.typing)
  obtain ⟨hb₁, hbc⟩ := he hb h₂.typing
  have h₃ : p.Typed (p.Within p.Local id) (p.VarOf id) (p.ReturnsFrom id) g₂ _ :=
    typed_armEnd g₂ ⟨g.labels⟩ ⟨g.labels + 2⟩ hb₁.typing
  refine ⟨(h₂.trans (hb₁.of_stmtChild hn (by simp [Node.stmtChildren]))).trans h₃,
    fun hl => covers_of_children hn (by simp) (by simp) fun c' hc' => ?_⟩
  simp only [Node.stmtChildren, List.mem_singleton] at hc'
  subst hc'
  exact (hbc (hl.child hn (by simp [Node.children]))).mono (added_sub h₂.grows hb₁.grows h₃.grows)

/-- A do loop is a typed run: the jump to the body, the body in its scope, the test in its scope and the branch back
or out. -/
theorem typed_lowerDo {id b c : NodeId} (hn : p.ast.get? id = some (.stmt (.doLoop b c)))
    (h : Runs (p.lowerDo w b c) g () g') : p.EmitTyped id g g' := by
  intro hT
  obtain ⟨g₁, v, g₂, hb, hc, rfl⟩ := runs_lowerDo h
  have h₀ : p.Typed (p.Within p.Local id) (p.VarOf id) (p.ReturnsFrom id) g _ :=
    typed_constructStart g .doLoop 3 hT
  have h₀ := h₀.trans (typed_withJump _ ⟨g.labels⟩ h₀.typing)
  have h₀ := h₀.trans (typed_armStart _ ⟨g.labels⟩ h₀.typing)
  obtain ⟨hb₁, hbc⟩ := he hb h₀.typing
  have h₁ : p.Typed (p.Within p.Local id) (p.VarOf id) (p.ReturnsFrom id) g₁ _ :=
    typed_armEnd g₁ ⟨g.labels + 1⟩ ⟨g.labels + 1⟩ hb₁.typing
  have h₁ := h₁.trans (typed_withScope _ h₁.typing)
  obtain ⟨hc₁, hv⟩ := typed_testOf hty hx hc h₁.typing
  have h₂ := h₁.trans (hc₁.of_exprChild hn (by simp [Node.children]))
  have h₂ := h₂.trans (typed_branch g₂ ⟨g.labels⟩ ⟨g.labels + 2⟩ h₂.typing hv)
  have h₂ := h₂.trans (typed_withLabel _ ⟨g.labels + 2⟩ h₂.typing)
  refine ⟨(h₀.trans (hb₁.of_stmtChild hn (by simp [Node.stmtChildren]))).trans h₂,
    fun hl => covers_of_children hn (by simp) (by simp) fun c' hc' => ?_⟩
  simp only [Node.stmtChildren, List.mem_singleton] at hc'
  subst hc'
  exact (hbc (hl.child hn (by simp [Node.children]))).mono (added_sub h₀.grows hb₁.grows h₂.grows)

/-- A for loop is a typed run: the start expression, the jump to the test, the test in its scope, the branch, the body
in its scope, and the step expression in a block and a scope of its own before the jump back. -/
theorem typed_lowerFor {id i c s b : NodeId} (hn : p.ast.get? id = some (.stmt (.forLoop i c s b)))
    (h : Runs (p.lowerFor w i c s b) g () g') : p.EmitTyped id g g' := by
  intro hT
  obtain ⟨vi, g₁, v, g₂, g₃, vs, g₄, hi, hc, hb, hs, rfl⟩ := runs_lowerFor h
  have h₀ : p.Typed (p.Within p.Local id) (p.VarOf id) (p.ReturnsFrom id) g _ :=
    typed_constructStart g .forLoop 4 hT
  obtain ⟨hi₁, -⟩ := hx hi h₀.typing
  have h₁ := h₀.trans (hi₁.of_exprChild hn (by simp [Node.children]))
  have h₁ := h₁.trans (typed_withJump _ ⟨g.labels⟩ h₁.typing)
  have h₁ := h₁.trans (typed_armStart _ ⟨g.labels⟩ h₁.typing)
  obtain ⟨hc₁, hv⟩ := typed_testOf hty hx hc h₁.typing
  have h₂ := h₁.trans (hc₁.of_exprChild hn (by simp [Node.children]))
  have h₂ := h₂.trans (typed_branch g₂ ⟨g.labels + 1⟩ ⟨g.labels + 3⟩ h₂.typing hv)
  have h₂ := h₂.trans (typed_armStart _ ⟨g.labels + 1⟩ h₂.typing)
  obtain ⟨hb₁, hbc⟩ := he hb h₂.typing
  have h₃ : p.Typed (p.Within p.Local id) (p.VarOf id) (p.ReturnsFrom id) g₃ _ :=
    typed_armEnd g₃ ⟨g.labels + 2⟩ ⟨g.labels + 2⟩ hb₁.typing
  have h₃ := h₃.trans (typed_withScope _ h₃.typing)
  obtain ⟨hs₁, -⟩ := hx hs h₃.typing
  have h₄ := h₃.trans (hs₁.of_exprChild hn (by simp [Node.children]))
  have h₄ := h₄.trans (typed_armEnd g₄ ⟨g.labels⟩ ⟨g.labels + 3⟩ h₄.typing)
  refine ⟨(h₂.trans (hb₁.of_stmtChild hn (by simp [Node.stmtChildren]))).trans h₄,
    fun hl => covers_of_children hn (by simp) (by simp) fun c' hc' => ?_⟩
  simp only [Node.stmtChildren, List.mem_singleton] at hc'
  subst hc'
  exact (hbc (hl.child hn (by simp [Node.children]))).mono (added_sub h₂.grows hb₁.grows h₄.grows)

end Constructs

section Blocks

variable (he : ∀ {id g g'}, Runs (w.emit id) g () g' → p.EmitTyped id g g')
include he

/-- A block lowers its items in order. -/
theorem typed_block {id : NodeId} {items : List NodeId} {u : Unit} (hn : p.ast.get? id = some (.stmt (.block items)))
    (h : Runs (items.forM w.emit) g u g') : p.EmitTyped id g g' := by
  intro hT
  -- by induction over the items still to lower
  have key : ∀ (rest : List NodeId) (g g' : Generator), (∀ c ∈ rest, c ∈ items) → Runs (rest.forM w.emit) g () g' →
      p.Typing g → p.Typed (p.Within p.Local id) (p.VarOf id) (p.ReturnsFrom id) g g' ∧
        (p.Within p.Local id → ∀ c ∈ rest, p.Covers c (g.added g')) := by
    intro rest
    induction rest with
    | nil =>
      intro g g' _ h hT
      obtain rfl := Runs.forM_nil.mp h
      exact ⟨.refl hT, by simp⟩
    | cons c rest ih =>
      intro g g' hsub h hT
      obtain ⟨g₁, h₁, h₂⟩ := Runs.forM_cons.mp h
      obtain ⟨t₁, hc₁⟩ := he h₁ hT
      have t₁ := t₁.of_stmtChild hn (hsub c List.mem_cons_self)
      obtain ⟨t₂, hc₂⟩ := ih g₁ g' (fun c' hc' => hsub c' (List.mem_cons_of_mem c hc')) h₂ t₁.typing
      refine ⟨t₁.trans t₂, fun hl c' hc' => ?_⟩
      rcases List.mem_cons.mp hc' with rfl | hc'
      · exact (hc₁ (hl.child hn (hsub c' List.mem_cons_self))).mono
          (added_sub (List.prefix_refl _) t₁.grows t₂.grows)
      · exact (hc₂ hl c' hc').mono (added_sub t₁.grows t₂.grows (List.prefix_refl _))
  obtain ⟨t, hc⟩ := key items g g' (fun _ h => h) h hT
  exact ⟨t, fun hl => covers_of_children hn (by simp) (by simp) fun c hc' => hc hl c hc'⟩

end Blocks

/-! ## Instructions -/

section Instructions

variable (hty : p.TypesRecorded) (hx : ∀ {id g v g'}, Runs (w.expr id) g v g' → p.ExprTyped id g v g')
include hty hx

omit hty in
/-- An expression statement lowers its expression. -/
theorem typed_eval {id e : NodeId} {u : Unit} (hn : p.ast.get? id = some (.stmt (.eval e)))
    (h : Runs (discard (w.expr e)) g u g') : p.EmitTyped id g g' := by
  intro hT
  obtain ⟨v, hv⟩ := Runs.discard_iff.mp h
  obtain ⟨h₁, -⟩ := hx hv hT
  exact ⟨h₁.of_exprChild hn (by simp [Node.children]),
    fun _ => covers_of_children hn (by simp) (by simp) (by simp [Node.stmtChildren])⟩

/-- A return lowers its value, of the type of the returned expression, hands it over, frees the other owned strings
and returns it at that type. -/
theorem typed_lowerReturn {id x : NodeId} (hn : p.ast.get? id = some (.stmt (.ret x)))
    (h : Runs (p.lowerReturn w x) g () g') : p.EmitTyped id g g' := by
  intro hT
  obtain ⟨t, v, g₁, v', kept, g₂, ht, hv, hh, rfl⟩ := runs_lowerReturn h
  obtain ⟨h₁, hv₁⟩ := typed_valueOf hty hx ht hv hT
  have h₁ : p.Typed (p.Within p.Local id) (p.VarOf id) (p.ReturnsFrom id) g g₁ :=
    h₁.of_exprChild hn (by simp [Node.children])
  obtain ⟨h₂, hv₂⟩ := typed_handOver g₁ hh h₁.typing hv₁
  have h₂ := h₁.trans h₂
  have hfree : ∀ r ∈ kept.elim g₂.owned g₂.owned.eraseIdx, (r, IrTy.ptr) ∈ defs g₂.mark.code := by
    intro r hr
    refine h₂.typing.owned r ?_
    cases kept with
    | some i => exact List.mem_of_mem_eraseIdx hr
    | none => exact hr
  have hF : p.Typed (p.Within p.Local id) (p.VarOf id) (p.ReturnsFrom id) g₂ _ := typed_withFrees g₂ h₂.typing hfree
  have h₃ := h₂.trans hF
  have hR : p.Typed (p.Within p.Local id) (p.VarOf id) (p.ReturnsFrom id) _ _ :=
    typed_withTerminator _ (.ret t v') h₃.typing rfl
      (by simpa [Instr.uses] using hv₂.mono hF.defs_sub fun _ h => h) ⟨id, x, .refl id, hn, ht⟩
  have hI : p.Typed (p.Within p.Local id) (p.VarOf id) (p.ReturnsFrom id) _ _ := typed_withoutInner _ hR.typing
  refine ⟨(h₃.trans hR).trans hI, fun _ d hd => ?_⟩
  cases hd with
  | refl =>
    refine ⟨fun syms h => by simp_all, fun x' hx' => ?_⟩
    rw [hn] at hx'
    cases hx'
    refine ⟨t, v', ht, added_sub h₃.grows hR.grows hI.grows _ ?_⟩
    rw [added_of_eq (code_withTerminator _ (.ret t v'))]
    simp
  | child hn' hc _ =>
    rw [hn] at hn'
    cases hn'
    simp [Node.stmtChildren] at hc

end Instructions

/-- A declaration in a function body reserves a stack slot for each of its locals. -/
theorem typed_declare {id : NodeId} {syms : List SymbolId} {u : Unit} (hn : p.ast.get? id = some (.stmt (.declare syms)))
    (h : Runs (p.lowerDeclarations syms) g u g') : p.EmitTyped id g g' := by
  intro hT
  rw [runs_lowerDeclarations h]
  obtain ⟨h₁, hc⟩ : p.Typed (p.Within p.Local id) (p.VarOf id) (p.ReturnsFrom id) g _ ∧ _ :=
    typed_lowerDeclarations g hT fun hl => hl.node hn
  refine ⟨h₁, fun hl d hd => ?_⟩
  cases hd with
  | refl =>
    refine ⟨fun syms' h' => ?_, fun x h' => ?_⟩ <;> rw [hn] at h' <;> cases h'
    exact hc hl
  | child hn' hc' _ =>
    rw [hn] at hn'
    cases hn'
    simp [Node.stmtChildren] at hc'

/-- A prototype, one line outside any function body, keeps the typing. -/
theorem typed_prototype {id : NodeId} {f : FunctionId} {u : Unit} (hn : p.ast.get? id = some (.stmt (.prototype f)))
    (h : Runs (p.lowerPrototype f) g u g') : p.EmitTyped id g g' := by
  intro hT
  rw [runs_lowerPrototype h]
  exact ⟨typed_withItem g hT (by simp) rfl fun hl => (hl.node hn).elim, fun hl => (hl.node hn).elim⟩

end Program

end Lowering
