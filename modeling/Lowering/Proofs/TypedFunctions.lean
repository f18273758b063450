import Lowering.Proofs.TypedRules

/-!
# Function definitions are well typed

A definition writes its head and entry label, spills each parameter to a stack slot, lowers its body, ends with an
epilogue that returns zero of the result type if the body falls off its end, and closes with a brace, the string
constants and the runtime's prototypes. The function's body is the spills, the body's code and the epilogue.

When the body has only local nodes, this module puts together what each part gives: operands typed by the unit's
registers and the head's parameters, calls typed as their callees, stores to slots that the spills or the body's
declarations reserve, and returns of the declared result type exactly when every return statement returns it.
-/

namespace Lowering

open Ir Generator

namespace Generator

/-- The code that spills parameters to their stack slots. -/
def spillItems (ps : List Symbol) : List Item :=
  ps.flatMap fun s => [.instr (.alloca (s.name ++ ".addr") s.ty), .instr (.store s.ty (.arg s.name) (.slot (s.name ++ ".addr")))]

/-- Spilling the parameters in an open block appends their allocations and stores, and leaves the block open. -/
theorem code_spills (ps : List Symbol) (g : Generator) (hc : g.closed = false) :
    (ps.foldl withSpill g).mark.code = g.mark.code ++ spillItems ps ∧ (ps.foldl withSpill g).closed = false := by
  induction ps generalizing g with
  | nil => simp [spillItems, hc]
  | cons s ps ih =>
    obtain ⟨h₁, h₂⟩ := ih ((g.withInstr (.alloca (s.name ++ ".addr") s.ty)).withInstr
      (.store s.ty (.arg s.name) (.slot (s.name ++ ".addr")))) (by simp)
    refine ⟨?_, h₂⟩
    rw [List.foldl_cons, withSpill, h₁, code_withInstr, code_withInstr]
    simp [hc, spillItems]

/-- Spilling the parameters keeps the layout. -/
@[simp] theorem foldl_withSpill_layout (g : Generator) (ps : List Symbol) :
    (ps.foldl withSpill g).layout = g.layout := by
  induction ps generalizing g with
  | nil => rfl
  | cons s ps ih => simp [ih, withSpill]

end Generator

namespace Program

variable {p : Program} {g g' : Generator}

/-- Spilling the parameters keeps the invariant: the allocations and stores define no register. -/
theorem typing_spills (ps : List Symbol) (h : p.Typing g) : p.Typing (ps.foldl withSpill g) := by
  induction ps generalizing g with
  | nil => exact h
  | cons s ps ih => exact ih ((h.withInstr rfl).withInstr rfl)

/-- A body starts after its head and entry label, in an open block after the spills of its parameters. -/
theorem code_bodyStart (f : FunctionId) (g : Generator) :
    (p.bodyStart f g).mark.code =
        g.mark.code ++ p.headerOf f :: .entry :: spillItems ((p.symbols.signature f).params.map p.symbols.symbol) ∧
      (p.bodyStart f g).closed = false := by
  let g₀ : Generator := { ((g.withItem (p.headerOf f)).withItem .entry) with
    depth := g.depth + 1, closed := false, owned := [], marks := [] }
  have hc₀ : g₀.mark.code = g.mark.code ++ [p.headerOf f, .entry] := by
    show ((g.withItem (p.headerOf f)).withItem .entry).mark.code = _
    simp [headerOf, Item.code]
  obtain ⟨hc, hcl⟩ := code_spills ((p.symbols.signature f).params.map p.symbols.symbol) g₀ rfl
  refine ⟨?_, hcl⟩
  show (List.foldl withSpill g₀ _).mark.code = _
  rw [hc, hc₀]
  simp

/-- A body starts after its head and entry label, with its parameters spilled, in a generator with the invariant. -/
theorem bodyStart_spec (f : FunctionId) (h : p.Typing g) :
    p.Typing (p.bodyStart f g) ∧
      (p.bodyStart f g).mark.code =
        g.mark.code ++ p.headerOf f :: .entry :: spillItems ((p.symbols.signature f).params.map p.symbols.symbol) ∧
      (p.bodyStart f g).spilled = (p.symbols.signature f).params ∧ (p.bodyStart f g).layout = g.layout := by
  let g₀ : Generator := { ((g.withItem (p.headerOf f)).withItem .entry) with
    depth := g.depth + 1, closed := false, owned := [], marks := [] }
  have hc₀ : g₀.mark.code = g.mark.code ++ [p.headerOf f, .entry] := by
    show ((g.withItem (p.headerOf f)).withItem .entry).mark.code = _
    simp [headerOf, Item.code]
  have h₀ : p.Typing g₀ := h.frame (by rw [hc₀]; simp [Item.defs, headerOf]) rfl (by simp [g₀]) rfl
  exact ⟨(typing_spills _ h₀).frame rfl rfl (fun _ h => h) rfl, (code_bodyStart f g).1, rfl,
    by simp [bodyStart, withItem]⟩

section Tail

variable {L : Prop} {S : SymbolId → Prop} {R : Ty → Prop} (g : Generator)

/-- The epilogue frees every owned string and returns zero of the result type, unless the block has ended. -/
theorem typed_withEpilogue (r : Ty) (h : p.Typing g) : p.Typed L S (fun t => t = r) g (g.withEpilogue r) := by
  unfold withEpilogue
  split
  · exact .refl h
  · have h₁ : p.Typed L S (fun t => t = r) g { g with owned := [] } := .of_frame h rfl rfl (by simp) rfl rfl rfl
    have h₂ := h₁.trans (typed_withFrees _ h₁.typing h.owned)
    exact h₂.trans (typed_withTerminator _ (.ret r (zero r)) h₂.typing rfl
      (by simpa [Instr.uses] using zero_typed _ _ r) rfl)

/-- Items outside any function body that define nothing. -/
theorem typed_withItems (is : List Item) (h : p.Typing g) (hi : ∀ i ∈ is, i ≠ .entry ∧ i.defs = []) (hL : ¬L) :
    p.Typed L S R g (g.withItems is) := by
  induction is generalizing g with
  | nil => exact .refl h
  | cons i is ih =>
    have h₁ : p.Typed L S R g _ :=
      typed_withItem g h (hi i List.mem_cons_self).1 (hi i List.mem_cons_self).2 fun hl => absurd hl hL
    exact h₁.trans (ih _ h₁.typing fun j hj => hi j (List.mem_cons_of_mem i hj))

/-- Writing the queued constants, outside a body, is a typed run. -/
theorem typed_withConstantsWritten (h : p.Typing g) (hL : ¬L) : p.Typed L S R g g.withConstantsWritten :=
  have h₁ : p.Typed L S R g { g with pending := #[] } := .of_frame h rfl rfl (fun _ h => h) rfl rfl rfl
  h₁.trans (typed_withItems _ _ h₁.typing (fun i hi => by
    obtain ⟨⟨r, bytes⟩, -, rfl⟩ := List.mem_map.mp hi
    exact ⟨by simp, rfl⟩) hL)

/-- Writing the runtime's prototypes, outside a body, is a typed run. -/
theorem typed_withRuntimeWritten (h : p.Typing g) (hL : ¬L) : p.Typed L S R g g.withRuntimeWritten := by
  unfold withRuntimeWritten
  split
  · have h₁ : p.Typed L S R g _ := typed_withItems g (Helper.all.map .helper) h (fun i hi => by
      obtain ⟨x, -, rfl⟩ := List.mem_map.mp hi
      exact ⟨by simp, rfl⟩) hL
    have h₂ := h₁.trans (typed_withBlank _ h₁.typing)
    exact h₂.trans (.of_frame h₂.typing rfl rfl (fun _ h => h) rfl rfl rfl)
  · exact .refl h

end Tail

/-! ## A function's body -/

section Body

variable {f : FunctionId} {b : NodeId} {Γ : List (Reg × IrTy)} {X E : List Item}

/-- An instruction of the spills is a parameter's allocation or its store. -/
theorem mem_spillItems {ps : List Symbol} {i : Instr} (h : .instr i ∈ spillItems ps) :
    ∃ s ∈ ps, i = .alloca (s.name ++ ".addr") s.ty ∨ i = .store s.ty (.arg s.name) (.slot (s.name ++ ".addr")) := by
  obtain ⟨s, hs, hi⟩ := List.mem_flatMap.mp h
  simp only [List.mem_cons, Item.instr.injEq, List.not_mem_nil, or_false] at hi
  exact ⟨s, hs, hi⟩

/-- Each parameter's slot is allocated by the spills. -/
theorem alloca_mem_spillItems {ps : List Symbol} {s : Symbol} (hs : s ∈ ps) :
    .instr (.alloca (s.name ++ ".addr") s.ty) ∈ spillItems ps :=
  List.mem_flatMap.mpr ⟨s, hs, List.mem_cons_self⟩

/-- An instruction a typed run writes calls its callee with arguments of its parameters' types. -/
theorem callTyped_of_instrFrom {spilled : List SymbolId} {S : SymbolId → Prop} {R : Ty → Prop} {i : Instr}
    (h : p.InstrFrom spilled S R i) : p.CallTyped i := by
  cases i <;> first | exact h | trivial

/-- A variable of a body that refers only to the function's parameters, its own locals and globals is stored in a slot
of its type that the body reserves, or in a global of its type. -/
theorem storeSlotted_of_scoped {s : SymbolId} (hl : p.Within p.Local b) (hsc : p.Scoped f b) (hvar : p.VarOf b s)
    (hcov : p.Covers b X) :
    p.StoreSlotted (spillItems ((p.symbols.signature f).params.map p.symbols.symbol) ++ X ++ E)
      (p.symbols.symbol s).ty (p.addressOf (p.symbols.signature f).params s) := by
  have hdecl : p.DeclaredIn b s → (p.symbols.symbol s).flags.external = false ∧
      (p.symbols.symbol s).flags.global = false := fun ⟨d, syms, hd, hn, hs⟩ =>
    hl d _ hd.reaches hn s hs
  unfold addressOf
  split
  · rename_i hp
    exact List.mem_append_left _ (List.mem_append_left _
      (alloca_mem_spillItems (List.mem_map_of_mem (List.contains_iff_mem.mp hp))))
  · rename_i hp
    have hp : s ∉ (p.symbols.signature f).params := fun h => hp (List.contains_iff_mem.mpr h)
    split
    · rename_i hg
      refine ⟨s, rfl, rfl, ?_⟩
      rcases hsc s hvar with h | h | h
      · exact absurd h hp
      · simp [hdecl h] at hg
      · exact h
    · rename_i hg
      rcases hsc s hvar with h | ⟨d, syms, hd, hn, hs⟩ | h
      · exact absurd h hp
      · exact List.mem_append_left _ (List.mem_append_right _ ((hcov d hd).1 syms hn s hs))
      · simp [h] at hg

/-- A body made of the spills, code from the body's node and an epilogue is well typed: each part gives its share. -/
theorem functionTyped_of_parts (hl : p.Within p.Local b)
    (hX : ∀ it ∈ X, p.BodyItem Γ (p.symbols.signature f).params (p.VarOf b) (p.ReturnsFrom b) it)
    (hE : ∀ it ∈ E, p.BodyItem Γ (p.symbols.signature f).params (fun _ => False)
      (fun t => t = (p.symbols.signature f).result) it)
    (hcov : p.Covers b X) :
    p.FunctionTyped Γ f b (spillItems ((p.symbols.signature f).params.map p.symbols.symbol) ++ X ++ E) := by
  have hsub : ∀ x ∈ ([] : List (Ty × String)), x ∈ p.paramsOf f := by simp
  refine ⟨fun i hi u hu => ?_, fun i hi => ?_, fun hsc t v a hi => ?_, ⟨fun hall t hret => ?_, fun hd t v hi => ?_⟩⟩
  · rcases List.mem_append.mp hi with hi | hi
    · rcases List.mem_append.mp hi with hi | hi
      · obtain ⟨s, hs, rfl | rfl⟩ := mem_spillItems hi
        · simp [Instr.uses] at hu
        · simp only [Instr.uses, List.mem_singleton] at hu
          subst hu
          exact ⟨s.ty, List.mem_map_of_mem hs, rfl⟩
      · exact ((hX _ hi).1 u hu).mono (fun _ h => h) hsub
    · exact ((hE _ hi).1 u hu).mono (fun _ h => h) hsub
  · rcases List.mem_append.mp hi with hi | hi
    · rcases List.mem_append.mp hi with hi | hi
      · obtain ⟨s, -, rfl | rfl⟩ := mem_spillItems hi <;> trivial
      · exact callTyped_of_instrFrom (hX _ hi).2
    · exact callTyped_of_instrFrom (hE _ hi).2
  · rcases List.mem_append.mp hi with hi | hi
    · rcases List.mem_append.mp hi with hi | hi
      · obtain ⟨s, hs, h | h⟩ := mem_spillItems hi
        · cases h
        · cases h
          exact List.mem_append_left _ (List.mem_append_left _ (alloca_mem_spillItems hs))
      · obtain ⟨s, hs, rfl, rfl⟩ := (hX _ hi).2
        exact storeSlotted_of_scoped hl hsc hs hcov
    · exact ((hE _ hi).2.choose_spec.1).elim
  · obtain ⟨d, x, hd, hn, hx⟩ := hret
    obtain ⟨t', v, ht', hm⟩ := (hcov d hd).2 x hn
    rw [hx] at ht'
    cases ht'
    exact hall t v (List.mem_append_left _ (List.mem_append_right _ hm))
  · rcases List.mem_append.mp hi with hi | hi
    · rcases List.mem_append.mp hi with hi | hi
      · obtain ⟨s, -, h | h⟩ := mem_spillItems hi <;> cases h
      · exact hd t (hX _ hi).2
    · exact (hE _ hi).2

end Body

/-- Code with more after it defines at least what it defined. -/
theorem defs_sub_of_grows {a b : List Item} (h : a <+: b) : ∀ x ∈ defs a, x ∈ defs b := by
  obtain ⟨t, rfl⟩ := h
  intro x hx
  rw [defs_append]
  exact List.mem_append_left _ hx

/-- The spills write no entry label. -/
theorem entry_not_mem_spillItems (ps : List Symbol) : .entry ∉ spillItems ps := by
  simp [spillItems]

/-- The spills write no closing brace. -/
theorem close_not_mem_spillItems (ps : List Symbol) : .close ∉ spillItems ps := by
  simp [spillItems]

/-- Emitting a definition, outside any function body, writes a function of the unit at its place: its head, then a
body that is well typed when the body's node reaches only local nodes, then its closing brace. -/
theorem typed_lowerDefinition {n : Nat} {id : NodeId} {f : FunctionId} {b : NodeId}
    (hn : p.ast.get? id = some (.stmt (.define f b)))
    (hb : ∀ {g g'}, Runs ((p.walk n).emit b) g () g' → p.EmitTyped b g g')
    (he : Runs ((p.walk (n + 1)).emit id) g () g') : p.EmitTyped id g g' := by
  intro hT
  have hL : ¬p.Within p.Local id := fun hl => hl.node hn
  obtain ⟨g₁, h₁, rfl⟩ := runs_lowerDefinition ((runs_emitNode_stmt hn).mp he)
  obtain ⟨hB, hcB, hsB, hlB⟩ := bodyStart_spec f hT
  obtain ⟨t₁, hcov⟩ := hb h₁ hB
  have tE : p.Typed True (fun _ => False) (fun t => t = (p.symbols.signature f).result) g₁
      (g₁.withEpilogue (p.symbols.signature f).result) := typed_withEpilogue g₁ _ t₁.typing
  let G₂ : Generator :=
    { g₁.withEpilogue (p.symbols.signature f).result with
      spilled := g.spilled
      depth := (g₁.withEpilogue (p.symbols.signature f).result).depth - 1
      closed := false }
  have tC : p.Typed (p.Within p.Local id) (p.VarOf id) (p.ReturnsFrom id) G₂ (G₂.withItem .close) :=
    typed_withItem G₂ (tE.typing.frame rfl rfl (fun _ h => h) rfl) (by simp) rfl fun hl => absurd hl hL
  have tR : p.Typed (p.Within p.Local id) (p.VarOf id) (p.ReturnsFrom id) _ _ :=
    typed_withConstantsWritten (G₂.withItem .close) tC.typing hL
  have tR := tR.trans (typed_withBlank _ tR.typing)
  have tR := tR.trans (typed_withRuntimeWritten _ tR.typing hL)
  change p.Typed _ _ _ (G₂.withItem .close) (p.bodyEnd f g g₁) at tR
  have hpre : g₁.mark.code <+: (p.bodyEnd f g g₁).mark.code := tE.grows.trans (tC.trans tR).grows
  have hΓ := defs_sub_of_grows hpre
  have hcode : (p.bodyEnd f g g₁).mark.code = g.mark.code ++ (p.headerOf f :: .entry ::
      (spillItems ((p.symbols.signature f).params.map p.symbols.symbol) ++ (p.bodyStart f g).added g₁ ++
        g₁.added (g₁.withEpilogue (p.symbols.signature f).result) ++ .close :: (G₂.withItem .close).added
          (p.bodyEnd f g g₁))) := by
    rw [tR.code_eq, show (G₂.withItem .close).mark.code = G₂.mark.code ++ [.close] by simp [Item.code]]
    show (g₁.withEpilogue _).mark.code ++ _ ++ _ = _
    rw [tE.code_eq, t₁.code_eq, hcB]
    simp
  have hX : p.Within p.Local b → ∀ it ∈ (p.bodyStart f g).added g₁,
      p.BodyItem (defs (p.bodyEnd f g g₁).mark.code) (p.symbols.signature f).params (p.VarOf b) (p.ReturnsFrom b) it :=
    fun hl it hit => hsB ▸ (t₁.body hl it hit).mono hΓ (fun _ h => h) fun _ h => h
  have hE : ∀ it ∈ g₁.added (g₁.withEpilogue (p.symbols.signature f).result),
      p.BodyItem (defs (p.bodyEnd f g g₁).mark.code) (p.symbols.signature f).params (fun _ => False)
        (fun t => t = (p.symbols.signature f).result) it :=
    fun it hit => (t₁.spilled.trans hsB) ▸ (tE.body trivial it hit).mono (defs_sub_of_grows (tC.trans tR).grows)
      (fun _ h => h) fun _ h => h
  have hfun : p.FunctionAt (defs (p.bodyEnd f g g₁).mark.code) g.mark.code (p.headerOf f)
      (spillItems ((p.symbols.signature f).params.map p.symbols.symbol) ++ (p.bodyStart f g).added g₁ ++
        g₁.added (g₁.withEpilogue (p.symbols.signature f).result) ++ .close :: (G₂.withItem .close).added
          (p.bodyEnd f g g₁)) := by
    refine ⟨id, f, b, hn, rfl, ⟨n + 1, g, _, _, rfl, he, hcode, List.prefix_refl _⟩,
      fun hl => ⟨_, _, rfl, fun hc => ?_, functionTyped_of_parts hl (hX hl) hE (hcov hl)⟩⟩
    rcases List.mem_append.mp hc with hc | hc
    · rcases List.mem_append.mp hc with hc | hc
      · exact close_not_mem_spillItems _ hc
      · exact hX hl _ hc
    · exact hE _ hc
  have hl : (p.bodyEnd f g g₁).layout = g.layout := (tC.trans tR).layout.trans (tE.layout.trans (t₁.layout.trans hlB))
  refine ⟨.of_append _ tR.typing (tR.spilled.trans tC.spilled) hl hcode (Chunks.function (by simp [headerOf]) hfun ?_)
    (fun hl => absurd hl hL), fun hl => absurd hl hL⟩
  have hclose : (G₂.withItem .close).mark.code = g.mark.code ++ [p.headerOf f, .entry] ++
      (spillItems ((p.symbols.signature f).params.map p.symbols.symbol) ++ (p.bodyStart f g).added g₁ ++
        g₁.added (g₁.withEpilogue (p.symbols.signature f).result)) ++ [.close] := by
    refine List.append_cancel_right (tR.code_eq.symm.trans (hcode.trans ?_))
    simp
  refine Chunks.append (fun _ _ _ more h => h.append more) (Chunks.append (fun _ _ _ more h => h.append more)
    (Chunks.append (fun _ _ _ more h => h.append more) (.of_entry_not_mem (entry_not_mem_spillItems _))
      ((t₁.chunks.mono fun _ _ _ h => h.mono hΓ).rebase (by rw [hcB]; simp)))
      (.of_entry_not_mem fun he => tE.body trivial _ he))
    (Chunks.cons (by simp) ((tR.chunks.mono fun _ _ _ h => h).rebase hclose))

end Program

end Lowering
