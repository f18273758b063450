import Lowering.Proofs.Typing

/-!
# Typed runs of the generator

A generator defines each register once: a register's counter for its base only grows, and every register defined so
far has an index below the next one. Its bookkeeping stays typed: the strings it owns are string registers, and the
operand recorded for an expression node has the type of the node's value. `Program.Typing` is that invariant.

`Program.Typed` says what a run appends, started from a generator with the invariant: it keeps the invariant and the
spilled parameters, every entry label it writes begins a function of the unit, and, inside a function body, it writes
labels and instructions whose operands are typed, whose calls are typed as their callees, whose stores store
variables that the lowered node refers to and whose returns return what the node's return statements return.
Runs compose, and each step of the generator that cannot fail is such a run.
-/

namespace Lowering

open Ir Generator

namespace Generator

/-- The code a generator appended to reach another. -/
def added (g g' : Generator) : List Item := g'.mark.code.drop g.mark.code.length

/-- What a generator appended is the code after the code it started from. -/
theorem added_of_eq {g g' : Generator} {seg : List Item} (h : g'.mark.code = g.mark.code ++ seg) : g.added g' = seg := by
  simp [added, h]

variable (g : Generator)

/-- An instruction takes no register. -/
@[simp] theorem withInstr_counters (i : Instr) : (g.withInstr i).counters = g.counters := by
  unfold withInstr; split <;> rfl

/-- An instruction owns no string. -/
@[simp] theorem withInstr_owned (i : Instr) : (g.withInstr i).owned = g.owned := by
  unfold withInstr; split <;> rfl

/-- An instruction records no operand. -/
@[simp] theorem withInstr_values (i : Instr) : (g.withInstr i).values = g.values := by
  unfold withInstr; split <;> rfl

/-- An instruction keeps the generator's layout. -/
@[simp] theorem withInstr_layout (i : Instr) : (g.withInstr i).layout = g.layout := by
  unfold withInstr; split <;> rfl

/-- After an instruction the block is open. -/
@[simp] theorem withInstr_closed (i : Instr) : (g.withInstr i).closed = false := by
  unfold withInstr
  split
  · rfl
  · simp_all [withItem]

/-- Writing an instruction appends it, after a label when the block has ended. -/
theorem code_withInstr (i : Instr) :
    (g.withInstr i).mark.code = g.mark.code ++ ((if g.closed then [.label ⟨g.labels⟩] else []) ++ [.instr i]) := by
  rw [mark_withInstr, Mark.instr]
  cases hc : g.closed <;> simp [hc]

/-- An instruction leaves every register counter alone. -/
@[simp] theorem nextIndex_withInstr (i : Instr) (b : String) : (g.withInstr i).nextIndex b = g.nextIndex b := by
  simp [nextIndex]

/-- A terminator appends itself, at a fresh label if the block has ended. -/
theorem code_withTerminator (i : Instr) :
    (g.withTerminator i).mark.code = g.mark.code ++ ((if g.closed then [.label ⟨g.labels⟩] else []) ++ [.instr i]) :=
  code_withInstr g i

/-- Taking a register of a base counts it in that base only. -/
theorem nextIndex_withFresh (b b' : String) :
    (g.withFresh b).nextIndex b' = if b = b' then g.nextIndex b + 1 else g.nextIndex b' := by
  simp only [nextIndex, withFresh, Std.HashMap.getD_insert, beq_iff_eq]
  split <;> rfl

end Generator

namespace Program

/-- What an instruction written in a function body may do beyond reading typed operands: a call is typed as its
callee, a store stores a variable in S at the variable's address, a return returns a type in R. -/
def InstrFrom (p : Program) (spilled : List SymbolId) (S : SymbolId → Prop) (R : Ty → Prop) : Instr → Prop
  | .call d r callee args => p.CallTyped (.call d r callee args)
  | .store t _ a => ∃ s, S s ∧ t = (p.symbols.symbol s).ty ∧ a = p.addressOf spilled s
  | .ret t _ => R t
  | _ => True

/-- An item of a function body: a label, or an instruction whose operands are typed by Γ, and which does what
InstrFrom allows. -/
def BodyItem (p : Program) (Γ : List (Reg × IrTy)) (spilled : List SymbolId) (S : SymbolId → Prop) (R : Ty → Prop) :
    Item → Prop
  | .label _ => True
  | .instr i => (∀ u ∈ i.uses, ValueTyped Γ [] u.1 u.2) ∧ p.InstrFrom spilled S R i
  | _ => False

/-- An operand has the IR type of an expression node's value, if the node's type is known. -/
def OperandTyped (p : Program) (Γ : List (Reg × IrTy)) (id : NodeId) (v : Value) : Prop :=
  ∀ t, p.ast.ty? id = some t → ValueTyped Γ [] v (p.valueTy id t)

/-- An operand typed by some definitions is typed by more. -/
theorem OperandTyped.mono {p : Program} {Γ Γ' : List (Reg × IrTy)} {id : NodeId} {v : Value}
    (h : p.OperandTyped Γ id v) (hΓ : ∀ x ∈ Γ, x ∈ Γ') : p.OperandTyped Γ' id v :=
  fun t ht => (h t ht).mono hΓ fun _ h => h

/-- The indices of the registers of a base that definitions define, in order. -/
def indicesOf (b : String) (Γ : List (Reg × IrTy)) : List Nat :=
  Γ.filterMap fun x => if x.1.base = b then some x.1.index else none

/-- The indices of a base in definitions one after another are those of each, in order. -/
@[simp] theorem indicesOf_append (b : String) (Γ Γ' : List (Reg × IrTy)) :
    indicesOf b (Γ ++ Γ') = indicesOf b Γ ++ indicesOf b Γ' := List.filterMap_append

/-- The registers of a generator are defined once each, below their counters, those of each base numbered from one
in the order they are defined, without gaps; and its bookkeeping is typed: owned strings are string registers, and
the operand recorded for an expression node has the type of the node's value. -/
structure Typing (p : Program) (g : Generator) : Prop where
  counted : ∀ x ∈ defs g.mark.code, x.1.index < g.nextIndex x.1.base
  distinct : ((defs g.mark.code).map Prod.fst).Nodup
  numbered : ∀ b, indicesOf b (defs g.mark.code) = List.range' 1 (g.nextIndex b - 1)
  owned : ∀ r ∈ g.owned, (r, IrTy.ptr) ∈ defs g.mark.code
  values : ∀ id v, g.values[id]? = some v → p.OperandTyped (defs g.mark.code) id v

/-- A run from a generator with the invariant: it keeps the invariant and the spilled parameters, it appends code
whose entry labels begin functions of the unit, and when L holds, the code is body code whose stores store variables
in S and whose returns return types in R. -/
structure Typed (p : Program) (L : Prop) (S : SymbolId → Prop) (R : Ty → Prop) (g g' : Generator) : Prop where
  typing : p.Typing g'
  spilled : g'.spilled = g.spilled
  layout : g'.layout = g.layout
  grows : g.mark.code <+: g'.mark.code
  chunks : Chunks (p.FunctionAt (defs g'.mark.code)) g.mark.code (g.added g')
  body : L → ∀ it ∈ g.added g', p.BodyItem (defs g'.mark.code) g.spilled S R it

variable {p : Program} {Γ Γ' : List (Reg × IrTy)}

/-- A function typed by some definitions is typed by more. -/
theorem FunctionTyped.mono {f : FunctionId} {b : NodeId} {body : List Item} (h : p.FunctionTyped Γ f b body)
    (hΓ : ∀ x ∈ Γ, x ∈ Γ') : p.FunctionTyped Γ' f b body :=
  ⟨fun i hi u hu => (h.operands i hi u hu).mono hΓ fun _ h => h, h.calls, h.stores, h.returns⟩

/-- A function of the unit typed by some definitions is typed by more. -/
theorem FunctionAt.mono {before : List Item} {hdr : Item} {rest : List Item} (h : p.FunctionAt Γ before hdr rest)
    (hΓ : ∀ x ∈ Γ, x ∈ Γ') : p.FunctionAt Γ' before hdr rest := by
  obtain ⟨id, f, b, hn, hh, hw, hb⟩ := h
  refine ⟨id, f, b, hn, hh, hw, fun hl => ?_⟩
  obtain ⟨body, post, hr, hc, ht⟩ := hb hl
  exact ⟨body, post, hr, hc, ht.mono hΓ⟩

/-- A function stays one with more code after it. -/
theorem FunctionAt.append {before : List Item} {hdr : Item} {rest : List Item} (h : p.FunctionAt Γ before hdr rest)
    (more : List Item) : p.FunctionAt Γ before hdr (rest ++ more) := by
  obtain ⟨id, f, b, hn, hh, hw, hb⟩ := h
  refine ⟨id, f, b, hn, hh, hw.append more, fun hl => ?_⟩
  obtain ⟨body, post, rfl, hc, ht⟩ := hb hl
  exact ⟨body, post ++ more, by simp, hc, ht⟩

/-- A body item stays one with more definitions, more variables it may store and more types it may return. -/
theorem BodyItem.mono {spilled : List SymbolId} {S S' : SymbolId → Prop} {R R' : Ty → Prop} {it : Item}
    (h : p.BodyItem Γ spilled S R it) (hΓ : ∀ x ∈ Γ, x ∈ Γ') (hS : ∀ s, S s → S' s) (hR : ∀ t, R t → R' t) :
    p.BodyItem Γ' spilled S' R' it := by
  match it, h with
  | .label _, _ => trivial
  | .instr i, ⟨hu, hi⟩ =>
    refine ⟨fun u hm => (hu u hm).mono hΓ fun _ h => h, ?_⟩
    cases i with
    | store t v a =>
      obtain ⟨s, hs, ht, ha⟩ := hi
      exact ⟨s, hS s hs, ht, ha⟩
    | ret t v => exact hR t hi
    | _ => exact hi

/-! ## The invariant -/

namespace Typing

variable {g g' : Generator}

/-- A step that defines no register, takes no counter and records nothing keeps the invariant, when the strings it
owns were owned before. -/
theorem frame (h : p.Typing g) (hd : defs g'.mark.code = defs g.mark.code) (hn : g'.counters = g.counters)
    (ho : ∀ r ∈ g'.owned, r ∈ g.owned) (hv : g'.values = g.values) : p.Typing g' where
  counted x hx := by
    rw [hd] at hx
    simpa only [nextIndex, hn] using h.counted x hx
  distinct := hd ▸ h.distinct
  numbered b := by
    rw [hd]
    simpa only [nextIndex, hn] using h.numbered b
  owned r hr := hd ▸ h.owned r (ho r hr)
  values id v hid := hd ▸ h.values id v (hv ▸ hid)

/-- Defining the next register of a base keeps the invariant: its index is the counter, which then moves past it. -/
theorem define {i : Instr} {b : String} {τ : IrTy} (h : p.Typing g) (hi : i.def? = some (g.nextReg b, τ)) :
    p.Typing ((g.withFresh b).withInstr i) := by
  have hd : defs ((g.withFresh b).withInstr i).mark.code = defs g.mark.code ++ [(g.nextReg b, τ)] := by
    rw [code_withInstr]
    split <;> simp [hi]
  -- the new register is not among the old ones, whose indices are below the counter
  have hnew : g.nextReg b ∉ (defs g.mark.code).map Prod.fst := by
    intro hm
    obtain ⟨x, hx, hx1⟩ := List.mem_map.mp hm
    have hlt := h.counted x hx
    rw [hx1] at hlt
    exact Nat.lt_irrefl _ hlt
  have hnext : ∀ b', g.nextIndex b' ≤ ((g.withFresh b).withInstr i).nextIndex b' := by
    intro b'
    rw [nextIndex_withInstr, nextIndex_withFresh]
    split
    · rename_i he
      rw [he]
      exact Nat.le_succ _
    · exact Nat.le_refl _
  refine ⟨?_, ?_, ?_, ?_, ?_⟩
  · intro x hx
    rw [hd, List.mem_append, List.mem_singleton] at hx
    rcases hx with hx | rfl
    · exact Nat.lt_of_lt_of_le (h.counted x hx) (hnext _)
    · rw [nextIndex_withInstr, nextIndex_withFresh]
      simp [nextReg]
  · rw [hd, List.map_append, List.nodup_append]
    exact ⟨h.distinct, by simp, fun x hx y hy hxy => hnew (by simp_all)⟩
  · -- the base's numbering goes on with the counter; the other bases keep theirs
    intro b'
    rw [hd, indicesOf_append, h.numbered b', nextIndex_withInstr, nextIndex_withFresh]
    by_cases hb : b = b'
    · subst hb
      have hn : indicesOf b [(g.nextReg b, τ)] = [g.nextIndex b] := by simp [indicesOf, nextReg]
      rw [if_pos rfl, hn, show g.nextIndex b = g.counters.getD b 0 + 1 from rfl, Nat.add_sub_cancel,
        Nat.add_sub_cancel, List.range'_concat, Nat.one_mul, Nat.add_comm]
    · simp [indicesOf, nextReg, hb]
  · intro r hr
    rw [hd]
    exact List.mem_append_left _ (h.owned r (by simpa [withFresh] using hr))
  · intro id v hid
    exact hd ▸ (h.values id v (by simpa [withFresh] using hid)).mono fun x hx => List.mem_append_left _ hx

/-- Writing an instruction that defines no register keeps the invariant. -/
theorem withInstr {i : Instr} (h : p.Typing g) (hi : i.def? = none) : p.Typing (g.withInstr i) := by
  have hd : defs (g.withInstr i).mark.code = defs g.mark.code := by
    rw [code_withInstr]
    split <;> simp [hi]
  exact h.frame hd (by simp) (by simp) (by simp)

/-- Recording an operand of the type of a node's value keeps the invariant. -/
theorem withValue {id : NodeId} {v : Value} (h : p.Typing g) (hv : p.OperandTyped (defs g.mark.code) id v) :
    p.Typing (g.withValue id v) where
  counted := h.counted
  distinct := h.distinct
  numbered := h.numbered
  owned := h.owned
  values id' v' hid := by
    simp only [Generator.withValue, Std.HashMap.getElem?_insert, beq_iff_eq] at hid
    split at hid
    · rename_i he
      cases hid
      exact he ▸ hv
    · exact h.values id' v' hid

/-- Owning a string register keeps the invariant. -/
theorem withOwned {r : Reg} (h : p.Typing g) (hr : (r, IrTy.ptr) ∈ defs g.mark.code) : p.Typing (g.withOwned r) where
  counted := h.counted
  distinct := h.distinct
  numbered := h.numbered
  owned r' hr' := by
    rcases List.mem_append.mp hr' with hr' | hr'
    · exact h.owned r' hr'
    · rw [List.mem_singleton.mp hr']
      exact hr
  values := h.values

end Typing

/-! ## Runs -/

namespace Typed

variable {L L' : Prop} {S S' : SymbolId → Prop} {R R' : Ty → Prop} {g g' g₁ g₂ : Generator}

/-- A run that appends code is typed when the code's functions and body items are. -/
theorem of_append (seg : List Item) (hT : p.Typing g') (hs : g'.spilled = g.spilled) (hl : g'.layout = g.layout)
    (hc : g'.mark.code = g.mark.code ++ seg) (hch : Chunks (p.FunctionAt (defs g'.mark.code)) g.mark.code seg)
    (hb : L → ∀ it ∈ seg, p.BodyItem (defs g'.mark.code) g.spilled S R it) : p.Typed L S R g g' :=
  ⟨hT, hs, hl, ⟨seg, hc.symm⟩, (added_of_eq hc) ▸ hch, (added_of_eq hc) ▸ hb⟩

/-- A run that appends body items only. -/
theorem of_body (seg : List Item) (hT : p.Typing g') (hs : g'.spilled = g.spilled) (hl : g'.layout = g.layout)
    (hc : g'.mark.code = g.mark.code ++ seg) (hb : ∀ it ∈ seg, p.BodyItem (defs g'.mark.code) g.spilled S R it) :
    p.Typed L S R g g' :=
  of_append seg hT hs hl hc (Chunks.of_entry_not_mem fun he => hb _ he) fun _ => hb

/-- A run that writes no code, defines no register and records nothing. -/
theorem of_frame (h : p.Typing g) (hm : g'.mark.code = g.mark.code) (hn : g'.counters = g.counters)
    (ho : ∀ r ∈ g'.owned, r ∈ g.owned) (hv : g'.values = g.values) (hs : g'.spilled = g.spilled)
    (hl : g'.layout = g.layout) : p.Typed L S R g g' :=
  of_body [] (h.frame (by rw [hm]) hn ho hv) hs hl (by simp [hm]) (by simp)

/-- Doing nothing is a typed run. -/
theorem refl (h : p.Typing g) : p.Typed L S R g g := of_frame h rfl rfl (fun _ h => h) rfl rfl rfl

/-- A typed run appends what it added. -/
theorem code_eq (h : p.Typed L S R g g') : g'.mark.code = g.mark.code ++ g.added g' := by
  obtain ⟨t, ht⟩ := h.grows
  rw [added_of_eq ht.symm, ht]

/-- A typed run keeps the definitions before it. -/
theorem defs_sub (h : p.Typed L S R g g') : ∀ x ∈ defs g.mark.code, x ∈ defs g'.mark.code := by
  rw [h.code_eq, defs_append]
  exact fun x hx => List.mem_append_left _ hx

/-- Two typed runs, one after the other, make a typed run. -/
theorem trans (h₁ : p.Typed L S R g g₁) (h₂ : p.Typed L S R g₁ g₂) : p.Typed L S R g g₂ := by
  have hc : g₂.mark.code = g.mark.code ++ (g.added g₁ ++ g₁.added g₂) := by
    rw [h₂.code_eq, h₁.code_eq, List.append_assoc]
  refine of_append _ h₂.typing (h₂.spilled.trans h₁.spilled) (h₂.layout.trans h₁.layout) hc ?_ ?_
  · exact Chunks.append (fun _ _ _ more h => h.append more) (h₁.chunks.mono fun _ _ _ h => h.mono h₂.defs_sub)
      (h₂.chunks.rebase h₁.code_eq)
  · intro hL it hit
    rcases List.mem_append.mp hit with hit | hit
    · exact (h₁.body hL it hit).mono h₂.defs_sub (fun _ h => h) (fun _ h => h)
    · exact h₁.spilled ▸ h₂.body hL it hit

/-- A typed run stays one with a weaker condition for body code, and more variables and return types allowed. -/
theorem mono (h : p.Typed L S R g g') (hL : L' → L) (hS : ∀ s, S s → S' s) (hR : ∀ t, R t → R' t) :
    p.Typed L' S' R' g g' :=
  ⟨h.typing, h.spilled, h.layout, h.grows, h.chunks, fun hl it hit => (h.body (hL hl) it hit).mono (fun _ h => h) hS hR⟩

end Typed

/-! ## Steps that cannot fail -/

section Steps

variable {L : Prop} {S : SymbolId → Prop} {R : Ty → Prop} (g : Generator)

/-- An instruction with typed operands, at a fresh label or not, writes body items. -/
theorem bodyItems_instr {spilled : List SymbolId} {c : Bool} {l : Label} {i : Instr}
    (hu : ∀ u ∈ i.uses, ValueTyped Γ [] u.1 u.2) (hok : p.InstrFrom spilled S R i) :
    ∀ it ∈ (if c then [.label l] else []) ++ [.instr i], p.BodyItem Γ spilled S R it := by
  intro it hit
  rw [List.mem_append, List.mem_singleton] at hit
  rcases hit with hit | rfl
  · cases c
    · simp at hit
    · rw [List.mem_singleton.mp hit]; trivial
  · exact ⟨hu, hok⟩

/-- Writing an instruction that defines no register, with typed operands. -/
theorem typed_withInstr (i : Instr) (h : p.Typing g) (hi : i.def? = none)
    (hu : ∀ u ∈ i.uses, ValueTyped (defs g.mark.code) [] u.1 u.2) (hok : p.InstrFrom g.spilled S R i) :
    p.Typed L S R g (g.withInstr i) := by
  refine .of_body _ (h.withInstr hi) (by simp) (by simp) (code_withInstr g i) (bodyItems_instr (fun u hm => ?_) hok)
  exact (hu u hm).mono (fun x hx => by rw [code_withInstr, defs_append]; exact List.mem_append_left _ hx) fun _ h => h

/-- Writing an instruction that defines the next register of a base, with typed operands. -/
theorem typed_define (i : Instr) (b : String) {τ : IrTy} (h : p.Typing g) (hi : i.def? = some (g.nextReg b, τ))
    (hu : ∀ u ∈ i.uses, ValueTyped (defs g.mark.code) [] u.1 u.2) (hok : p.InstrFrom g.spilled S R i) :
    p.Typed L S R g ((g.withFresh b).withInstr i) := by
  have hc := code_withInstr (g.withFresh b) i
  simp only [mark_withFresh] at hc
  have hsub : ∀ x ∈ defs g.mark.code, x ∈ defs ((g.withFresh b).withInstr i).mark.code := by
    rw [hc, defs_append]
    exact fun x hx => List.mem_append_left _ hx
  exact .of_body _ (h.define hi) (by simp [withFresh]) (by simp [withFresh]) hc
    (bodyItems_instr (fun u hm => (hu u hm).mono hsub fun _ h => h) hok)

/-- Writing a terminator that defines no register, with typed operands. -/
theorem typed_withTerminator (i : Instr) (h : p.Typing g) (hi : i.def? = none)
    (hu : ∀ u ∈ i.uses, ValueTyped (defs g.mark.code) [] u.1 u.2) (hok : p.InstrFrom g.spilled S R i) :
    p.Typed L S R g (g.withTerminator i) :=
  let t := typed_withInstr g i h hi hu hok
  ⟨t.typing.frame rfl rfl (fun _ h => h) rfl, t.spilled, t.layout, t.grows, t.chunks, t.body⟩

/-- A jump, if the block is open, is a typed run. -/
theorem typed_withJump (l : Label) (h : p.Typing g) : p.Typed L S R g (g.withJump l) := by
  unfold withJump
  split
  · exact .refl h
  · exact typed_withTerminator g (.jump l) h rfl (by simp [Instr.uses]) trivial

/-- A label is a typed run. -/
theorem typed_withLabel (l : Label) (h : p.Typing g) : p.Typed L S R g (g.withLabel l) :=
  .of_body [.label l] (h.frame (by simp) rfl (fun _ h => h) rfl) rfl rfl (by simp)
    (by simp only [List.mem_singleton]; rintro _ rfl; trivial)

/-- Taking labels is a typed run. -/
theorem typed_withLabels (n : Nat) (h : p.Typing g) : p.Typed L S R g (g.withLabels n) :=
  .of_frame h rfl rfl (fun _ h => h) rfl rfl rfl

/-- A banner is a typed run. -/
theorem typed_withBanner (c : Construct) (h : p.Typing g) : p.Typed L S R g (g.withBanner c) := by
  refine .of_frame h (by simp) ?_ ?_ ?_ ?_ ?_ <;> unfold withBanner <;> split <;> simp

/-- A blank line is a typed run. -/
theorem typed_withBlank (h : p.Typing g) : p.Typed L S R g g.withBlank :=
  .of_frame h (by simp) rfl (fun _ h => h) rfl rfl rfl

/-- Opening a string scope is a typed run. -/
theorem typed_withScope (h : p.Typing g) : p.Typed L S R g g.withScope :=
  .of_frame h rfl rfl (fun _ h => h) rfl rfl rfl

/-- Marking the runtime used is a typed run. -/
theorem typed_withRuntime (h : p.Typing g) : p.Typed L S R g g.withRuntime :=
  .of_frame h rfl rfl (fun _ h => h) rfl rfl rfl

/-- Queueing a constant is a typed run. -/
theorem typed_withConstant (r : Reg) (bytes : List UInt8) (h : p.Typing g) : p.Typed L S R g (g.withConstant r bytes) :=
  .of_frame h rfl rfl (fun _ h => h) rfl rfl rfl

/-- Dropping the innermost scope is a typed run. -/
theorem typed_withoutInner (h : p.Typing g) : p.Typed L S R g g.withoutInner :=
  .of_frame h rfl rfl (fun _ h => List.mem_of_mem_take h) rfl rfl rfl

/-- Recording an operand of the node's type is a typed run. -/
theorem typed_withValue {id : NodeId} {v : Value} (h : p.Typing g) (hv : p.OperandTyped (defs g.mark.code) id v) :
    p.Typed L S R g (g.withValue id v) :=
  .of_body [] (h.withValue hv) rfl rfl (by simp [Generator.withValue, mark]) (by simp)

/-- Owning a string register is a typed run. -/
theorem typed_withOwned {r : Reg} (h : p.Typing g) (hr : (r, IrTy.ptr) ∈ defs g.mark.code) :
    p.Typed L S R g (g.withOwned r) :=
  .of_body [] (h.withOwned hr) rfl rfl (by simp) (by simp)

/-- Freeing string registers. -/
theorem typed_withFrees {rs : List Reg} (h : p.Typing g) (hr : ∀ r ∈ rs, (r, IrTy.ptr) ∈ defs g.mark.code) :
    p.Typed L S R g (g.withFrees rs) := by
  induction rs generalizing g with
  | nil => exact .refl h
  | cons r rs ih =>
    have h₁ : p.Typed L S R g { g.withInstr (.free (.reg r)) with runtimeUsed := true } :=
      let t := typed_withInstr g (.free (.reg r)) h rfl
        (by simpa [Instr.uses, ValueTyped] using hr r List.mem_cons_self) trivial
      ⟨t.typing.frame rfl rfl (fun _ h => h) rfl, t.spilled, t.layout, t.grows, t.chunks, t.body⟩
    exact h₁.trans (ih _ h₁.typing fun r' hr' => h₁.defs_sub _ (hr r' (List.mem_cons_of_mem r hr')))

/-- Closing a string scope frees owned strings, which are string registers. -/
theorem typed_withoutScope (h : p.Typing g) : p.Typed L S R g g.withoutScope := by
  unfold withoutScope
  split
  · have h₁ : p.Typed L S R g { g with marks := g.marks.tail, owned := g.owned.take (g.marks.headD 0) } :=
      .of_frame h rfl rfl (fun _ h => List.mem_of_mem_take h) rfl rfl rfl
    split
    · exact h₁
    · exact h₁.trans (typed_withFrees _ h₁.typing fun r hr => h₁.defs_sub _ (h.owned r (List.mem_of_mem_drop hr)))
  · exact .of_frame h rfl rfl (fun _ h => h) rfl rfl rfl

end Steps

end Program

end Lowering
