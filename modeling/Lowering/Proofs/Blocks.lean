import Lowering.Proofs.Listing

/-!
# Basic blocks and labels

Lowering keeps a block discipline. An instruction written after a terminator opens a block at a fresh label first; a
fall-through jump is left out once the block has ended; a construct places each of its labels right after a
terminator; and a function body that may fall off its end gets a return. All labels come from one counter, and each
construct places each of its own labels once.

A run of lowering appends code to the listing, and `Span` says what that code is like. Inside a function body it keeps
the block discipline and every branch target is placed in it; at the top level it is plain code and whole function
definitions whose bodies are of the first kind. In both, each label it places is placed once, and is one the run made
or one of the construct's own. Each rule gives a `Span` when the nodes it refers to do, and `walk_induction` carries
that to every walk. Main statement: `compile_blocks`.
-/

namespace Lowering

open Ir Generator

namespace Ir

/-- Whether an item may stand at the top level of a unit outside a function: anything but a function's header, its
entry label and its closing brace. -/
def Item.plain : Item → Bool
  | .header .. | .entry | .close => false
  | _ => true

/-- An instruction that does not end its block continues nowhere else. -/
theorem Instr.targets_eq_nil {i : Instr} (h : i.terminates = false) : i.targets = [] := by
  cases i <;> simp_all [Instr.terminates, Instr.targets]

end Ir

/-- Code at the top level of a unit: plain items, and whole function definitions, each a header, the entry label, a
body that keeps the block discipline from the entry up to an ended block and whose branch targets are placed in it,
and the closing brace. -/
inductive TopCode : List Item → Prop
  | nil : TopCode []
  | plain {i : Item} {rest : List Item} : i.plain = true → TopCode rest → TopCode (i :: rest)
  | function {result : Ty} {name : String} {params : List (Ty × String)} {body rest : List Item} :
      blockRun false body = some true → (∀ l ∈ targets body, l ∈ placed body) → TopCode rest →
      TopCode (.header result name params :: .entry :: body ++ .close :: rest)

/-- Where code is written: at the top level of the unit, or inside a function body. -/
inductive Region where
  | top
  | body

/-- Code appended in a region, from one block state to another: at the top level, top-level code; in a body, code
that keeps the block discipline and whose branch targets are placed in it or are among `exits`. -/
def Region.Code : Region → Bool → Bool → List Label → List Item → Prop
  | .top, _, _, _, seg => TopCode seg
  | .body, c, c', exits, seg => blockRun c seg = some c' ∧ ∀ l ∈ targets seg, l ∈ placed seg ∨ l ∈ exits

/-- The labels appended code places: each once; the labels `own`, made before, all among them; and every other one
made while the code was written, from `lo` up to `hi`. -/
structure Fresh (own : List Label) (lo hi : Nat) (seg : List Item) : Prop where
  nodup : (placed seg).Nodup
  own_placed : ∀ l ∈ own, l ∈ placed seg
  placed_mem : ∀ l ∈ placed seg, l ∈ own ∨ (lo ≤ l.index ∧ l.index < hi)
  own_lt : ∀ l ∈ own, l.index < lo

/-- What a run from mark `a` to mark `b` appended: code of the region with fresh labels, where `own` are the labels of
the enclosing construct that it placed and `exits` the targets it left to the construct. -/
structure Span (m : Region) (exits own : List Label) (a b : Mark) : Prop where
  layout : b.layout = a.layout
  le : a.labels ≤ b.labels
  appended : ∃ seg, b.code = a.code ++ seg ∧ m.Code a.closed b.closed exits seg ∧ Fresh own a.labels b.labels seg

namespace BlocksAux

/-- Top-level code followed by top-level code is top-level code. -/
theorem topCode_append {a b : List Item} (ha : TopCode a) (hb : TopCode b) : TopCode (a ++ b) := by
  induction ha with
  | nil => exact hb
  | plain hi _ ih => exact .plain hi ih
  | function hr ht _ ih => simpa using TopCode.function hr ht ih

/-- Code of a region followed by code of the region, from where the first left the block, is code of the region. -/
theorem code_append {m : Region} {c₁ c₂ c₃ : Bool} {exits : List Label} {a b : List Item} (ha : m.Code c₁ c₂ exits a)
    (hb : m.Code c₂ c₃ exits b) : m.Code c₁ c₃ exits (a ++ b) := by
  cases m with
  | top => exact topCode_append ha hb
  | body =>
    refine ⟨by rw [blockRun_append, ha.1]; exact hb.1, ?_⟩
    intro l hl
    simp only [targets_append, placed_append, List.mem_append] at hl ⊢
    rcases hl with hl | hl
    · exact (ha.2 l hl).imp .inl id
    · exact (hb.2 l hl).imp .inr id

/-- Code of a region stays so with more exits allowed. -/
theorem code_mono {m : Region} {c c' : Bool} {exits exits' : List Label} {seg : List Item} (h : m.Code c c' exits seg)
    (hs : ∀ l ∈ exits, l ∈ exits') : m.Code c c' exits' seg := by
  cases m with
  | top => exact h
  | body => exact ⟨h.1, fun l hl => (h.2 l hl).imp id (hs l)⟩

/-- Code of plain items that keeps the block discipline is top-level code. -/
theorem topCode_of_blockRun {c c' : Bool} {seg : List Item} (h : blockRun c seg = some c') : TopCode seg := by
  induction seg generalizing c with
  | nil => exact .nil
  | cons i seg ih =>
    cases i with
    | label l =>
      simp only [blockRun] at h
      split at h
      · exact .plain rfl (ih h)
      · cases h
    | instr i =>
      simp only [blockRun] at h
      split at h
      · cases h
      · exact .plain rfl (ih h)
    | _ => simp [blockRun] at h

/-- Code that keeps the block discipline holds no closing brace. -/
theorem close_not_mem_of_blockRun {c c' : Bool} {seg : List Item} (h : blockRun c seg = some c') : .close ∉ seg := by
  induction seg generalizing c with
  | nil => simp
  | cons i seg ih =>
    cases i with
    | label l =>
      simp only [blockRun] at h
      split at h
      · simpa using ih h
      · cases h
    | instr i =>
      simp only [blockRun] at h
      split at h
      · cases h
      · simpa using ih h
    | _ => simp [blockRun] at h

/-- Each function body of top-level code keeps the block discipline from its entry up to an ended block, and its
branch targets are placed in it. -/
theorem bodies_of_topCode {code : List Item} (h : TopCode code) :
    ∀ body ∈ bodies code, blockRun false body = some true ∧ ∀ l ∈ targets body, l ∈ placed body := by
  induction h with
  | nil => simp
  | plain hi _ ih =>
    rw [bodies_cons (by rintro rfl; cases hi) _]
    exact ih
  | function hr ht _ ih =>
    rw [List.cons_append, bodies_cons (by simp) _, bodies_function (close_not_mem_of_blockRun hr) _,
      bodies_cons (by simp) _]
    intro body hb
    rcases List.mem_cons.mp hb with rfl | hb
    · exact ⟨hr, ht⟩
    · exact ih body hb

/-- Code appended after code whose placed labels are fresh, placing only labels made after it. -/
theorem fresh_append {o : List Label} {lo mid hi : Nat} {a b : List Item} (ha : Fresh o lo mid a)
    (hb : Fresh [] mid hi b) (hle : lo ≤ mid) (hle' : mid ≤ hi) : Fresh o lo hi (a ++ b) := by
  refine ⟨?_, fun l hl => by simpa using .inl (ha.own_placed l hl), ?_, ha.own_lt⟩
  · rw [placed_append, List.nodup_append]
    refine ⟨ha.nodup, hb.nodup, ?_⟩
    intro x hx y hy hxy
    subst hxy
    have hy' := (hb.placed_mem x hy).resolve_left (by simp)
    rcases ha.placed_mem x hx with hx' | hx'
    · have := ha.own_lt x hx'
      omega
    · omega
  · intro l hl
    rw [placed_append, List.mem_append] at hl
    rcases hl with hl | hl
    · rcases ha.placed_mem l hl with h | h
      · exact .inl h
      · exact .inr ⟨h.1, by omega⟩
    · rcases hb.placed_mem l hl with h | h
      · simp at h
      · exact .inr ⟨by omega, h.2⟩

/-- No code is code of every region. -/
theorem code_nil {m : Region} {c : Bool} {exits : List Label} : m.Code c c exits [] := by
  cases m with
  | top => exact .nil
  | body => exact ⟨rfl, by simp⟩

/-- No code places no label, and so only fresh ones. -/
theorem fresh_nil {lo hi : Nat} : Fresh [] lo hi [] := ⟨by simp, by simp, by simp, by simp⟩

/-- Which labels code places is all that freshness depends on. -/
theorem fresh_of_placed {o : List Label} {lo hi : Nat} {s s' : List Item} (hp : placed s' = placed s)
    (f : Fresh o lo hi s) : Fresh o lo hi s' :=
  ⟨hp ▸ f.nodup, fun l hl => hp ▸ f.own_placed l hl, fun l hl => f.placed_mem l (hp ▸ hl), f.own_lt⟩

/-- An instruction written from a block state: into the current block, or into a fresh block at the next label. -/
theorem span_instr_seg {m : Region} {exits : List Label} (a : Mark) (i : Instr) (c' : Bool) (hc : i.terminates = c')
    (ht : ∀ l ∈ i.targets, l ∈ exits) : Span m exits [] a { a.instr i with closed := c' } := by
  have htc : ∀ l ∈ targets [.instr i], l ∈ exits := by simpa [Item.targets] using ht
  unfold Mark.instr
  cases hcl : a.closed with
  | true =>
    refine ⟨by simp, by simp, [.label ⟨a.labels⟩, .instr i], by simp, ?_, ?_⟩
    · cases m with
      | top => exact .plain rfl (.plain rfl .nil)
      | body =>
        refine ⟨by simp [blockRun, hcl, hc], fun l hl => .inr ?_⟩
        simp only [targets_cons, Item.targets, targets_nil, List.append_nil, List.nil_append] at hl
        exact ht l hl
    · refine ⟨by simp [Item.placed], by simp, ?_, by simp⟩
      simp [Item.placed]
  | false =>
    refine ⟨by simp, by simp, [.instr i], by simp, ?_, ?_⟩
    · cases m with
      | top => exact .plain rfl .nil
      | body => exact ⟨by simp [blockRun, hcl, hc], fun l hl => .inr (htc l hl)⟩
    · exact ⟨by simp [Item.placed], by simp, by simp [Item.placed], by simp⟩

end BlocksAux

namespace Span

open BlocksAux

variable {m : Region} {exits own : List Label} {a b c : Mark}

/-- Doing nothing appends no code. -/
theorem refl (a : Mark) : Span m exits [] a a := ⟨rfl, Nat.le_refl _, [], by simp, code_nil, fresh_nil⟩

/-- A run followed by a run that places none of the construct's labels. -/
theorem then_ (h₁ : Span m exits own a b) (h₂ : Span m exits [] b c) : Span m exits own a c := by
  obtain ⟨hl₁, hle₁, s₁, e₁, c₁, f₁⟩ := h₁
  obtain ⟨hl₂, hle₂, s₂, e₂, c₂, f₂⟩ := h₂
  exact ⟨hl₂.trans hl₁, Nat.le_trans hle₁ hle₂, s₁ ++ s₂, by rw [e₂, e₁, List.append_assoc], code_append c₁ c₂,
    fresh_append f₁ f₂ hle₁ hle₂⟩

/-- A run followed by the placing of one of the construct's labels, made before the run, after a terminator. -/
theorem then_label (h : Span m exits own a b) (l : Label) (hc : b.closed = true) (hl : l.index < a.labels)
    (hn : l ∉ own) : Span m exits (own ++ [l]) a (b.label l) := by
  obtain ⟨hla, hle, s, e, cs, f⟩ := h
  have hls : l ∉ placed s := fun hm => by
    rcases f.placed_mem l hm with h | h
    · exact hn h
    · omega
  have cl : m.Code b.closed (b.label l).closed exits [.label l] := by
    cases m with
    | top => exact .plain rfl .nil
    | body => exact ⟨by simp [blockRun, hc], by simp [Item.targets]⟩
  refine ⟨by simpa using hla, by simpa using hle, s ++ [.label l], by simp [e], code_append cs cl, ?_, ?_, ?_, ?_⟩
  · simpa [Item.placed, List.nodup_append] using ⟨f.nodup, fun x hx hxl => hls (hxl ▸ hx)⟩
  · intro x hx
    simp only [List.mem_append, List.mem_singleton] at hx
    rcases hx with hx | rfl
    · simpa using .inl (f.own_placed x hx)
    · simp [Item.placed]
  · intro x hx
    simp only [placed_append, placed_cons, Item.placed, placed_nil, List.append_nil, List.mem_append,
      List.mem_singleton] at hx
    rcases hx with hx | rfl
    · rcases f.placed_mem x hx with h | h
      · exact .inl (List.mem_append_left _ h)
      · exact .inr (by simpa using h)
    · exact .inl (by simp)
  · intro x hx
    simp only [List.mem_append, List.mem_singleton] at hx
    rcases hx with hx | rfl
    · exact f.own_lt x hx
    · exact hl

/-- A span stays one with more exits allowed. -/
theorem mono (h : Span m exits own a b) {exits' : List Label} (hs : ∀ l ∈ exits, l ∈ exits') : Span m exits' own a b := by
  obtain ⟨hla, hle, s, e, cs, f⟩ := h
  exact ⟨hla, hle, s, e, code_mono cs hs, f⟩

/-- A construct: it makes its labels first, places them all, and leaves no target to anyone else. -/
theorem close {n : Nat} (h : Span m exits own (a.alloc n) b) (he : ∀ l ∈ exits, l ∈ own)
    (ho : ∀ l ∈ own, a.labels ≤ l.index) : Span m [] [] a b := by
  obtain ⟨hla, hle, s, e, cs, f⟩ := h
  simp only [Mark.alloc_layout, Mark.alloc_labels, Mark.alloc_code, Mark.alloc_closed] at hla hle e cs f
  refine ⟨hla, by omega, s, e, ?_, f.nodup, by simp, ?_, by simp⟩
  · cases m with
    | top => exact cs
    | body => exact ⟨cs.1, fun l hl => .inl ((cs.2 l hl).elim id fun h => f.own_placed l (he l h))⟩
  · intro l hl
    rcases f.placed_mem l hl with h | h
    · exact .inr ⟨ho l h, by have := f.own_lt l h; omega⟩
    · exact .inr ⟨by omega, h.2⟩

/-- Code that keeps the block discipline is top-level code. -/
theorem top_of_body (h : Span .body exits own a b) : Span .top [] own a b := by
  obtain ⟨hla, hle, s, e, cs, f⟩ := h
  exact ⟨hla, hle, s, e, topCode_of_blockRun cs.1, f⟩

end Span

/-! ## The steps that write code -/

namespace BlocksAux

variable {m : Region} {exits : List Label}

/-- An instruction that does not terminate is appended to the block, at a fresh label if the block has ended. -/
theorem span_instr {i : Instr} (hi : i.terminates = false) (a : Mark) : Span m exits [] a (a.instr i) := by
  have e : { a.instr i with closed := false } = a.instr i := by
    unfold Mark.instr
    split <;> rfl
  rw [← e]
  exact span_instr_seg a i false hi (by simp [Instr.targets_eq_nil hi])

/-- A terminator whose targets are exits ends the block. -/
theorem span_terminate {i : Instr} (hi : i.terminates = true) (ht : ∀ l ∈ i.targets, l ∈ exits) (a : Mark) :
    Span m exits [] a (a.terminate i) :=
  span_instr_seg a i true hi ht

/-- A plain item that places no label is top-level code. -/
theorem span_write {i : Item} (hi : i.plain = true) (hl : i.placed = []) (a : Mark) : Span .top exits [] a (a.write i) := by
  have hp : placed i.code = [] := by cases i <;> simp_all [Item.code]
  refine ⟨rfl, Nat.le_refl _, i.code, rfl, ?_, by simp [hp], by simp, by simp [hp], by simp⟩
  cases i <;> first | exact .nil | exact .plain hi .nil

/-- Frees are appended to the block. -/
theorem span_frees (rs : List Reg) (a : Mark) : Span m exits [] a (rs.foldl (fun a r => a.instr (.free (.reg r))) a) := by
  induction rs generalizing a with
  | nil => exact .refl a
  | cons r rs ih => exact (span_instr rfl a).then_ (ih _)

variable (g : Generator)

/-- A generator's instruction that does not terminate appends to the block. -/
theorem span_withInstr (i : Instr) (hi : i.terminates = false) : Span m exits [] g.mark (g.withInstr i).mark := by
  rw [mark_withInstr]
  exact span_instr hi _

/-- A generator's terminator whose targets are exits ends the block. -/
theorem span_withTerminator (i : Instr) (hi : i.terminates = true) (ht : ∀ l ∈ i.targets, l ∈ exits) :
    Span m exits [] g.mark (g.withTerminator i).mark := by
  rw [mark_withTerminator]
  exact span_terminate hi ht _

/-- A jump to an exit ends the block, if it is open. -/
theorem span_withJump (l : Label) (hl : l ∈ exits) : Span m exits [] g.mark (g.withJump l).mark := by
  rw [mark_withJump]
  split
  · exact .refl _
  · exact span_terminate rfl (by simpa [Instr.targets] using hl) _

/-- A generator's frees are appended to the block. -/
theorem span_withFrees (rs : List Reg) : Span m exits [] g.mark (g.withFrees rs).mark := by
  rw [mark_withFrees]
  exact span_frees rs _

/-- Closing a string scope appends its frees to the block. -/
theorem span_withoutScope : Span m exits [] g.mark g.withoutScope.mark := by
  unfold withoutScope
  split
  · split
    · exact .refl _
    · exact span_withFrees { g with marks := g.marks.tail, owned := g.owned.take (g.marks.headD 0) } _
  · exact .refl _

/-- A terminator ends the generator's open block. -/
@[simp] theorem withTerminator_closed (i : Instr) : (g.withTerminator i).closed = true := rfl

/-- After a jump the block has ended, whether or not the jump was written. -/
@[simp] theorem withJump_closed (l : Label) : (g.withJump l).closed = true := by
  unfold withJump
  split
  · assumption
  · rfl

/-- Plain items that place no label are top-level code. -/
theorem span_withItems (is : List Item) (hi : ∀ i ∈ is, i.plain = true ∧ i.placed = []) :
    Span .top exits [] g.mark (g.withItems is).mark := by
  induction is generalizing g with
  | nil => exact .refl _
  | cons i is ih =>
    have hi' := hi i (List.mem_cons_self ..)
    have s₁ : Span .top exits [] g.mark (g.withItem i).mark := by
      rw [mark_withItem]
      exact span_write hi'.1 hi'.2 _
    exact s₁.then_ (ih _ fun j hj => hi j (List.mem_cons_of_mem _ hj))

/-- The queued constants are top-level code. -/
theorem span_withConstantsWritten : Span .top exits [] g.mark g.withConstantsWritten.mark :=
  span_withItems { g with pending := #[] } _ fun i hi => by
    obtain ⟨⟨r, bytes⟩, -, rfl⟩ := List.mem_map.mp hi
    exact ⟨rfl, rfl⟩

/-- The runtime's prototypes are top-level code. -/
theorem span_withRuntimeWritten : Span .top exits [] g.mark g.withRuntimeWritten.mark := by
  unfold withRuntimeWritten
  split
  · show Span .top exits [] g.mark (g.withItems (Helper.all.map .helper)).withBlank.mark
    rw [mark_withBlank]
    exact span_withItems g _ fun i hi => by
      obtain ⟨h, -, rfl⟩ := List.mem_map.mp hi
      exact ⟨rfl, rfl⟩
  · exact .refl _

/-- The spills are appended to the block. -/
theorem span_spills (ps : List Symbol) : Span m exits [] g.mark (ps.foldl withSpill g).mark := by
  induction ps generalizing g with
  | nil => exact .refl _
  | cons s ps ih => exact ((span_withInstr g _ rfl).then_ (span_withInstr _ _ rfl)).then_ (ih _)

/-- The epilogue of a body ends its last block. -/
theorem span_withEpilogue (r : Ty) : Span m exits [] g.mark (g.withEpilogue r).mark := by
  unfold withEpilogue
  split
  · exact .refl _
  · exact (span_withFrees { g with owned := [] } _).then_ (span_withTerminator _ _ rfl (by simp [Instr.targets]))

/-- After the epilogue the block has ended. -/
@[simp] theorem withEpilogue_closed (r : Ty) : (g.withEpilogue r).closed = true := by
  unfold withEpilogue
  split
  · assumption
  · rfl

/-- Handing a value over appends to the block. -/
theorem span_handOver {t : Ty} {v : Value} {r : Value × Option Nat} {g' : Generator}
    (h : Runs (Program.handOver t v) g r g') : Span m exits [] g.mark g'.mark := by
  rcases Program.runs_handOver h with ⟨-, _, -, -, rfl⟩ | ⟨-, -, -, rfl⟩ | ⟨-, -, rfl⟩
  · exact .refl _
  · simpa using span_instr rfl _
  · exact .refl _

end BlocksAux

open BlocksAux in
/-- A function definition at the top level: a body that keeps the block discipline from its entry up to an ended
block, between its header and its closing brace. -/
theorem Span.function {a₀ a b : Mark} {r : Ty} {n : String} {ps : List (Ty × String)} (h : Span .body [] [] a b)
    (ha : a = { (a₀.write (.header r n ps)).write .entry with closed := false }) (hc : b.closed = true) :
    Span .top [] [] a₀ ({ b with closed := false }.write .close) := by
  subst ha
  obtain ⟨hla, hle, s, e, ⟨hr, ht⟩, f⟩ := h
  refine ⟨hla, hle, .header r n ps :: .entry :: s ++ [.close], ?_, ?_, ?_⟩
  · simp only [Mark.write_code, e]
    simp [Item.code]
  · rw [hc] at hr
    exact .function hr (fun l hl => (ht l hl).resolve_right (by simp)) .nil
  · exact fresh_of_placed (by simp [Item.placed]) f

/-- The closing brace of a definition, written by a generator whose mark is the body's with the block state reset. -/
theorem span_withClose {a₀ a : Mark} {r : Ty} {n : String} {ps : List (Ty × String)} {G : Generator}
    (h : Span .body [] [] a G.mark) (ha : a = { (a₀.write (.header r n ps)).write .entry with closed := false })
    (hc : G.closed = true) (G' : Generator) (hG : G'.mark = { G.mark with closed := false }) :
    Span .top [] [] a₀ (G'.withItem .close).mark := by
  rw [mark_withItem, hG]
  exact h.function ha hc

/-! ## Expressions -/

namespace Program

open BlocksAux

variable {p : Program} {w : Walk} {m : Region} {g g' : Generator}

section Expressions

/- Expression lowering writes instructions that do not end a block, so in any region it appends code with fresh
labels, given that lowering the expression nodes it refers to does. -/
variable (hx : ∀ {id : NodeId} {g : Generator} {v : Value} {g' : Generator}, Runs (w.expr id) g v g' →
  Span m [] [] g.mark g'.mark)
include hx

/-- Lowering an operand appends to the block. -/
theorem span_valueOf {id : NodeId} {v : Value} (h : Runs (p.valueOf w id) g v g') : Span m [] [] g.mark g'.mark := by
  obtain ⟨v₁, g₁, h₁, h₂⟩ := runs_valueOf h
  split at h₂
  · obtain ⟨-, rfl⟩ := h₂
    simpa using (hx h₁).then_ (span_instr rfl _)
  · obtain ⟨-, rfl⟩ := h₂
    exact hx h₁

/-- Lowering a condition appends to the block. -/
theorem span_testOf {id : NodeId} {v : Value} (h : Runs (p.testOf w id) g v g') : Span m [] [] g.mark g'.mark := by
  obtain ⟨t, -, ⟨-, h⟩ | ⟨-, -, v₁, g₁, h₁, -, rfl⟩⟩ := runs_testOf h
  · exact hx h
  · simpa using (span_valueOf hx h₁).then_ (span_instr rfl _)

/-- Lowering the arguments of a call appends to the block. -/
theorem span_arguments {callee : String} {i : Nat} {args : List (NodeId × SymbolId)} {vs : List (Ty × Value)}
    (h : Runs (p.arguments w callee i args) g vs g') : Span m [] [] g.mark g'.mark := by
  induction args generalizing i g vs with
  | nil =>
    obtain ⟨-, rfl⟩ := runs_arguments_nil.mp h
    exact .refl _
  | cons a rest ih =>
    obtain ⟨-, v, g₁, vs', h₁, h₂, -⟩ := runs_arguments_cons h
    exact (span_valueOf hx h₁).then_ (ih h₂)

/-- Lowering an expression by its form, from its operands to the one instruction that makes its value. -/
theorem span_lowerForm {id : NodeId} {e : Expr} {v : Value} (h : Runs (p.lowerForm w id e) g v g') :
    Span m [] [] g.mark g'.mark := by
  cases e with
  | read s =>
    obtain ⟨-, rfl⟩ := runs_lowerForm_read h
    simpa using span_instr rfl _
  | int n =>
    obtain ⟨-, rfl⟩ := runs_lowerForm_int h
    exact .refl _
  | str raw =>
    obtain ⟨-, rfl⟩ := runs_lowerForm_str h
    simpa using span_instr rfl _
  | neg x =>
    obtain ⟨-, v₁, g₁, h₁, -, rfl⟩ := runs_lowerForm_neg h
    simpa using (span_valueOf hx h₁).then_ (span_instr rfl _)
  | arith op l r =>
    obtain ⟨t, -, -, vl, g₁, vr, g₂, h₁, h₂, -, ⟨-, rfl⟩ | ⟨-, -, rfl⟩⟩ := runs_lowerForm_arith h
    · simpa using ((span_valueOf hx h₁).then_ (span_valueOf hx h₂)).then_ (span_instr rfl _)
    · simpa using ((span_valueOf hx h₁).then_ (span_valueOf hx h₂)).then_ (span_instr rfl _)
  | cmp op l r =>
    obtain ⟨t, -, -, vl, g₁, vr, g₂, h₁, h₂, -, ⟨-, rfl⟩ | ⟨-, -, rfl⟩⟩ := runs_lowerForm_cmp h
    · simpa using ((span_valueOf hx h₁).then_ (span_valueOf hx h₂)).then_ (span_instr rfl _)
    · simpa using ((span_valueOf hx h₁).then_ (span_valueOf hx h₂)).then_ (span_instr rfl _)
  | assign s x =>
    obtain ⟨-, g₁, h₁, rfl⟩ := runs_lowerForm_assign h
    simpa using (span_valueOf hx h₁).then_ (span_instr rfl _)
  | call f args =>
    obtain ⟨-, vs, g₁, h₁, -, ⟨-, rfl⟩ | ⟨-, rfl⟩⟩ := runs_lowerForm_call h
    · simpa using (span_arguments hx h₁).then_ (span_instr rfl _)
    · simpa using (span_arguments hx h₁).then_ (span_instr rfl _)

/-- Lowering an expression node appends to the block. -/
theorem span_lowerExpr {id : NodeId} {v : Value} (h : Runs (p.lowerExpr w id) g v g') : Span m [] [] g.mark g'.mark := by
  rcases runs_lowerExpr h with ⟨-, rfl⟩ | ⟨-, e, t, -, h⟩
  · exact .refl _
  · exact span_lowerForm hx h

end Expressions

/-! ## Structured control flow -/

section Constructs

/- A construct makes its labels, places each one right after a terminator, and targets only them; the nodes it
refers to append code with fresh labels. -/
variable (hx : ∀ {id : NodeId} {g : Generator} {v : Value} {g' : Generator}, Runs (w.expr id) g v g' →
  Span m [] [] g.mark g'.mark)
include hx

/-- A choice's code: the test branches to the then arm, which falls through to the end, as does the else arm if
any. -/
theorem span_lowerChoice {c t : NodeId} {e : Option NodeId}
    (he : ∀ {id : NodeId} {g g' : Generator}, (id = t ∨ e = some id) → Runs (w.emit id) g () g' →
      Span m [] [] g.mark g'.mark)
    (h : Runs (p.lowerChoice w c t e) g () g') : Span m [] [] g.mark g'.mark := by
  obtain ⟨v, g₁, g₂, g₃, hc, ht, hel, rfl⟩ := runs_lowerChoice h
  have lift : ∀ {a b : Mark}, Span m [] [] a b → Span m [⟨g.labels⟩, ⟨g.labels + 1⟩, ⟨g.labels + 2⟩] [] a b :=
    fun s => s.mono (by simp)
  have sc := lift (span_testOf hx hc)
  have st := lift (he (.inl rfl) ht)
  simp only [mark_withScope, mark_withLabels, mark_withBanner, mark_withLabel] at sc st
  have s₁ := ((((sc.then_ (span_withoutScope g₁)).then_ (span_withTerminator _ (.branch v ⟨g.labels⟩ ⟨g.labels + 1⟩)
    rfl (by simp [Instr.targets]))).then_label ⟨g.labels⟩ rfl (by simp) (by simp)).then_ st).then_
    (span_withoutScope g₂)
  have s₂ := (s₁.then_ (span_withJump _ ⟨g.labels + 2⟩ (by simp))).then_label ⟨g.labels + 1⟩ (withJump_closed _ _)
    (by simp) (by simp)
  have s₃ : Span m [⟨g.labels⟩, ⟨g.labels + 1⟩, ⟨g.labels + 2⟩] [] ((g₂.withoutScope.withJump ⟨g.labels + 2⟩).mark.label
      ⟨g.labels + 1⟩) g₃.mark := by
    cases e with
    | some e =>
      obtain ⟨g₄, hel, rfl⟩ := hel
      have se := lift (he (.inr rfl) hel)
      simp only [mark_withScope, mark_withLabel] at se
      exact se.then_ (span_withoutScope g₄)
    | none =>
      subst hel
      rw [mark_withLabel]
      exact .refl _
  have s₄ := ((s₂.then_ s₃).then_ (span_withJump _ ⟨g.labels + 2⟩ (by simp))).then_label ⟨g.labels + 2⟩
    (withJump_closed _ _) (by simp) (by simp)
  rw [mark_withLabel]
  exact s₄.close (by simp) (by simp)

/-- A while loop's code: the loop enters its test, which branches to the body or out, and the body leads back to the
test. -/
theorem span_lowerWhile {c b : NodeId}
    (he : ∀ {g g' : Generator}, Runs (w.emit b) g () g' → Span m [] [] g.mark g'.mark)
    (h : Runs (p.lowerWhile w c b) g () g') : Span m [] [] g.mark g'.mark := by
  obtain ⟨v, g₁, g₂, hc, hb, rfl⟩ := runs_lowerWhile h
  have lift : ∀ {a b : Mark}, Span m [] [] a b → Span m [⟨g.labels⟩, ⟨g.labels + 1⟩, ⟨g.labels + 2⟩] [] a b :=
    fun s => s.mono (by simp)
  have sc := lift (span_testOf hx hc)
  have sb := lift (he hb)
  simp only [mark_withScope, mark_withLabel] at sc sb
  have s₀ : Span m [⟨g.labels⟩, ⟨g.labels + 1⟩, ⟨g.labels + 2⟩] _ _ _ :=
    (span_withJump ((g.withBanner .whileLoop).withLabels 3) ⟨g.labels⟩ (by simp)).then_label ⟨g.labels⟩
    (withJump_closed _ _) (by simp) (by simp)
  simp only [mark_withLabels, mark_withBanner] at s₀
  have s₁ := (((s₀.then_ sc).then_ (span_withoutScope g₁)).then_ (span_withTerminator _
    (.branch v ⟨g.labels + 1⟩ ⟨g.labels + 2⟩) rfl (by simp [Instr.targets]))).then_label ⟨g.labels + 1⟩ rfl
    (by simp) (by simp)
  have s₂ := (((s₁.then_ sb).then_ (span_withoutScope g₂)).then_ (span_withJump _ ⟨g.labels⟩ (by simp))).then_label
    ⟨g.labels + 2⟩ (withJump_closed _ _) (by simp) (by simp)
  rw [mark_withLabel]
  exact s₂.close (by simp) (by simp)

/-- A do loop's code: the loop enters its body, which falls through to the test, which branches back to the body or
out. -/
theorem span_lowerDo {b c : NodeId}
    (he : ∀ {g g' : Generator}, Runs (w.emit b) g () g' → Span m [] [] g.mark g'.mark)
    (h : Runs (p.lowerDo w b c) g () g') : Span m [] [] g.mark g'.mark := by
  obtain ⟨g₁, v, g₂, hb, hc, rfl⟩ := runs_lowerDo h
  have lift : ∀ {a b : Mark}, Span m [] [] a b → Span m [⟨g.labels⟩, ⟨g.labels + 1⟩, ⟨g.labels + 2⟩] [] a b :=
    fun s => s.mono (by simp)
  have sb := lift (he hb)
  have sc := lift (span_testOf hx hc)
  simp only [mark_withScope, mark_withLabel] at sb sc
  have s₀ : Span m [⟨g.labels⟩, ⟨g.labels + 1⟩, ⟨g.labels + 2⟩] _ _ _ :=
    (span_withJump ((g.withBanner .doLoop).withLabels 3) ⟨g.labels⟩ (by simp)).then_label ⟨g.labels⟩
    (withJump_closed _ _) (by simp) (by simp)
  simp only [mark_withLabels, mark_withBanner] at s₀
  have s₁ := (((s₀.then_ sb).then_ (span_withoutScope g₁)).then_ (span_withJump _ ⟨g.labels + 1⟩ (by simp))).then_label
    ⟨g.labels + 1⟩ (withJump_closed _ _) (by simp) (by simp)
  have s₂ := (((s₁.then_ sc).then_ (span_withoutScope g₂)).then_ (span_withTerminator _
    (.branch v ⟨g.labels⟩ ⟨g.labels + 2⟩) rfl (by simp [Instr.targets]))).then_label ⟨g.labels + 2⟩ rfl
    (by simp) (by simp)
  rw [mark_withLabel]
  exact s₂.close (by simp) (by simp)

/-- A for loop's code: the start expression runs in the current block, then the loop enters its test, and the body
falls through to the step, which leads back to the test. -/
theorem span_lowerFor {i c s b : NodeId}
    (he : ∀ {g g' : Generator}, Runs (w.emit b) g () g' → Span m [] [] g.mark g'.mark)
    (h : Runs (p.lowerFor w i c s b) g () g') : Span m [] [] g.mark g'.mark := by
  obtain ⟨vi, g₁, v, g₂, g₃, vs, g₄, hi, hc, hb, hs, rfl⟩ := runs_lowerFor h
  have lift : ∀ {a b : Mark}, Span m [] [] a b →
      Span m [⟨g.labels⟩, ⟨g.labels + 1⟩, ⟨g.labels + 2⟩, ⟨g.labels + 3⟩] [] a b :=
    fun s => s.mono (by simp)
  have si := lift (hx hi)
  have sc := lift (span_testOf hx hc)
  have sb := lift (he hb)
  have ss := lift (hx hs)
  simp only [mark_withScope, mark_withLabel, mark_withLabels, mark_withBanner] at si sc sb ss
  have s₀ := ((si.then_ (span_withJump g₁ ⟨g.labels⟩ (by simp))).then_label ⟨g.labels⟩ (withJump_closed _ _)
    (by simp) (by simp)).then_ sc
  have s₁ := ((s₀.then_ (span_withoutScope g₂)).then_ (span_withTerminator _ (.branch v ⟨g.labels + 1⟩ ⟨g.labels + 3⟩)
    rfl (by simp [Instr.targets]))).then_label ⟨g.labels + 1⟩ rfl (by simp) (by simp)
  have s₂ := (((s₁.then_ sb).then_ (span_withoutScope g₃)).then_ (span_withJump _ ⟨g.labels + 2⟩ (by simp))).then_label
    ⟨g.labels + 2⟩ (withJump_closed _ _) (by simp) (by simp)
  have s₃ := (((s₂.then_ ss).then_ (span_withoutScope g₄)).then_ (span_withJump _ ⟨g.labels⟩ (by simp))).then_label
    ⟨g.labels + 3⟩ (withJump_closed _ _) (by simp) (by simp)
  rw [mark_withLabel]
  exact s₃.close (by simp) (by simp)

end Constructs

/-! ## Other instructions -/

section Instructions

variable (hx : ∀ {id : NodeId} {g : Generator} {v : Value} {g' : Generator}, Runs (w.expr id) g v g' →
  Span m [] [] g.mark g'.mark)
include hx

/-- A return writes the code of its value, frees strings and ends the block with the return. -/
theorem span_lowerReturn {x : NodeId} (h : Runs (p.lowerReturn w x) g () g') : Span m [] [] g.mark g'.mark := by
  obtain ⟨t, v, g₁, v', kept, g₂, -, hv, hh, rfl⟩ := runs_lowerReturn h
  rw [mark_withoutInner]
  exact (((span_valueOf hx hv).then_ (span_handOver _ hh)).then_ (span_withFrees _ _)).then_
    (span_withTerminator _ _ rfl (by simp [Instr.targets]))

/-- An expression statement appends to the block. -/
theorem span_eval {e : NodeId} {u : Unit} (h : Runs (discard (w.expr e)) g u g') : Span m [] [] g.mark g'.mark := by
  obtain ⟨v, h⟩ := Runs.discard_iff.mp h
  exact hx h

end Instructions

/-- Declarations write allocations in a body; at the top level they may also write globals. -/
theorem span_lowerDeclarations {syms : List SymbolId} {u : Unit}
    (hl : m = .body → ∀ s ∈ syms, (p.symbols.symbol s).flags.external = false ∧ (p.symbols.symbol s).flags.global = false)
    (h : Runs (p.lowerDeclarations syms) g u g') : Span m [] [] g.mark g'.mark := by
  obtain rfl := runs_lowerDeclarations h
  clear h
  induction syms generalizing g with
  | nil => exact .refl _
  | cons s syms ih =>
    have s₁ : Span m [] [] g.mark (g.withDeclaration (p.symbols.symbol s)).mark := by
      unfold withDeclaration
      split
      · cases m with
        | top => simpa using span_write rfl rfl _
        | body => simp_all
      · split
        · cases m with
          | top => simpa using span_write rfl rfl _
          | body => simp_all
        · exact span_withInstr _ _ rfl
    exact s₁.then_ (ih fun hm x hx => hl hm x (List.mem_cons_of_mem _ hx))

/-- A block's items, one after another, keep the block discipline. -/
theorem span_block {items : List NodeId} {u : Unit}
    (he : ∀ {id : NodeId} {g g' : Generator}, id ∈ items → Runs (w.emit id) g () g' → Span m [] [] g.mark g'.mark)
    (h : Runs (items.forM w.emit) g u g') : Span m [] [] g.mark g'.mark := by
  induction items generalizing g with
  | nil =>
    obtain rfl := Runs.forM_nil.mp h
    exact .refl _
  | cons i items ih =>
    obtain ⟨g₁, h₁, h₂⟩ := Runs.forM_cons.mp h
    exact (he (List.mem_cons_self ..) h₁).then_ (ih (fun hm => he (List.mem_cons_of_mem _ hm)) h₂)

/-- The start of a definition's body: its header and entry, and the spills of its parameters in the entry block. -/
theorem span_bodyStart (f : FunctionId) (g : Generator) :
    Span m [] [] { ((g.withItem (.header (p.symbols.signature f).result (p.symbols.signature f).name
      (((p.symbols.signature f).params.map p.symbols.symbol).map fun s => (s.ty, s.name)))).withItem .entry).mark with
      closed := false } (p.bodyStart f g).mark :=
  span_spills { (g.withItem (.header (p.symbols.signature f).result (p.symbols.signature f).name
      (((p.symbols.signature f).params.map p.symbols.symbol).map fun s => (s.ty, s.name)))).withItem .entry with
    depth := g.depth + 1, closed := false, owned := [], marks := [] } _

/-- A definition writes its header, a body that ends its last block, and its closing brace, then the constants and
runtime prototypes it owes. -/
theorem span_lowerDefinition {f : FunctionId} {b : NodeId} {u : Unit}
    (hb : ∀ {g g' : Generator}, Runs (w.emit b) g () g' → Span .body [] [] g.mark g'.mark)
    (h : Runs (p.lowerDefinition w f b) g u g') : Span .top [] [] g.mark g'.mark := by
  obtain ⟨g₁, h₁, rfl⟩ := runs_lowerDefinition h
  have s₀ : Span .body [] [] _ (p.bodyStart f g).mark := span_bodyStart f g
  simp only [mark_withItem] at s₀
  have s₁ := (s₀.then_ (hb h₁)).then_ (span_withEpilogue g₁ (p.symbols.signature f).result)
  unfold bodyEnd
  refine Span.then_ ?_ (span_withRuntimeWritten _)
  rw [mark_withBlank]
  refine Span.then_ ?_ (span_withConstantsWritten _)
  exact span_withClose s₁ rfl (withEpilogue_closed _ _) _ rfl

end Program


/-! ## Every walk, and the whole unit -/

namespace Program

variable {p : Program} {w : Walk}

/-- What emitting a node appends: top-level code, and the code of a function body when every node it reaches may
stand in one. -/
def EmitSpan (p : Program) (id : NodeId) (g g' : Generator) : Prop :=
  Span .top [] [] g.mark g'.mark ∧ (p.Within p.Local id → Span .body [] [] g.mark g'.mark)

/-- What lowering an expression node appends: code of a function body. -/
def ExprSpan (_ : NodeId) (g : Generator) (_ : Value) (g' : Generator) : Prop := Span .body [] [] g.mark g'.mark

/-- One level of lowering rules appends code with fresh labels in the discipline of its region, given that the walk
one level down does and that every definition's body may stand in a function. -/
theorem spans_step (hdefs : p.BodiesLocal) (hw : w.Sound p.EmitSpan ExprSpan) : (p.step w).Sound p.EmitSpan ExprSpan := by
  have hx : ∀ {id g v g'}, Runs (w.expr id) g v g' → Span .body [] [] g.mark g'.mark := fun h => hw.expr h
  have hxt : ∀ {id g v g'}, Runs (w.expr id) g v g' → Span .top [] [] g.mark g'.mark :=
    fun h => (hw.expr h).top_of_body
  have het : ∀ {id g g'}, Runs (w.emit id) g () g' → Span .top [] [] g.mark g'.mark := fun h => (hw.emit h).1
  refine ⟨fun {id g g'} h => ?_, fun h => span_lowerExpr hx h⟩
  rcases runs_emitNode h with ⟨e, t, hn, ⟨-, rfl⟩ | ⟨-, v, h⟩⟩ | ⟨s, hn, h⟩
  · exact ⟨.refl _, fun _ => .refl _⟩
  · have sb := span_lowerForm hx h
    exact ⟨sb.top_of_body, fun _ => sb⟩
  · -- in a body, the nodes an instruction refers to are reached from it
    have hb : ∀ {c g g'}, c ∈ (Node.stmt s).children → p.Within p.Local id → Runs (w.emit c) g () g' →
        Span .body [] [] g.mark g'.mark :=
      fun hc hl h => (hw.emit h).2 (hl.child hn hc)
    cases s with
    | declare syms =>
      exact ⟨span_lowerDeclarations (fun h => nomatch h) h, fun hl => span_lowerDeclarations (fun _ => hl.node hn) h⟩
    | eval e => exact ⟨span_eval hxt h, fun _ => span_eval hx h⟩
    | ite c t e =>
      refine ⟨span_lowerChoice hxt (fun _ h => het h) h, fun hl => span_lowerChoice hx (fun hc h => hb ?_ hl h) h⟩
      rcases hc with rfl | rfl <;> simp [Node.children]
    | whileLoop c b =>
      exact ⟨span_lowerWhile hxt het h, fun hl => span_lowerWhile hx (hb (by simp [Node.children]) hl) h⟩
    | doLoop b c => exact ⟨span_lowerDo hxt het h, fun hl => span_lowerDo hx (hb (by simp [Node.children]) hl) h⟩
    | forLoop i c st b =>
      exact ⟨span_lowerFor hxt het h, fun hl => span_lowerFor hx (hb (by simp [Node.children]) hl) h⟩
    | ret x => exact ⟨span_lowerReturn hxt h, fun _ => span_lowerReturn hx h⟩
    | block items => exact ⟨span_block (fun _ h => het h) h, fun hl => span_block (fun hm h => hb hm hl h) h⟩
    | prototype f =>
      refine ⟨?_, fun hl => (hl.node hn).elim⟩
      rw [runs_lowerPrototype h, mark_withItem]
      exact BlocksAux.span_write rfl rfl _
    | define f b => exact ⟨span_lowerDefinition (fun h => (hw.emit h).2 (hdefs id f b hn)) h, fun hl => (hl.node hn).elim⟩

/-- Every walk appends code with fresh labels in the discipline of its region. -/
theorem spans_walk (hdefs : p.BodiesLocal) (n : Nat) : (p.walk n).Sound p.EmitSpan ExprSpan :=
  walk_induction _ _ (fun _ hw => spans_step hdefs hw) n

/-- What emitting a node appends when every node it reaches may stand in a function body: code of a body. -/
def BodySpan (p : Program) (id : NodeId) (g g' : Generator) : Prop :=
  p.Within p.Local id → Span .body [] [] g.mark g'.mark

/-- One level of lowering rules appends, for a node whose every reachable node may stand in a body, code of a body
with fresh labels, given that the walk one level down does; nothing is assumed of the other definitions of the
unit. -/
theorem bodySpans_step (hw : w.Sound p.BodySpan ExprSpan) : (p.step w).Sound p.BodySpan ExprSpan := by
  have hx : ∀ {id g v g'}, Runs (w.expr id) g v g' → Span .body [] [] g.mark g'.mark := fun h => hw.expr h
  refine ⟨fun {id g g'} h hl => ?_, fun h => span_lowerExpr hx h⟩
  rcases runs_emitNode h with ⟨e, t, hn, ⟨-, rfl⟩ | ⟨-, v, h⟩⟩ | ⟨s, hn, h⟩
  · exact .refl _
  · exact span_lowerForm hx h
  · have hb : ∀ {c g g'}, c ∈ (Node.stmt s).children → Runs (w.emit c) g () g' → Span .body [] [] g.mark g'.mark :=
      fun hc h => hw.emit h (hl.child hn hc)
    cases s with
    | declare syms => exact span_lowerDeclarations (fun _ => hl.node hn) h
    | eval e => exact span_eval hx h
    | ite c t e =>
      refine span_lowerChoice hx (fun hc h => hb ?_ h) h
      rcases hc with rfl | rfl <;> simp [Node.children]
    | whileLoop c b => exact span_lowerWhile hx (hb (by simp [Node.children])) h
    | doLoop b c => exact span_lowerDo hx (hb (by simp [Node.children])) h
    | forLoop i c st b => exact span_lowerFor hx (hb (by simp [Node.children])) h
    | ret x => exact span_lowerReturn hx h
    | block items => exact span_block (fun hm h => hb hm h) h
    | prototype f => exact (hl.node hn).elim
    | define f b => exact (hl.node hn).elim

/-- Every walk lowers the nodes of a function body to code that keeps the block discipline. -/
theorem bodySpans_walk (n : Nat) : (p.walk n).Sound p.BodySpan ExprSpan :=
  walk_induction _ _ (fun _ hw => bodySpans_step hw) n

open BlocksAux in
/-- When no function body defines or declares a function or declares a global, a unit that compiles, under any layout,
is the rendering of lines in which, blank lines and banners aside: the code of each function, from its entry label to
its closing brace, splits at its labels into basic blocks, each ending in its only terminator; every branch target is
a label of the same function; and no label is placed twice. -/
theorem compile_blocks {layout : Layout} {s : String} (hdefs : p.BodiesLocal) (h : p.compile layout = .ok s) :
    ∃ lines : List Line, s = render layout.indentation lines ∧
      (∀ body ∈ bodies (lines.flatMap Line.code), BasicBlocks (.entry :: body) ∧ ∀ l ∈ targets body, l ∈ placed body) ∧
      (placed (lines.flatMap Line.code)).Nodup := by
  obtain ⟨g, hr, rfl⟩ := runs_of_compile h
  have sr : Span .top [] [] (Generator.new layout).mark g.mark :=
    span_block (fun _ h => ((spans_walk hdefs _).emit h).1) hr
  obtain ⟨hla, -, seg, e, hc, f⟩ := (sr.then_ (span_withConstantsWritten g)).then_ (span_withRuntimeWritten _)
  have hseg : g.withConstantsWritten.withRuntimeWritten.lines.toList.flatMap Line.code = seg := by
    simpa [mark, Generator.new] using e
  refine ⟨g.withConstantsWritten.withRuntimeWritten.lines.toList, ?_, ?_, ?_⟩
  · rw [finish_eq]
    simp only [mark_layout] at hla
    rw [hla]
    rfl
  · rw [hseg]
    intro body hb
    obtain ⟨hr, ht⟩ := bodies_of_topCode hc body hb
    exact ⟨basicBlocks_entry hr, ht⟩
  · rw [hseg]
    exact f.nodup

/-- A function that returns twice, `f () { return 0; return 0; }`: the second return opens a block of its own. -/
def returnTwiceUnit : Program where
  symbols := { functions := #[{ name := "f", result := .int, params := [] }] }
  ast :=
    { nodes := #[.expr (.int 0) (some .int), .stmt (.ret 0), .stmt (.block [1, 1]), .stmt (.define 0 2)]
      roots := #[3] }

/-- The body of `f` defines and declares no function and declares no global. -/
theorem returnTwiceUnit_bodiesLocal : returnTwiceUnit.BodiesLocal := by
  intro id f b h
  match id, h with
  | 3, h =>
    obtain ⟨-, rfl⟩ : f = 0 ∧ b = 2 := by simpa [returnTwiceUnit, Ast.get?] using h.symm
    refine within_of_closed [0, 1, 2] ?_ (by simp)
    intro d hd n hn
    simp only [List.mem_cons, List.not_mem_nil, or_false] at hd
    rcases hd with rfl | rfl | rfl <;> simp [returnTwiceUnit, Ast.get?] at hn <;> subst hn <;>
      simp [Local, Node.children]
  | 0, h | 1, h | 2, h => simp [returnTwiceUnit, Ast.get?] at h
  | _ + 4, h => simp [returnTwiceUnit, Ast.get?] at h

/-- The function that returns twice compiles to code whose second return stands in a block of its own, at a fresh label.
-/
theorem returnTwiceUnit_blocks : returnTwiceUnit.BodiesLocal ∧
    returnTwiceUnit.compile .compact = .ok "define i32 @f() \x7b\nentry:\n  ret i32 0\nLabel_0:\n  ret i32 0\n\x7d\n\n" ∧
    ∃ lines : List Line, "define i32 @f() \x7b\nentry:\n  ret i32 0\nLabel_0:\n  ret i32 0\n\x7d\n\n" =
      render Layout.compact.indentation lines ∧
      (∀ body ∈ bodies (lines.flatMap Line.code), BasicBlocks (.entry :: body) ∧ ∀ l ∈ targets body, l ∈ placed body) ∧
      (placed (lines.flatMap Line.code)).Nodup :=
  have h := compile_eq_ok (by decide +kernel)
  ⟨returnTwiceUnit_bodiesLocal, h, compile_blocks returnTwiceUnit_bodiesLocal h⟩

/-- The lines of a text: what stands between its line breaks. -/
def textLines (s : String) : List String := (s.toList.splitOn '\n').map String.ofList

/-- A function that returns zero, `f () { return 0; }`. -/
def returnZeroUnit : Program where
  symbols := { functions := #[{ name := "f", result := .int, params := [] }] }
  ast := { nodes := #[.expr (.int 0) (some .int), .stmt (.ret 0), .stmt (.define 0 1)], roots := #[2] }

/-- The blocks are those of the lines, not of the text: an indentation that holds a line break splits each indented
line in two. Indented by a branch to `Label_9` and a line break, the entry block of `f` reads as two terminators, and
no line defines the label the first one targets. -/
theorem indentation_breaks_blocks :
    (returnZeroUnit.compile { indentation := "br label %Label_9\n", annotate := false }).toOption.map textLines =
      some ["define i32 @f() \x7b", "entry:", "br label %Label_9", "ret i32 0", "\x7d", "", ""] := by
  decide +kernel

end Program

end Lowering
