import Mathlib
import Lowering.Proofs.OwnedRules
import Lowering.Proofs.TypedFunctions

/-!
# Function definitions keep string ownership

A definition lowers its body in a generator that owns no string and has no scope open, after the spills of its
parameters; if the body falls off its end, the epilogue frees every string the function still owns and returns zero
(null for a string function). When the body has only local nodes, the run of the body places each label once, with
the strings owned there, so one assignment of owned strings to labels agrees with all of them; the code from the entry
label to the closing brace then flows from the entry, owning nothing, and every path through it keeps the rules of
string ownership (`stringsManaged_of_flow`).
-/

namespace Lowering

open Ir Generator

namespace Generator

variable (g : Generator)

/-- Spilling the parameters owns no string. -/
@[simp] theorem foldl_withSpill_owned (ps : List Symbol) : (ps.foldl withSpill g).owned = g.owned := by
  induction ps generalizing g with
  | nil => rfl
  | cons s ps ih => simp [ih, withSpill]

/-- Spilling the parameters opens and closes no string scope. -/
@[simp] theorem foldl_withSpill_marks (ps : List Symbol) : (ps.foldl withSpill g).marks = g.marks := by
  induction ps generalizing g with
  | nil => rfl
  | cons s ps ih => simp [ih, withSpill]

/-- Items are appended as the code they are. -/
theorem code_withItems (is : List Item) : (g.withItems is).mark.code = g.mark.code ++ is.flatMap Item.code := by
  induction is generalizing g with
  | nil => simp [withItems]
  | cons i is ih =>
    show (List.foldl withItem (g.withItem i) is).mark.code = _
    rw [← withItems, ih]
    simp

end Generator

/-- Spilling parameters defines no register and frees nothing. -/
theorem flow_spills (S : Label → List Reg) (L : List Reg) (ps : List Symbol) (rest : List Item) :
    flow S (some (L, none)) (spillItems ps ++ rest) = flow S (some (L, none)) rest := by
  induction ps with
  | nil => rfl
  | cons s ps ih =>
    simp only [spillItems, List.flatMap_cons, List.cons_append, List.nil_append] at ih ⊢
    rw [flow_instr rfl, Instr.passOwned_of_dst_none rfl (by simp), Option.bind_some, flow_instr rfl,
      Instr.passOwned_of_dst_none rfl (by simp), Option.bind_some]
    exact ih

/-- With each label listed once, looking a label up gives the strings listed with it. -/
theorem lookup_of_nodup {M : List (Label × List Reg)} (h : (M.map Prod.fst).Nodup) {x : Label × List Reg}
    (hx : x ∈ M) : M.lookup x.1 = some x.2 := by
  induction M with
  | nil => simp at hx
  | cons y M ih =>
    obtain ⟨hy, h⟩ := List.nodup_cons.mp h
    rcases List.mem_cons.mp hx with rfl | hx
    · simp [List.lookup]
    · have hne : (x.1 == y.1) = false := beq_eq_false_iff_ne.mpr fun he => hy (he ▸ List.mem_map_of_mem hx)
      simp [List.lookup, hne, ih h hx]

/-- Labels listed once each, with the strings owned where they are placed, agree with one assignment. -/
theorem agrees_lookup {M : List (Label × List Reg)} (h : (M.map Prod.fst).Nodup) :
    Agrees (fun l => (M.lookup l).getD []) M :=
  fun x hx => by simp [lookup_of_nodup h hx]

namespace Program

variable {p : Program} {L : Prop} {X M : List (Label × List Reg)} {g g' : Generator}

/-- A body starts owning no string, with no scope open. -/
theorem owning_bodyStart (f : FunctionId) (g : Generator) : (p.bodyStart f g).Owning :=
  .of_nil (by simp [bodyStart]) (by simp [bodyStart])

/-- The epilogue of a body with no scope open: in an open block, every owned string is freed and zero returned. -/
theorem owned_withEpilogue (r : Ty) (hT : g.Owning) (hm : g.marks = []) : p.Owned L X [] g (g.withEpilogue r) := by
  unfold withEpilogue
  split
  · exact .refl hT
  · rename_i hc
    let G := { g with owned := [] }
    have hT' : ((G.withFrees g.owned).withTerminator (.ret r (zero r))).Owning :=
      ⟨by simp [G], by simp [G], by simp [G, hm], by simp [G, hm]⟩
    have hcode : ((G.withFrees g.owned).withTerminator (.ret r (zero r))).mark.code =
        g.mark.code ++ (g.owned.map (fun r => .instr (.free (.reg r))) ++ [.instr (.ret r (zero r))]) := by
      rw [code_withFrees_withTerminator]
      simp only [show G.closed = false by simpa [G] using hc, Bool.false_eq_true, if_false, List.nil_append]
      rfl
    refine .of_append _ hT' hcode (Chunks.of_entry_not_mem (by simp)) (by simp) (fun _ => by simp)
      (fun _ => by simp [hm]) (fun _ => by simp [Item.placed]) fun _ S _ _ o ho => ⟨none, ?_, rfl⟩
    cases o with
    | none => exact absurd ho hc
    | some s =>
      obtain ⟨-, hs⟩ := ho
      obtain ⟨s₁, c⟩ := s
      obtain rfl : s₁ = g.owned := hs
      rw [flow_frees hT.nodup (fun _ h => h), OwnedAux.foldl_erase_self hT.nodup]
      cases r <;> simp [flow, returnOk, zero]

/-! ## What a unit writes outside its functions -/

section Tail

variable (hL : ¬L)
include hL

/-- Items other than entry labels keep ownership. -/
theorem owned_withItems (is : List Item) (hT : g.Owning) (hi : ∀ i ∈ is, i ≠ .entry) :
    p.Owned L X [] g (g.withItems is) := by
  induction is generalizing g with
  | nil => exact .refl hT
  | cons i is ih =>
    have h₁ : p.Owned L X [] g (g.withItem i) := owned_withItem g i hT hL (hi i List.mem_cons_self)
    exact h₁.trans (ih h₁.owning fun j hj => hi j (List.mem_cons_of_mem i hj))

/-- Writing the queued constants keeps ownership. -/
theorem owned_withConstantsWritten (hT : g.Owning) : p.Owned L X [] g g.withConstantsWritten := by
  have h₁ : p.Owned L X [] g { g with pending := #[] } := .of_frame hT rfl rfl rfl rfl fun _ => Nat.le_refl _
  refine h₁.trans (owned_withItems hL _ h₁.owning fun i hi => ?_)
  obtain ⟨⟨r, bytes⟩, -, rfl⟩ := List.mem_map.mp hi
  simp

/-- Writing the runtime's prototypes keeps ownership. -/
theorem owned_withRuntimeWritten (hT : g.Owning) : p.Owned L X [] g g.withRuntimeWritten := by
  unfold withRuntimeWritten
  split
  · have h₁ : p.Owned L X [] g _ := owned_withItems hL (Helper.all.map .helper) hT fun i hi => by
      obtain ⟨x, -, rfl⟩ := List.mem_map.mp hi
      simp
    have h₂ : p.Owned L X [] g (g.withItems (Helper.all.map .helper)).withBlank :=
      h₁.trans (.of_frame h₁.owning (by simp) rfl rfl rfl fun _ => Nat.le_refl _)
    exact h₂.trans (.of_frame h₂.owning rfl rfl rfl rfl fun _ => Nat.le_refl _)
  · exact .refl hT

/-- After a function's closing brace: the string constants, a blank line, and the runtime's prototypes if owed. -/
theorem owned_afterClose (hT : g.Owning) : p.Owned L X [] g (g.withConstantsWritten.withBlank.withRuntimeWritten) :=
  let h₁ : p.Owned L X [] g _ := owned_withConstantsWritten hL hT
  let h₂ : p.Owned L X [] g g.withConstantsWritten.withBlank :=
    h₁.trans (.of_frame h₁.owning (by simp) rfl rfl rfl fun _ => Nat.le_refl _)
  h₂.trans (owned_withRuntimeWritten hL h₂.owning)

end Tail

/-! ## A definition -/

/-- Emitting a definition, outside any function body, writes a function of the unit at its place: its head, then a
body that, when the body's node reaches only local nodes, keeps string ownership along every path, then its closing
brace. -/
theorem owned_lowerDefinition {n : Nat} {id : NodeId} {f : FunctionId} {b : NodeId}
    (hn : p.ast.get? id = some (.stmt (.define f b)))
    (hb : ∀ {g g'}, Runs ((p.walk n).emit b) g () g' → p.EmitOwned b g g')
    (hs : ∀ {g g'}, Runs ((p.walk n).emit b) g () g' → p.BodySpan b g g')
    (he : Runs ((p.walk (n + 1)).emit id) g () g') : p.EmitOwned id g g' := by
  intro hT
  have hL : ¬p.Within p.Local id := fun hl => hl.node hn
  obtain ⟨g₁, h₁, rfl⟩ := runs_lowerDefinition ((runs_emitNode_stmt hn).mp he)
  obtain ⟨hcB, hclB⟩ : _ ∧ (p.bodyStart f g).closed = false := code_bodyStart f g
  obtain ⟨M, t₁⟩ := hb h₁ (owning_bodyStart f g)
  -- the body closes every scope it opens, so the epilogue finds none open
  have hm₁ : g₁.marks = [] := List.suffix_nil.mp (by simpa [bodyStart] using t₁.shrinks)
  let E := g₁.withEpilogue (p.symbols.signature f).result
  have tE : p.Owned (p.Within p.Local b) [] (M ++ []) (p.bodyStart f g) E :=
    t₁.trans (owned_withEpilogue _ t₁.owning hm₁)
  let G₂ : Generator := { E with spilled := g.spilled, depth := E.depth - 1, closed := false }
  have tC : p.Owned (p.Within p.Local id) [] [] G₂ (G₂.withItem .close) :=
    owned_withItem G₂ .close (tE.owning.frame rfl rfl fun _ => Nat.le_refl _) hL (by simp)
  have tR : p.Owned (p.Within p.Local id) [] [] (G₂.withItem .close) (p.bodyEnd f g g₁) :=
    owned_afterClose hL tC.owning
  let body := spillItems ((p.symbols.signature f).params.map p.symbols.symbol) ++ (p.bodyStart f g).added E
  have hcode : (p.bodyEnd f g g₁).mark.code =
      g.mark.code ++ (p.headerOf f :: .entry :: (body ++ .close :: (G₂.withItem .close).added (p.bodyEnd f g g₁))) := by
    rw [tR.code_eq, show (G₂.withItem .close).mark.code = E.mark.code ++ [.close] by
      rw [mark_withItem, Mark.write_code]; rfl, tE.code_eq, hcB]
    simp [body]
  have hfun : p.OwnedAt g.mark.code (p.headerOf f) (body ++ .close :: (G₂.withItem .close).added (p.bodyEnd f g g₁)) := by
    refine ⟨id, f, b, hn, rfl, ⟨n + 1, g, _, _, rfl, he, hcode, List.prefix_refl _⟩,
      fun hl => ⟨body, _, rfl, ?_, fun tr hp => ?_⟩⟩
    · obtain ⟨-, -, seg, hseg, ⟨hrun, -⟩, -⟩ := ((hs h₁ hl).then_ (BlocksAux.span_withEpilogue g₁ _) :
        Span .body [] [] (p.bodyStart f g).mark E.mark)
      rw [← added_of_eq hseg] at hrun
      simp only [body, List.mem_append, not_or]
      exact ⟨close_not_mem_spillItems _, BlocksAux.close_not_mem_of_blockRun hrun⟩
    · -- each label of the body is placed once, so the strings owned where it is placed are well defined
      obtain ⟨-, -, seg, hseg, -, hfresh⟩ := ((hs h₁ hl).then_ (BlocksAux.span_withEpilogue g₁ _) :
        Span .body [] [] (p.bodyStart f g).mark E.mark)
      have hnd : ((M ++ []).map Prod.fst).Nodup := by
        rw [tE.labels hl, added_of_eq hseg]
        exact hfresh.nodup
      obtain ⟨o, hf, -⟩ := tE.flows hl _ (agrees_lookup hnd) (by simp [Agrees]) (some ([], none))
        ⟨hclB, by simp [bodyStart]⟩
      exact stringsManaged_of_flow (by rw [flow_spills]; exact hf) hp
  refine ⟨[], .of_not hL (tC.trans tR).owning ⟨_, hcode.symm⟩ ?_ ?_⟩
  · rw [added_of_eq hcode]
    have hclose : (G₂.withItem .close).mark.code = g.mark.code ++ [p.headerOf f, .entry] ++ body ++ [.close] := by
      refine List.append_cancel_right (tR.code_eq.symm.trans (hcode.trans ?_))
      simp
    refine Chunks.function (by simp [headerOf]) hfun ?_
    refine Chunks.append (fun _ _ _ more h => h.append more) (Chunks.append (fun _ _ _ more h => h.append more)
      (.of_entry_not_mem (entry_not_mem_spillItems _)) (tE.chunks.rebase (by rw [hcB]; simp)))
      (Chunks.cons (by simp) (tR.chunks.rebase hclose))
  · have hE : E.marks = [] := by
      simp only [E, withEpilogue]
      split <;> simp [hm₁]
    have hs' : (p.bodyEnd f g g₁).marks <:+ [] := by simpa [G₂, hE] using (tC.trans tR).shrinks
    rw [List.suffix_nil.mp hs']
    exact List.nil_suffix

end Program

end Lowering
