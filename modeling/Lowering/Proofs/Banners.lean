import Lowering.Proofs.Annotations
import Lowering.Proofs.Blocks

/-!
# Banners and blank lines of an annotated listing

An annotated listing holds one banner for each structured construct lowered, in the order they are lowered, and every
label in it stands right after a blank line; a compact listing holds no banner at all. `Program.Constructs` says which
constructs lowering a node lowers: its own, then those of the instructions its rule lowers, in order. An instruction
that two places refer to is lowered at each, and counted at each.

`Annotates cs g g'` is what a run that lowered the constructs `cs` does to the annotations; every emit of every walk
does it for the constructs of its node (`annotates_walk`). Together with the plain views of `Lowering.Proofs.Annotations`
this describes the listings a unit compiles to under both choices of annotation: `annotations_add_blanks_and_banners`.
-/

namespace Lowering

open Ir

/-- The construct a line announces, if it is a banner. -/
def Ir.Line.banner? : Line → Option Construct
  | .item _ (.banner c) => some c
  | _ => none

/-- Every label line of a listing stands right after a blank line. -/
def LabelsSpaced (ls : List Line) : Prop :=
  ∀ i k l, ls[i]? = some (.item k (.label l)) → 0 < i ∧ ls[i - 1]? = some .blank

namespace LabelsSpaced

variable {ls : List Line}

/-- An empty listing has its labels spaced. -/
theorem nil : LabelsSpaced [] := fun i k l h => by simp at h

/-- A line that is not a label keeps the labels spaced. -/
theorem append (h : LabelsSpaced ls) {x : Line} (hx : ∀ k l, x ≠ .item k (.label l)) : LabelsSpaced (ls ++ [x]) := by
  intro i k l hi
  rcases Nat.lt_or_ge i ls.length with hlt | hge
  · rw [List.getElem?_append_left hlt] at hi
    obtain ⟨h0, h1⟩ := h i k l hi
    exact ⟨h0, by rwa [List.getElem?_append_left (by omega)]⟩
  · rw [List.getElem?_append_right hge, List.getElem?_singleton] at hi
    split at hi
    · exact absurd (Option.some.inj hi) (hx k l)
    · cases hi

/-- A label right after a blank line keeps the labels spaced. -/
theorem append_label (h : LabelsSpaced ls) (hb : ls.getLast? = some .blank) (k : Nat) (l : Label) :
    LabelsSpaced (ls ++ [.item k (.label l)]) := by
  intro i k' l' hi
  have hne : ls ≠ [] := by
    rintro rfl
    cases hb
  have hlen : 0 < ls.length := List.length_pos_iff.mpr hne
  rcases Nat.lt_or_ge i ls.length with hlt | hge
  · rw [List.getElem?_append_left hlt] at hi
    obtain ⟨h0, h1⟩ := h i k' l' hi
    exact ⟨h0, by rwa [List.getElem?_append_left (by omega)]⟩
  · rw [List.getElem?_append_right hge, List.getElem?_singleton] at hi
    split at hi
    · have hi' : i = ls.length := by omega
      subst hi'
      refine ⟨hlen, ?_⟩
      rw [List.getElem?_append_left (by omega), ← List.getLast?_eq_getElem?, hb]
    · cases hi

end LabelsSpaced

/-- The structured construct an instruction lowers, if any. -/
def Stmt.construct? : Stmt → Option Construct
  | .ite .. => some .choice
  | .whileLoop .. => some .whileLoop
  | .doLoop .. => some .doLoop
  | .forLoop .. => some .forLoop
  | _ => none

/-- The nodes that an instruction's rule lowers as instructions, in the order it lowers them. -/
def Stmt.lowered : Stmt → List NodeId
  | .ite _ t e => t :: e.toList
  | .whileLoop _ b | .doLoop b _ | .forLoop _ _ _ b | .define _ b => [b]
  | .block items => items
  | _ => []

namespace Program

mutual

/-- `p.Constructs id cs`: lowering the node at `id` lowers the structured constructs `cs`, in order. An expression
lowers none; an instruction lowers its own construct, then those of the instructions its rule lowers, in the order it
lowers them. -/
inductive Constructs (p : Program) : NodeId → List Construct → Prop
  | expr {id : NodeId} {e : Expr} {t : Option Ty} : p.ast.get? id = some (.expr e t) → p.Constructs id []
  | stmt {id : NodeId} {s : Stmt} {cs : List Construct} : p.ast.get? id = some (.stmt s) →
      p.ConstructsAll s.lowered cs → p.Constructs id (s.construct?.toList ++ cs)

/-- `p.ConstructsAll ids cs`: lowering the nodes `ids`, in order, lowers the structured constructs `cs`. -/
inductive ConstructsAll (p : Program) : List NodeId → List Construct → Prop
  | nil : p.ConstructsAll [] []
  | cons {id : NodeId} {ids : List NodeId} {cs cs' : List Construct} : p.Constructs id cs →
      p.ConstructsAll ids cs' → p.ConstructsAll (id :: ids) (cs ++ cs')

end

variable {p : Program}

mutual

/-- The constructs that lowering a node lowers are determined by the node. -/
theorem Constructs.unique {id : NodeId} {cs cs' : List Construct} :
    p.Constructs id cs → p.Constructs id cs' → cs = cs'
  | .expr _, .expr _ => rfl
  | .expr h, .stmt h' _ => by rw [h] at h'; cases h'
  | .stmt h _, .expr h' => by rw [h] at h'; cases h'
  | .stmt h hs, .stmt h' hs' => by
    rw [h, Option.some.injEq, Node.stmt.injEq] at h'
    subst h'
    rw [ConstructsAll.unique hs hs']

/-- The constructs that lowering nodes in order lowers are determined by the nodes. -/
theorem ConstructsAll.unique {ids : List NodeId} {cs cs' : List Construct} :
    p.ConstructsAll ids cs → p.ConstructsAll ids cs' → cs = cs'
  | .nil, .nil => rfl
  | .cons h hs, .cons h' hs' => by rw [Constructs.unique h h', ConstructsAll.unique hs hs']

end

end Program

namespace Generator

/-- The constructs that the banners of a generator's lines announce, in order. -/
def banners (g : Generator) : List Construct := g.lines.toList.filterMap Line.banner?

/-- When the generator annotates, every label line written stands right after a blank line. -/
def Spaced (g : Generator) : Prop := g.layout.annotate = true → LabelsSpaced g.lines.toList

end Generator

/-- What a run from `g` to `g'` that lowered the constructs `cs` does to the annotations: the layout stays, the banners
written announce `cs` when annotating and nothing otherwise, and the labels stay spaced. -/
structure Annotates (cs : List Construct) (g g' : Generator) : Prop where
  layout : g'.layout = g.layout
  banners : g'.banners = g.banners ++ if g.layout.annotate then cs else []
  spaced : g.Spaced → g'.Spaced

namespace Annotates

variable {cs cs' : List Construct} {g g' g₁ g₂ : Generator}

/-- Doing nothing lowers no construct. -/
theorem refl (g : Generator) : Annotates [] g g := ⟨rfl, by simp, id⟩

/-- A run that lowers `cs`, then one that lowers `cs'`, lowers both in order. -/
theorem trans (h₁ : Annotates cs g g₁) (h₂ : Annotates cs' g₁ g₂) : Annotates (cs ++ cs') g g₂ where
  layout := h₂.layout.trans h₁.layout
  banners := by
    rw [h₂.banners, h₁.banners, h₁.layout]
    split <;> simp
  spaced := h₂.spaced ∘ h₁.spaced

/-- The constructs lowered may be written another way. -/
theorem congr (h : Annotates cs g g') (e : cs = cs') : Annotates cs' g g' := e ▸ h

/-- A run that lowers no construct, then one that lowers `cs`. -/
theorem nil_trans (h₁ : Annotates [] g g₁) (h₂ : Annotates cs g₁ g₂) : Annotates cs g g₂ := h₁.trans h₂

/-- A run that lowers `cs`, then one that lowers no construct. -/
theorem trans_nil (h₁ : Annotates cs g g₁) (h₂ : Annotates [] g₁ g₂) : Annotates cs g g₂ :=
  (h₁.trans h₂).congr (List.append_nil cs)

/-- A change of bookkeeping alone. -/
theorem of_lines (hl : g'.lines = g.lines) (ho : g'.layout = g.layout) : Annotates [] g g' where
  layout := ho
  banners := by simp [Generator.banners, hl]
  spaced h ha := by
    rw [hl]
    exact h (ho ▸ ha)

/-- A line written that is neither a banner nor a label. -/
theorem push {x : Line} (hl : g'.lines = g.lines.push x) (ho : g'.layout = g.layout) (hb : x.banner? = none)
    (hx : ∀ k l, x ≠ .item k (.label l)) : Annotates [] g g' where
  layout := ho
  banners := by simp [Generator.banners, hl, hb]
  spaced h ha := by
    rw [hl, Array.toList_push]
    exact (h (ho ▸ ha)).append hx

end Annotates

namespace Generator

/-! ## What the steps that cannot fail do to the annotations -/

variable (g : Generator)

/-- An item that is neither a banner nor a label lowers no construct. -/
theorem annotates_withItem {i : Item} (hb : ∀ c, i ≠ .banner c) (hl : ∀ l, i ≠ .label l) :
    Annotates [] g (g.withItem i) :=
  .push rfl rfl (by cases i <;> simp_all [Line.banner?]) fun _ l h => hl l (Line.item.inj h).2

/-- A blank line lowers no construct. -/
theorem annotates_withBlank : Annotates [] g g.withBlank := .push rfl rfl rfl (by simp)

/-- A label lowers no construct, and stands after the blank line written with it when annotating. -/
theorem annotates_withLabel (l : Label) : Annotates [] g (g.withLabel l) where
  layout := rfl
  banners := by
    unfold withLabel banners
    split <;> simp [Line.banner?]
  spaced h ha := by
    have ha' : g.layout.annotate = true := ha
    have hs : LabelsSpaced (g.lines.toList ++ [.blank]) := (h ha').append (by simp)
    unfold withLabel
    rw [if_pos ha', Array.toList_push, Array.toList_push]
    exact hs.append_label (by simp) _ _

/-- A banner announces its construct when annotating, and is not written otherwise. -/
theorem annotates_withBanner (c : Construct) : Annotates [c] g (g.withBanner c) := by
  unfold withBanner
  split
  · rename_i ha
    refine ⟨rfl, by simp [banners, ha]; rfl, fun h _ => ?_⟩
    simp only [Array.toList_push]
    exact ((h ha).append (by simp)).append (by simp)
  · rename_i ha
    exact ⟨rfl, by simp [ha], id⟩

/-- Taking labels lowers no construct. -/
theorem annotates_withLabels (n : Nat) : Annotates [] g (g.withLabels n) := .of_lines rfl rfl

/-- An instruction, at a fresh label if the block has ended, lowers no construct. -/
theorem annotates_withInstr (i : Instr) : Annotates [] g (g.withInstr i) := by
  unfold withInstr
  split
  · exact (annotates_withLabels g 1).nil_trans ((annotates_withLabel _ _).nil_trans (annotates_withItem _ (by simp) (by simp)))
  · exact annotates_withItem _ (by simp) (by simp)

/-- A terminator lowers no construct. -/
theorem annotates_withTerminator (i : Instr) : Annotates [] g (g.withTerminator i) :=
  (annotates_withInstr g i).nil_trans (.of_lines rfl rfl)

/-- A jump lowers no construct. -/
theorem annotates_withJump (l : Label) : Annotates [] g (g.withJump l) := by
  unfold withJump
  split
  · exact .refl g
  · exact annotates_withTerminator g _

/-- Frees lower no construct. -/
theorem annotates_withFrees (rs : List Reg) : Annotates [] g (g.withFrees rs) := by
  induction rs generalizing g with
  | nil => exact .refl g
  | cons r rs ih =>
    rw [withFrees, List.foldl_cons, ← withFrees]
    have h₁ : Annotates [] g { g.withInstr (.free (.reg r)) with runtimeUsed := true } :=
      (annotates_withInstr g _).nil_trans (.of_lines rfl rfl)
    exact h₁.nil_trans (ih _)

/-- Opening a string scope lowers no construct. -/
theorem annotates_withScope : Annotates [] g g.withScope := .of_lines rfl rfl

/-- Closing a string scope, with its frees, lowers no construct. -/
theorem annotates_withoutScope : Annotates [] g g.withoutScope := by
  unfold withoutScope
  split
  · split
    · exact .of_lines rfl rfl
    · have h₁ : Annotates [] g { g with marks := g.marks.tail, owned := g.owned.take (g.marks.headD 0) } :=
        .of_lines rfl rfl
      exact h₁.nil_trans (annotates_withFrees _ _)
  · exact .of_lines rfl rfl

/-- Taking a register lowers no construct. -/
theorem annotates_withFresh (b : String) : Annotates [] g (g.withFresh b) := .of_lines rfl rfl

/-- Recording an operand lowers no construct. -/
theorem annotates_withValue (id : NodeId) (v : Value) : Annotates [] g (g.withValue id v) := .of_lines rfl rfl

/-- Owning a string lowers no construct. -/
theorem annotates_withOwned (r : Reg) : Annotates [] g (g.withOwned r) := .of_lines rfl rfl

/-- Marking the runtime used lowers no construct. -/
theorem annotates_withRuntime : Annotates [] g g.withRuntime := .of_lines rfl rfl

/-- Queueing a constant lowers no construct. -/
theorem annotates_withConstant (r : Reg) (bytes : List UInt8) : Annotates [] g (g.withConstant r bytes) :=
  .of_lines rfl rfl

/-- Dropping the innermost scope lowers no construct. -/
theorem annotates_withoutInner : Annotates [] g g.withoutInner := .of_lines rfl rfl

/-- Items that are neither banners nor labels lower no construct. -/
theorem annotates_withItems {is : List Item} (hi : ∀ i ∈ is, (∀ c, i ≠ .banner c) ∧ ∀ l, i ≠ .label l) :
    Annotates [] g (g.withItems is) := by
  induction is generalizing g with
  | nil => exact .refl g
  | cons i is ih =>
    exact (annotates_withItem g (hi i List.mem_cons_self).1 (hi i List.mem_cons_self).2).nil_trans
      (ih _ fun j hj => hi j (List.mem_cons_of_mem _ hj))

/-- Writing the queued constants lowers no construct. -/
theorem annotates_withConstantsWritten : Annotates [] g g.withConstantsWritten := by
  have h₁ : Annotates [] g { g with pending := #[] } := .of_lines rfl rfl
  refine h₁.nil_trans (annotates_withItems _ fun i hi => ?_)
  obtain ⟨⟨r, bytes⟩, -, rfl⟩ := List.mem_map.mp hi
  simp

/-- Writing the runtime's prototypes lowers no construct. -/
theorem annotates_withRuntimeWritten : Annotates [] g g.withRuntimeWritten := by
  unfold withRuntimeWritten
  split
  · exact (annotates_withItems g (by simp)).nil_trans ((annotates_withBlank _).nil_trans (.of_lines rfl rfl))
  · exact .refl g

/-- A declaration lowers no construct. -/
theorem annotates_withDeclaration (sym : Symbol) : Annotates [] g (g.withDeclaration sym) := by
  unfold withDeclaration
  split
  · exact annotates_withItem g (by simp) (by simp)
  · split
    · exact annotates_withItem g (by simp) (by simp)
    · exact annotates_withInstr g _

/-- A fresh register and the instruction that defines it. -/
theorem annotates_freshInstr (b : String) (i : Instr) : Annotates [] g ((g.withFresh b).withInstr i) :=
  (annotates_withFresh g b).nil_trans (annotates_withInstr _ i)

/-- A fall-through jump, then a label placed. -/
theorem annotates_jumpTo (j l : Label) : Annotates [] g ((g.withJump j).withLabel l) :=
  (annotates_withJump g j).nil_trans (annotates_withLabel _ l)

/-- A two-way branch, then a label placed. -/
theorem annotates_branchTo (v : Value) (l₁ l₂ l : Label) :
    Annotates [] g ((g.withTerminator (.branch v l₁ l₂)).withLabel l) :=
  (annotates_withTerminator g _).nil_trans (annotates_withLabel _ l)

/-- The epilogue lowers no construct. -/
theorem annotates_withEpilogue (t : Ty) : Annotates [] g (g.withEpilogue t) := by
  unfold withEpilogue
  split
  · exact .refl g
  · have h₁ : Annotates [] g { g with owned := [] } := .of_lines rfl rfl
    exact h₁.nil_trans ((annotates_withFrees _ g.owned).nil_trans (annotates_withTerminator _ _))

end Generator

namespace Program

open Generator

variable {p : Program}

/-- The start of a function body lowers no construct. -/
theorem annotates_bodyStart (f : FunctionId) (g : Generator) : Annotates [] g (p.bodyStart f g) := by
  have hs : ∀ (ps : List Symbol) (g : Generator), Annotates [] g (ps.foldl withSpill g) := by
    intro ps
    induction ps with
    | nil => exact fun g => .refl g
    | cons s ps ih => exact fun g => (annotates_withInstr g _).nil_trans ((annotates_withInstr _ _).nil_trans (ih _))
  have hr : ∀ g₀ : Generator, Annotates [] g₀ { g₀ with depth := g.depth + 1, closed := false, owned := [], marks := [] } :=
    fun _ => .of_lines rfl rfl
  unfold bodyStart
  exact (annotates_withItem g (by simp) (by simp)).nil_trans ((annotates_withItem _ (by simp) (by simp)).nil_trans
    ((hr _).nil_trans ((hs _ _).nil_trans (.of_lines rfl rfl))))

/-- The end of a function body lowers no construct. -/
theorem annotates_bodyEnd (f : FunctionId) (g g₁ : Generator) : Annotates [] g₁ (p.bodyEnd f g g₁) := by
  have hr : ∀ g₀ : Generator, Annotates [] g₀ { g₀ with spilled := g.spilled, depth := g₀.depth - 1, closed := false } :=
    fun _ => .of_lines rfl rfl
  unfold bodyEnd
  exact (annotates_withEpilogue g₁ _).nil_trans ((hr _).nil_trans ((annotates_withItem _ (by simp) (by simp)).nil_trans
    ((annotates_withConstantsWritten _).nil_trans ((annotates_withBlank _).nil_trans (annotates_withRuntimeWritten _)))))

/-- Declarations lower no construct. -/
theorem annotates_declarations (syms : List SymbolId) (g : Generator) :
    Annotates [] g (syms.foldl (fun g s => g.withDeclaration (p.symbols.symbol s)) g) := by
  induction syms generalizing g with
  | nil => exact .refl g
  | cons s syms ih => exact (annotates_withDeclaration g _).nil_trans (ih _)

/-! ## The rules -/

section Rules

variable {w : Walk} {g g' : Generator}
  (hx : ∀ {id : NodeId} {g : Generator} {v : Value} {g' : Generator}, Runs (w.expr id) g v g' → Annotates [] g g')
include hx

/-- Lowering an operand lowers no construct. -/
theorem annotates_valueOf {id : NodeId} {v : Value} (h : Runs (p.valueOf w id) g v g') : Annotates [] g g' := by
  obtain ⟨v₁, g₁, h₁, h₂⟩ := runs_valueOf h
  split at h₂
  · obtain ⟨-, rfl⟩ := h₂
    exact (hx h₁).nil_trans (annotates_freshInstr _ _ _)
  · obtain ⟨-, rfl⟩ := h₂
    exact hx h₁

/-- Lowering a condition lowers no construct. -/
theorem annotates_testOf {id : NodeId} {v : Value} (h : Runs (p.testOf w id) g v g') : Annotates [] g g' := by
  obtain ⟨t, -, ⟨-, h⟩ | ⟨-, -, v₁, g₁, h₁, -, rfl⟩⟩ := runs_testOf h
  · exact hx h
  · exact (annotates_valueOf hx h₁).nil_trans (annotates_freshInstr _ _ _)

/-- Lowering the arguments of a call lowers no construct. -/
theorem annotates_arguments {callee : String} {i : Nat} {args : List (NodeId × SymbolId)} {vs : List (Ty × Value)}
    (h : Runs (p.arguments w callee i args) g vs g') : Annotates [] g g' := by
  induction args generalizing i g vs with
  | nil =>
    obtain ⟨-, rfl⟩ := runs_arguments_nil.mp h
    exact .refl _
  | cons a args ih =>
    obtain ⟨a, s⟩ := a
    obtain ⟨-, v, g₁, vs', h₁, h₂, -⟩ := runs_arguments_cons h
    exact (annotates_valueOf hx h₁).nil_trans (ih h₂)

/-- Lowering an expression writes instructions, and labels only to open blocks after terminators. -/
theorem annotates_lowerForm {id : NodeId} {e : Expr} {v : Value} (h : Runs (p.lowerForm w id e) g v g') :
    Annotates [] g g' := by
  cases e with
  | read s =>
    obtain ⟨-, rfl⟩ := runs_lowerForm_read h
    exact (annotates_freshInstr _ _ _).nil_trans (annotates_withValue _ _ _)
  | int n =>
    obtain ⟨-, rfl⟩ := runs_lowerForm_int h
    exact annotates_withValue _ _ _
  | str raw =>
    obtain ⟨-, rfl⟩ := runs_lowerForm_str h
    exact (annotates_freshInstr _ _ _).nil_trans ((annotates_withConstant _ _ _).nil_trans (annotates_withValue _ _ _))
  | neg x =>
    obtain ⟨-, v₁, g₁, h₁, -, rfl⟩ := runs_lowerForm_neg h
    exact (annotates_valueOf hx h₁).nil_trans ((annotates_freshInstr _ _ _).nil_trans (annotates_withValue _ _ _))
  | arith op l r =>
    obtain ⟨t, -, -, vl, g₁, vr, g₂, h₁, h₂, -, ⟨-, rfl⟩ | ⟨-, -, rfl⟩⟩ := runs_lowerForm_arith h
    · exact (annotates_valueOf hx h₁).nil_trans ((annotates_valueOf hx h₂).nil_trans
        ((annotates_freshInstr _ _ _).nil_trans (annotates_withValue _ _ _)))
    · exact (annotates_valueOf hx h₁).nil_trans ((annotates_valueOf hx h₂).nil_trans
        ((annotates_freshInstr _ _ _).nil_trans ((annotates_withRuntime _).nil_trans
        ((annotates_withOwned _ _).nil_trans (annotates_withValue _ _ _)))))
  | cmp op l r =>
    obtain ⟨t, -, -, vl, g₁, vr, g₂, h₁, h₂, -, ⟨-, rfl⟩ | ⟨-, -, rfl⟩⟩ := runs_lowerForm_cmp h
    · exact (annotates_valueOf hx h₁).nil_trans ((annotates_valueOf hx h₂).nil_trans
        ((annotates_freshInstr _ _ _).nil_trans (annotates_withValue _ _ _)))
    · exact (annotates_valueOf hx h₁).nil_trans ((annotates_valueOf hx h₂).nil_trans
        ((annotates_freshInstr _ _ _).nil_trans ((annotates_withRuntime _).nil_trans (annotates_withValue _ _ _))))
  | assign s x =>
    obtain ⟨-, g₁, h₁, rfl⟩ := runs_lowerForm_assign h
    exact (annotates_valueOf hx h₁).nil_trans ((annotates_withInstr _ _).nil_trans (annotates_withValue _ _ _))
  | call f args =>
    obtain ⟨-, vs, g₁, h₁, -, ⟨-, rfl⟩ | ⟨-, rfl⟩⟩ := runs_lowerForm_call h
    · exact (annotates_arguments hx h₁).nil_trans ((annotates_freshInstr _ _ _).nil_trans (annotates_withValue _ _ _))
    · exact (annotates_arguments hx h₁).nil_trans ((annotates_freshInstr _ _ _).nil_trans
        ((annotates_withOwned _ _).nil_trans (annotates_withValue _ _ _)))

/-- Lowering an expression node lowers no construct. -/
theorem annotates_lowerExpr {id : NodeId} {v : Value} (h : Runs (p.lowerExpr w id) g v g') : Annotates [] g g' := by
  rcases runs_lowerExpr h with ⟨-, rfl⟩ | ⟨-, e, t, -, h⟩
  · exact .refl _
  · exact annotates_lowerForm hx h

/-- A return lowers no construct. -/
theorem annotates_lowerReturn {x : NodeId} {u : Unit} (h : Runs (p.lowerReturn w x) g u g') : Annotates [] g g' := by
  obtain ⟨t, v, g₁, v', kept, g₂, -, hv, hh, rfl⟩ := runs_lowerReturn h
  have k : Annotates [] g₁ g₂ := by
    rcases runs_handOver hh with ⟨-, _, -, -, rfl⟩ | ⟨-, -, -, rfl⟩ | ⟨-, -, rfl⟩
    · exact .refl _
    · exact (annotates_freshInstr _ _ _).nil_trans (annotates_withRuntime _)
    · exact .refl _
  exact (annotates_valueOf hx hv).nil_trans (k.nil_trans ((annotates_withFrees _ _).nil_trans
    ((annotates_withTerminator _ _).nil_trans (annotates_withoutInner _))))

end Rules

/-- Emitting the node at `id` from `g` to `g'` lowers the constructs of the node, and annotates them. -/
def AnnotatesNode (p : Program) (id : NodeId) (g g' : Generator) : Prop := ∃ cs, p.Constructs id cs ∧ Annotates cs g g'

/-- Emitting nodes in order lowers the constructs of each, in order. -/
theorem annotates_forM {w : Walk} {ids : List NodeId} {g g' : Generator} {u : PUnit}
    (he : ∀ {c g g'}, c ∈ ids → Runs (w.emit c) g () g' → p.AnnotatesNode c g g') (h : Runs (ids.forM w.emit) g u g') :
    ∃ cs, p.ConstructsAll ids cs ∧ Annotates cs g g' := by
  induction ids generalizing g with
  | nil =>
    obtain rfl := Runs.forM_nil.mp h
    exact ⟨[], .nil, .refl g⟩
  | cons i ids ih =>
    obtain ⟨g₁, h₁, h₂⟩ := Runs.forM_cons.mp h
    obtain ⟨cs, hc, ha⟩ := he List.mem_cons_self h₁
    obtain ⟨cs', hc', ha'⟩ := ih (fun hm h => he (List.mem_cons_of_mem _ hm) h) h₂
    exact ⟨cs ++ cs', .cons hc hc', ha.trans ha'⟩

/-- One level of lowering rules lowers, and annotates, the constructs of each node it emits, given that the walk one
level down does. -/
theorem annotates_step {w : Walk} (hw : w.Sound p.AnnotatesNode fun _ g _ g' => Annotates [] g g') :
    (p.step w).Sound p.AnnotatesNode fun _ g _ g' => Annotates [] g g' := by
  have hx : ∀ {id g v g'}, Runs (w.expr id) g v g' → Annotates [] g g' := fun h => hw.expr h
  refine ⟨fun {id g g'} h => ?_, fun h => annotates_lowerExpr hx h⟩
  rcases runs_emitNode h with ⟨e, t, hn, ⟨-, rfl⟩ | ⟨-, v, h⟩⟩ | ⟨s, hn, h⟩
  · exact ⟨[], .expr hn, .refl _⟩
  · exact ⟨[], .expr hn, annotates_lowerForm hx h⟩
  -- an instruction: its own construct, then those of the instructions its rule lowers
  suffices hs : ∃ cs, p.ConstructsAll s.lowered cs ∧ Annotates (s.construct?.toList ++ cs) g g' by
    obtain ⟨cs, hc, ha⟩ := hs
    exact ⟨_, .stmt hn hc, ha⟩
  cases s with
  | declare syms =>
    rw [runs_lowerDeclarations h]
    exact ⟨[], .nil, annotates_declarations syms g⟩
  | eval e =>
    obtain ⟨v, h⟩ := Runs.discard_iff.mp h
    exact ⟨[], .nil, hx h⟩
  | ite c t e =>
    obtain ⟨v, g₁, g₂, g₃, hc, ht, hel, rfl⟩ := runs_lowerChoice h
    obtain ⟨ct, Ct, At⟩ := hw.emit ht
    have A₁ : Annotates ([.choice] ++ ct) g g₂ :=
      ((annotates_withBanner g _).trans_nil ((annotates_withLabels _ _).nil_trans ((annotates_withScope _).nil_trans
        ((annotates_testOf hx hc).nil_trans ((annotates_withoutScope _).nil_trans
        ((annotates_branchTo _ _ _ _ _).nil_trans (annotates_withScope _))))))).trans At
    obtain ⟨ce, Ce, Ae⟩ : ∃ ce, p.ConstructsAll e.toList ce ∧ Annotates ce g₂ g₃ := by
      cases e with
      | some e =>
        obtain ⟨g₄, he, rfl⟩ := hel
        obtain ⟨ce, Ce, Ae⟩ := hw.emit he
        exact ⟨ce ++ [], .cons Ce .nil, ((annotates_withoutScope _).nil_trans ((annotates_jumpTo _ _ _).nil_trans
          ((annotates_withScope _).nil_trans Ae))).trans (annotates_withoutScope _)⟩
      | none =>
        subst hel
        exact ⟨[], .nil, (annotates_withoutScope _).nil_trans (annotates_jumpTo _ _ _)⟩
    exact ⟨ct ++ ce, .cons Ct Ce, (A₁.trans (Ae.trans_nil (annotates_jumpTo _ _ _))).congr (by simp [Stmt.construct?])⟩
  | whileLoop c b =>
    obtain ⟨v, g₁, g₂, hc, hb, rfl⟩ := runs_lowerWhile h
    obtain ⟨cb, Cb, Ab⟩ := hw.emit hb
    refine ⟨cb ++ [], .cons Cb .nil, ?_⟩
    exact (((annotates_withBanner g _).trans_nil ((annotates_withLabels _ _).nil_trans ((annotates_jumpTo _ _ _).nil_trans
      ((annotates_withScope _).nil_trans ((annotates_testOf hx hc).nil_trans ((annotates_withoutScope _).nil_trans
      ((annotates_branchTo _ _ _ _ _).nil_trans (annotates_withScope _)))))))).trans
      (Ab.trans_nil ((annotates_withoutScope _).nil_trans (annotates_jumpTo _ _ _)))).congr (by simp [Stmt.construct?])
  | doLoop b c =>
    obtain ⟨g₁, v, g₂, hb, hc, rfl⟩ := runs_lowerDo h
    obtain ⟨cb, Cb, Ab⟩ := hw.emit hb
    refine ⟨cb ++ [], .cons Cb .nil, ?_⟩
    exact (((annotates_withBanner g _).trans_nil ((annotates_withLabels _ _).nil_trans ((annotates_jumpTo _ _ _).nil_trans
      (annotates_withScope _)))).trans (Ab.trans_nil ((annotates_withoutScope _).nil_trans ((annotates_jumpTo _ _ _).nil_trans
      ((annotates_withScope _).nil_trans ((annotates_testOf hx hc).nil_trans ((annotates_withoutScope _).nil_trans
      (annotates_branchTo _ _ _ _ _)))))))).congr (by simp [Stmt.construct?])
  | forLoop i c st b =>
    obtain ⟨vi, g₁, v, g₂, g₃, vs, g₄, hi, hc, hb, hs, rfl⟩ := runs_lowerFor h
    obtain ⟨cb, Cb, Ab⟩ := hw.emit hb
    refine ⟨cb ++ [], .cons Cb .nil, ?_⟩
    exact (((annotates_withBanner g _).trans_nil ((annotates_withLabels _ _).nil_trans ((hx hi).nil_trans
      ((annotates_jumpTo _ _ _).nil_trans ((annotates_withScope _).nil_trans ((annotates_testOf hx hc).nil_trans
      ((annotates_withoutScope _).nil_trans ((annotates_branchTo _ _ _ _ _).nil_trans (annotates_withScope _))))))))).trans
      (Ab.trans_nil ((annotates_withoutScope _).nil_trans ((annotates_jumpTo _ _ _).nil_trans ((annotates_withScope _).nil_trans
      ((hx hs).nil_trans ((annotates_withoutScope _).nil_trans (annotates_jumpTo _ _ _)))))))).congr
      (by simp [Stmt.construct?])
  | ret x => exact ⟨[], .nil, annotates_lowerReturn hx h⟩
  | block items => exact annotates_forM (fun _ h => hw.emit h) h
  | prototype f =>
    rw [runs_lowerPrototype h]
    exact ⟨[], .nil, annotates_withItem g (by simp) (by simp)⟩
  | define f b =>
    obtain ⟨g₁, h₁, rfl⟩ := runs_lowerDefinition h
    obtain ⟨cb, Cb, Ab⟩ := hw.emit h₁
    exact ⟨cb ++ [], .cons Cb .nil, ((annotates_bodyStart f g).nil_trans (Ab.trans_nil (annotates_bodyEnd f g g₁))).congr
      (by simp [Stmt.construct?])⟩

/-- Emitting a node, at any depth of the walk, lowers and annotates its constructs. -/
theorem annotates_walk (n : Nat) : (p.walk n).Sound p.AnnotatesNode fun _ g _ g' => Annotates [] g g' :=
  walk_induction _ _ (fun _ hw => annotates_step hw) n

/-- Lowering a unit's roots lowers the constructs of each root, in order, and annotates them. -/
theorem annotates_roots {layout : Layout} {g : Generator}
    (h : Runs (p.ast.roots.toList.forM (p.walk (p.ast.size + 1)).emit) (Generator.new layout) () g) :
    ∃ cs, p.ConstructsAll p.ast.roots.toList cs ∧
      Annotates cs (Generator.new layout) g.withConstantsWritten.withRuntimeWritten := by
  obtain ⟨cs, hc, ha⟩ := annotates_forM (fun _ h => (annotates_walk _).emit h) h
  exact ⟨cs, hc, ha.trans_nil ((annotates_withConstantsWritten _).nil_trans (annotates_withRuntimeWritten _))⟩

end Program

/-- Without banners, the lines that are neither blank nor banners are the lines that are not blank. -/
theorem filter_shown_of_no_banners : ∀ {ls : List Line}, ls.filterMap Line.banner? = [] →
    ls.filter Line.shown = ls.filter (· != .blank)
  | [], _ => rfl
  | x :: ls, h => by
    rw [List.filterMap_cons] at h
    cases hx : x.banner? with
    | some c =>
      rw [hx] at h
      cases h
    | none =>
      rw [hx] at h
      have hs : x.shown = (x != .blank) := by
        cases x with
        | blank => rfl
        | item k i => cases i <;> simp_all [Line.banner?, Line.shown]
      rw [List.filter_cons, List.filter_cons, filter_shown_of_no_banners h, hs]

namespace Program

/-- Under one indentation, a unit compiles with annotations exactly when it compiles without, and fails with the same
error under both. When both succeed, the texts are renderings of listings such that: the annotated listing without its
blank lines and banners is the compact listing without its blank lines, and the compact listing holds no banner; the
banners of the annotated listing announce, in order, the constructs that lowering the roots lowers, one for each
lowering of an `if`, `while`, `do` or `for` node; and every label line of the annotated listing stands right after a
blank line. -/
theorem annotations_add_blanks_and_banners (p : Program) (ind : String) :
    (∀ e, p.compile ⟨ind, true⟩ = .error e ↔ p.compile ⟨ind, false⟩ = .error e) ∧
    ∀ sa sc, p.compile ⟨ind, true⟩ = .ok sa → p.compile ⟨ind, false⟩ = .ok sc →
      ∃ la lc : List Line, sa = render ind la ∧ sc = render ind lc ∧
        la.filter Line.shown = lc.filter (· != .blank) ∧ lc.filterMap Line.banner? = [] ∧
        (∃ cs, p.ConstructsAll p.ast.roots.toList cs ∧ la.filterMap Line.banner? = cs) ∧ LabelsSpaced la := by
  refine ⟨compile_error_iff p ind, fun sa sc ha hc => ?_⟩
  obtain ⟨ga, hra, rfl⟩ := runs_of_compile ha
  obtain ⟨gc, hrc, rfl⟩ := runs_of_compile hc
  obtain ⟨cs, hcs, hA⟩ := annotates_roots hra
  obtain ⟨_, -, hC⟩ := annotates_roots hrc
  have hbc : gc.withConstantsWritten.withRuntimeWritten.banners = [] := by
    rw [hC.banners]
    rfl
  have hba : ga.withConstantsWritten.withRuntimeWritten.banners = cs := by
    rw [hA.banners]
    rfl
  refine ⟨_, _, by rw [Generator.finish_eq, hA.layout]; rfl, by rw [Generator.finish_eq, hC.layout]; rfl, ?_, hbc,
    ⟨cs, hcs, hba⟩, hA.spaced (fun _ => LabelsSpaced.nil) (by rw [hA.layout]; rfl)⟩
  rw [← Generator.plain_lines, finished_alike hra hrc, Generator.plain_lines]
  exact filter_shown_of_no_banners hbc

/-- A global named `x`, a line break, `; if`, a line break, `Label_0:`, a line break and `y`, declared by the only
root. -/
def forgedNameUnit : Program where
  symbols := { symbols := #[{ name := "x\n; if\nLabel_0:\ny", ty := .int, flags := { global := true } }] }
  ast := { nodes := #[.stmt (.declare [0])], roots := #[0] }

/-- The banners and labels are those of the listing, not of the text: names may hold line breaks. The unit above
lowers no construct and places no label, yet its text, the same with and without annotations, holds a line `; if`
and a line `Label_0:` right after it. -/
theorem name_forges_banner_and_label :
    (forgedNameUnit.compile {}).toOption.map textLines =
      some ["@x", "; if", "Label_0:", "y = global i32 0, align 4", ""] ∧
    (forgedNameUnit.compile .compact).toOption = (forgedNameUnit.compile {}).toOption := by
  decide +kernel

end Program

end Lowering
