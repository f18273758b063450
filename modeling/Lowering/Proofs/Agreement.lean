import Lowering.Proofs.Evaluation
import Lowering.Proofs.Blocks

/-!
# Frames that agree with environments

Lowering keeps every variable of a function in storage: a global in the global of its name, a parameter in the stack
slot named after it with `.addr`, a local in the slot of its own name. A frame agrees with an environment on a set of
variables when each of them holds there what the environment gives it (`Stores`). Reading, assigning and declaring a
variable then act alike on both sides, as long as no two of the variables share a slot (`SlotsApart`).

This module also fixes what the refinement is about. A node of the integer fragment (`IntNode`) is an integer
expression other than a string or a call, over variables of the set, or an instruction other than a function's
definition or prototype that declares only locals of the set. A node is a tree when no node is reached from it along two
paths (`Tree`).

Last come the steps the interpreter takes for each instruction that lowering writes.
-/

namespace Lowering

open Ir

namespace Program

variable (p : Program) (ps : List SymbolId)

/-- The slot a parameter or a local lives in, inside a function with parameters `ps`. -/
def slotOf (s : SymbolId) : String :=
  if ps.contains s then (p.symbols.symbol s).name ++ ".addr" else (p.symbols.symbol s).name

/-- The frame holds each variable of `vars` where lowering keeps it, with the value the environment gives it. -/
structure Stores (vars : SymbolId → Prop) (ρ : Env) (fr : Frame) : Prop where
  globals : fr.globals = ρ.globals
  slots : ∀ s, vars s → p.globalOf ps s = none → fr.slots (p.slotOf ps s) = ρ.vars s

/-- No two parameters or locals of `vars` live in one slot. -/
def SlotsApart (vars : SymbolId → Prop) : Prop :=
  ∀ s s', vars s → vars s' → p.globalOf ps s = none → p.globalOf ps s' = none → p.slotOf ps s = p.slotOf ps s' → s = s'

/-- A node of the integer fragment over the variables `vars`, inside a function with parameters `ps`: an expression of
integer type that is neither a string nor a call, and whose variables are among `vars`; or an instruction other than
a function's definition or prototype, whose declarations declare locals of `vars`. -/
def IntNode (vars : SymbolId → Prop) : Node → Prop
  | .expr (.read s) t => t = some .int ∧ vars s
  | .expr (.assign s _) t => t = some .int ∧ vars s
  | .expr (.str _) _ | .expr (.call ..) _ => False
  | .expr _ t => t = some .int
  | .stmt (.declare syms) =>
    ∀ s ∈ syms, vars s ∧ s ∉ ps ∧ (p.symbols.symbol s).flags.external = false ∧
      (p.symbols.symbol s).flags.global = false
  | .stmt (.prototype _) | .stmt (.define ..) => False
  | .stmt _ => True

/-- No node is reached from the node along two paths: below every node reached, the nodes its references reach are
apart, and none of its references leads back to it. -/
def Tree (id : NodeId) : Prop :=
  ∀ d n, p.Reaches id d → p.ast.get? d = some n →
    (n.children.Pairwise fun c c' => ∀ x, p.Reaches c x → ¬p.Reaches c' x) ∧ ∀ c ∈ n.children, ¬p.Reaches c d

variable {p ps}

/-- Where lowering reads and writes a variable: its global, or its slot. -/
theorem addressOf_eq (s : SymbolId) :
    p.addressOf ps s = match p.globalOf ps s with
      | some n => .global n
      | none => .slot (p.slotOf ps s) := by
  unfold addressOf globalOf slotOf
  by_cases hp : s ∈ ps
  · simp [hp]
  · cases (p.symbols.symbol s).flags.global <;> cases (p.symbols.symbol s).flags.external <;> simp [hp]

/-- A node of the integer fragment is a local node. -/
theorem IntNode.local {vars : SymbolId → Prop} {n : Node} (h : p.IntNode ps vars n) : p.Local n := by
  unfold IntNode at h
  unfold Local
  split at h <;> simp_all

/-- A reference of a tree is a tree. -/
theorem Tree.child {id c : NodeId} {n : Node} (h : p.Tree id) (hn : p.ast.get? id = some n) (hc : c ∈ n.children) :
    p.Tree c :=
  fun d n' hr hd => h d n' (.child hn hc hr) hd

/-- The nodes two references of a node of a tree reach, the first before the second, are apart. -/
theorem Tree.apart {id : NodeId} {n : Node} {pre mid post : List NodeId} {c c' : NodeId} (h : p.Tree id)
    (hn : p.ast.get? id = some n) (hc : n.children = pre ++ c :: mid ++ c' :: post) {x : NodeId}
    (hx : p.Reaches c x) : ¬p.Reaches c' x := by
  have hp := (h id n (.refl id) hn).1
  rw [hc, List.pairwise_append] at hp
  exact hp.2.2 c (by simp) c' (by simp) x hx

/-- No reference of a node of a tree leads back to the node. -/
theorem Tree.not_reaches {id c : NodeId} {n : Node} (h : p.Tree id) (hn : p.ast.get? id = some n)
    (hc : c ∈ n.children) : ¬p.Reaches c id :=
  (h id n (.refl id) hn).2 c hc

section Frames

variable {vars : SymbolId → Prop} {ρ : Env} {fr : Frame}

/-- A variable of the set is read alike from the frame and from the environment. -/
theorem Stores.read (h : p.Stores ps vars ρ fr) {s : SymbolId} (hs : vars s) :
    fr.read (p.addressOf ps s) = p.load ps ρ s := by
  rw [addressOf_eq]
  unfold load
  cases hg : p.globalOf ps s with
  | some n => simp [Frame.read, h.globals]
  | none => exact h.slots s hs hg

/-- Agreement does not look at registers. -/
theorem Stores.set (h : p.Stores ps vars ρ fr) (r : Reg) (w : Word) : p.Stores ps vars ρ (fr.set r w) :=
  ⟨h.globals, h.slots⟩

/-- Assigning a variable of the set fails on both sides or succeeds on both, and keeps them in agreement. -/
theorem Stores.write (h : p.Stores ps vars ρ fr) (ha : p.SlotsApart ps vars) {s : SymbolId} (hs : vars s)
    (v : Int32) :
    match p.store ps ρ s v, fr.write (p.addressOf ps s) v with
    | some ρ', some fr' => p.Stores ps vars ρ' fr' ∧ fr'.regs = fr.regs
    | none, none => True
    | _, _ => False := by
  rw [addressOf_eq]
  unfold store
  cases hg : p.globalOf ps s with
  | some n =>
    refine ⟨⟨by simp [h.globals], fun s' hs' hg' => h.slots s' hs' hg'⟩, rfl⟩
  | none =>
    have hsl := h.slots s hs hg
    simp only [Frame.write, hsl]
    cases hv : ρ.vars s with
    | none => trivial
    | some _ =>
      refine ⟨⟨h.globals, fun s' hs' hg' => ?_⟩, rfl⟩
      by_cases he : s' = s
      · subst he
        simp
      · have hne : p.slotOf ps s' ≠ p.slotOf ps s := fun e => he (ha s' s hs' hs hg' hg e)
        simp [Function.update_of_ne hne, Function.update_of_ne he, h.slots s' hs' hg']

/-- Declaring a local of the set makes its slot afresh, holding what the slot of its name starts with. -/
theorem Stores.declare (h : p.Stores ps vars ρ fr) (ha : p.SlotsApart ps vars) (init : String → Int32)
    {s : SymbolId} (hs : vars s) (hp : s ∉ ps) (hext : (p.symbols.symbol s).flags.external = false)
    (hglob : (p.symbols.symbol s).flags.global = false) :
    p.Stores ps vars { ρ with vars := Function.update ρ.vars s (some (init (p.symbols.symbol s).name)) }
      (fr.alloc (p.symbols.symbol s).name (init (p.symbols.symbol s).name)) := by
  have hg : p.globalOf ps s = none := by simp [globalOf, hp, hext, hglob]
  have hsl : p.slotOf ps s = (p.symbols.symbol s).name := by simp [slotOf, hp]
  refine ⟨h.globals, fun s' hs' hg' => ?_⟩
  by_cases he : s' = s
  · subst he
    simp [hsl]
  · have hne : p.slotOf ps s' ≠ (p.symbols.symbol s).name := fun e => he (ha s' s hs' hs hg' hg (e.trans hsl.symm))
    simp [Function.update_of_ne hne, Function.update_of_ne he, h.slots s' hs' hg']

end Frames

/-! ## Forests -/

/-- Every node refers only to nodes before it, and no node is referred to twice in the unit: the nodes form a forest,
built bottom up. -/
def Forest (p : Program) : Prop :=
  (∀ d (h : d < p.ast.nodes.size), ∀ c ∈ p.ast.nodes[d].children, c < d) ∧
    (p.ast.nodes.toList.flatMap Node.children).Nodup

/-- Whether the nodes form a forest is decided by reading them. -/
instance (p : Program) : Decidable p.Forest := inferInstanceAs (Decidable (_ ∧ _))

/-- A node of the tree is the entry at its id of the list of nodes. -/
theorem Ast.getElem_toList {a : Ast} {d : NodeId} {n : Node} (hn : a.get? d = some n) :
    ∃ h : d < a.nodes.toList.length, a.nodes.toList[d] = n :=
  List.getElem?_eq_some_iff.mp (by rwa [Array.getElem?_toList])

namespace Forest

variable {d : NodeId} {n : Node}

/-- A forest is built bottom up from every node. -/
theorem builtUp (h : p.Forest) (id : NodeId) : p.BuiltUp id := by
  intro d n _ hn
  obtain ⟨hd, rfl⟩ := Array.getElem?_eq_some_iff.mp hn
  exact h.1 d hd

/-- In a forest, no node refers to one node twice. -/
theorem children_nodup (h : p.Forest) (hn : p.ast.get? d = some n) : n.children.Nodup := by
  obtain ⟨hd, rfl⟩ := Ast.getElem_toList hn
  exact (List.nodup_flatMap.mp h.2).1 _ (List.getElem_mem hd)

/-- A node is referred to by one node at most. -/
theorem parent_eq (h : p.Forest) {d₁ d₂ c : NodeId} {n₁ n₂ : Node} (h₁ : p.ast.get? d₁ = some n₁)
    (h₂ : p.ast.get? d₂ = some n₂) (hc₁ : c ∈ n₁.children) (hc₂ : c ∈ n₂.children) : d₁ = d₂ := by
  obtain ⟨hd₁, rfl⟩ := Ast.getElem_toList h₁
  obtain ⟨hd₂, rfl⟩ := Ast.getElem_toList h₂
  have hp := List.pairwise_iff_getElem.mp (List.nodup_flatMap.mp h.2).2
  by_contra hne
  rcases Nat.lt_or_gt_of_ne hne with hlt | hlt
  · exact hp d₁ d₂ hd₁ hd₂ hlt hc₁ hc₂
  · exact hp d₂ d₁ hd₂ hd₁ hlt hc₂ hc₁

/-- A path to a node's reference from any other node passes through the node. -/
theorem reaches_parent (h : p.Forest) {a b c : NodeId} (hr : p.Reaches b c) (hne : b ≠ c)
    (ha : p.ast.get? a = some n) (hc : c ∈ n.children) : p.Reaches b a := by
  induction hr with
  | refl => exact absurd rfl hne
  | @child b c₁ c n₁ hb hc₁ _ ih =>
    by_cases he : c₁ = c
    · subst he
      obtain rfl := h.parent_eq hb ha hc₁ hc
      exact .refl _
    · exact .child hb hc₁ (ih he hc)

/-- Two nodes that reach a common node lie on one path: one of them reaches the other. -/
theorem reaches_total (h : p.Forest) {a b x : NodeId} (ha : p.Reaches a x) (hb : p.Reaches b x) :
    p.Reaches a b ∨ p.Reaches b a := by
  induction ha with
  | refl => exact .inr hb
  | @child a c x n hn hc _ ih =>
    rcases ih hb with hcb | hbc
    · exact .inl (.child hn hc hcb)
    · by_cases he : b = c
      · subst he
        exact .inl (.child hn hc (.refl _))
      · exact .inr (h.reaches_parent hbc he hn hc)

/-- Every node of a forest is a tree. -/
theorem tree (h : p.Forest) (id : NodeId) : p.Tree id := by
  intro d n _ hn
  refine ⟨(h.children_nodup hn).imp_of_mem fun hc hc' hne x hx hx' => ?_, fun c hc => (h.builtUp d).not_reaches hn hc⟩
  rcases h.reaches_total hx hx' with hr | hr
  · exact (h.builtUp d).not_reaches hn hc (h.reaches_parent hr hne hn hc')
  · exact (h.builtUp d).not_reaches hn hc' (h.reaches_parent hr (Ne.symm hne) hn hc)

end Forest

end Program

/-! ## Steps of the instructions lowering writes -/

namespace Ir

variable {body : List Item} {init : String → Int32} {rest : List Item} {fr : Frame}

/-- What a register holds for the value of an expression: a comparison's truth value, or an integer. -/
def Word.of (cmp : Bool) (a : Int32) : Word := if cmp then .bit (a ≠ 0) else .int a

/-- A load from an address that holds a value puts it in the register. -/
theorem step_load {r : Reg} {t : Ty} {a : Address} {v : Int32} (h : fr.read a = some v) :
    step body init (.instr (.load r t a) :: rest) fr = some (.go rest (fr.set r (.int v))) := by
  simp [step, Instr.exec, h]

/-- A load from an address that holds nothing fails. -/
theorem step_load_none {r : Reg} {t : Ty} {a : Address} (h : fr.read a = none) :
    step body init (.instr (.load r t a) :: rest) fr = none := by
  simp [step, Instr.exec, h]

/-- An arithmetic instruction on two integers puts the result in the register where it is defined. -/
theorem step_arith {r : Reg} {op : ArithOp} {l l' : Value} {a b c : Int32} (hl : fr.operand l = some (.int a))
    (hr : fr.operand l' = some (.int b)) (hc : op.apply a b = some c) :
    step body init (.instr (.arith r op l l') :: rest) fr = some (.go rest (fr.set r (.int c))) := by
  simp [step, Instr.exec, Frame.int?_eq_some.mpr hl, Frame.int?_eq_some.mpr hr, hc]

/-- An arithmetic instruction whose result is undefined fails. -/
theorem step_arith_none {r : Reg} {op : ArithOp} {l l' : Value} {a b : Int32} (hl : fr.operand l = some (.int a))
    (hr : fr.operand l' = some (.int b)) (hc : op.apply a b = none) :
    step body init (.instr (.arith r op l l') :: rest) fr = none := by
  simp [step, Instr.exec, Frame.int?_eq_some.mpr hl, Frame.int?_eq_some.mpr hr, hc]

/-- A comparison of two integers puts its truth value in the register. -/
theorem step_icmp {r : Reg} {op : CmpOp} {l l' : Value} {a b : Int32} (hl : fr.operand l = some (.int a))
    (hr : fr.operand l' = some (.int b)) :
    step body init (.instr (.icmp r op l l') :: rest) fr = some (.go rest (fr.set r (.bit (op.holds a b)))) := by
  simp [step, Instr.exec, Frame.int?_eq_some.mpr hl, Frame.int?_eq_some.mpr hr]

/-- A widening puts one or zero in the register. -/
theorem step_widen {r : Reg} {v : Value} {b : Bool} (h : fr.operand v = some (.bit b)) :
    step body init (.instr (.widen r v) :: rest) fr = some (.go rest (fr.set r (.int (if b then 1 else 0)))) := by
  simp [step, Instr.exec, Frame.bit?_eq_some.mpr h]

/-- A store writes the integer to the address, and fails where the address is not there. -/
theorem step_store {t : Ty} {v : Value} {a : Address} {n : Int32} (hv : fr.operand v = some (.int n)) :
    step body init (.instr (.store t v a) :: rest) fr = (fr.write a n).map (.go rest ·) := by
  simp [step, Instr.exec, Frame.int?_eq_some.mpr hv]

/-- An allocation makes the slot, with the contents its storage starts with. -/
theorem step_alloca {name : String} {t : Ty} :
    step body init (.instr (.alloca name t) :: rest) fr = some (.go rest (fr.alloc name (init name))) := rfl

/-- A jump goes on after its label. -/
theorem step_jump {l : Label} : step body init (.instr (.jump l) :: rest) fr = (after l body).map (.go · fr) := rfl

/-- A branch goes on after the label its truth value picks. -/
theorem step_branch {c : Value} {l₁ l₂ : Label} {b : Bool} (hc : fr.operand c = some (.bit b)) :
    step body init (.instr (.branch c l₁ l₂) :: rest) fr = (after (if b then l₁ else l₂) body).map (.go · fr) := by
  simp [step, Instr.exec, Frame.bit?_eq_some.mpr hc]

/-- A return ends the run with its value and the globals. -/
theorem step_ret {t : Ty} {v : Value} {n : Int32} (h : fr.operand v = some (.int n)) :
    step body init (.instr (.ret t v) :: rest) fr = some (.done n fr.globals) := by
  simp [step, Instr.exec, Frame.int?_eq_some.mpr h]

/-- A return returns at once. -/
theorem returns_ret {t : Ty} {v : Value} {n : Int32} (h : fr.operand v = some (.int n)) :
    Returns body init (.instr (.ret t v) :: rest) fr (n, fr.globals) :=
  ⟨1, by simp [run, step_ret h]⟩

end Ir

end Lowering
