import Lowering.Proofs.Listing

/-!
# Types of IR values

The IR has three kinds of value: truth values (`i1`), 32-bit integers (`i32`) and string pointers (`i8*`). Each
instruction defines at most one register, of a type fixed by its form, and reads its operands at types fixed by its
form; this module gives both tables, and what it means for an operand to have a type: a constant by its kind, a
register by its definition, a parameter by the head of its function.

It also fixes what lowering may rely on from the tree: an expression records the type its parts give it
(`Program.TypesRecorded`, the rule by which the tree's builder types every expression), and which variables and
returns a node leads to.
-/

namespace Lowering

namespace Ir

/-- The type of an IR value. -/
inductive IrTy where
  /-- A truth value, the result of a comparison. -/
  | i1
  /-- A 32-bit integer. -/
  | i32
  /-- A pointer to a string. -/
  | ptr
  deriving DecidableEq, Repr

end Ir

open Ir

/-- The IR type of the values of a source type. -/
def Ty.irTy : Ty → IrTy
  | .int => .i32
  | .string => .ptr

/-- An integer is a 32-bit integer. -/
@[simp] theorem Ty.irTy_int : Ty.int.irTy = .i32 := rfl

/-- A string is a pointer. -/
@[simp] theorem Ty.irTy_string : Ty.string.irTy = .ptr := rfl

namespace Ir

/-- The register an instruction defines, with the type of its value. -/
def Instr.def? : Instr → Option (Reg × IrTy)
  | .load r t _ => some (r, t.irTy)
  | .literal r _ => some (r, .ptr)
  | .arith r .. => some (r, .i32)
  | .icmp r .. => some (r, .i1)
  | .strTest r .. => some (r, .i1)
  | .concat r .. => some (r, .ptr)
  | .copy r _ => some (r, .ptr)
  | .widen r _ => some (r, .i32)
  | .call r t .. => some (r, t.irTy)
  | _ => none

/-- The operands an instruction reads, each with the type it reads it at: integers in arithmetic and integer
comparisons, strings in the runtime's functions, a truth value in a branch and a widening, a value of the stated
type in a store, an argument and a return. -/
def Instr.uses : Instr → List (Value × IrTy)
  | .arith _ _ l r | .icmp _ _ l r => [(l, .i32), (r, .i32)]
  | .strTest _ _ l r | .concat _ l r => [(l, .ptr), (r, .ptr)]
  | .copy _ v | .free v => [(v, .ptr)]
  | .widen _ v => [(v, .i1)]
  | .store t v _ | .ret t v => [(v, t.irTy)]
  | .call _ _ _ args => args.map fun (t, v) => (v, t.irTy)
  | .branch c _ _ => [(c, .i1)]
  | .alloca .. | .load .. | .literal .. | .jump _ => []

/-- The registers an item defines. -/
def Item.defs : Item → List (Reg × IrTy)
  | .instr i => i.def?.toList
  | _ => []

/-- The registers code defines, in order, with their types. -/
def defs (code : List Item) : List (Reg × IrTy) := code.flatMap Item.defs

/-- No code defines no register. -/
@[simp] theorem defs_nil : defs [] = [] := rfl

/-- Code one piece after another defines the registers of each, in order. -/
@[simp] theorem defs_append (a b : List Item) : defs (a ++ b) = defs a ++ defs b := List.flatMap_append

/-- An item followed by code defines the item's register, if any, then the code's. -/
@[simp] theorem defs_cons (i : Item) (a : List Item) : defs (i :: a) = i.defs ++ defs a := List.flatMap_cons

/-- An instruction defines the register it defines. -/
@[simp] theorem Item.defs_instr (i : Instr) : (Item.instr i).defs = i.def?.toList := rfl

/-- A label defines no register. -/
@[simp] theorem Item.defs_label (l : Label) : (Item.label l).defs = [] := rfl

/-- An operand has a type, given the registers defined with their types and the parameters of the function it
stands in: an integer constant is an integer, null is a string, a register has the type of its definition, and a
parameter the type of its declaration. -/
def ValueTyped (Γ : List (Reg × IrTy)) (params : List (Ty × String)) : Value → IrTy → Prop
  | .int _, τ => τ = .i32
  | .null, τ => τ = .ptr
  | .reg r, τ => (r, τ) ∈ Γ
  | .arg n, τ => ∃ t, (t, n) ∈ params ∧ t.irTy = τ

/-- An operand typed by some definitions and parameters is typed by more. -/
theorem ValueTyped.mono {Γ Γ' : List (Reg × IrTy)} {ps ps' : List (Ty × String)} {v : Value} {τ : IrTy}
    (h : ValueTyped Γ ps v τ) (hΓ : ∀ x ∈ Γ, x ∈ Γ') (hps : ∀ x ∈ ps, x ∈ ps') : ValueTyped Γ' ps' v τ := by
  cases v with
  | reg r => exact hΓ _ h
  | arg n =>
    obtain ⟨t, ht, hτ⟩ := h
    exact ⟨t, hps _ ht, hτ⟩
  | int _ | null => exact h

/-- The zero value of a type has the type. -/
theorem zero_typed (Γ : List (Reg × IrTy)) (ps : List (Ty × String)) (t : Ty) : ValueTyped Γ ps (zero t) t.irTy := by
  cases t <;> rfl

/-- A truth value is read only by a branch, as its condition, and by a widening, as its source. -/
theorem Instr.uses_i1 {i : Instr} {v : Value} (h : (v, IrTy.i1) ∈ i.uses) :
    (∃ l₁ l₂, i = .branch v l₁ l₂) ∨ (∃ r, i = .widen r v) := by
  cases i with
  | branch c l₁ l₂ =>
    simp only [uses, List.mem_singleton, Prod.mk.injEq, and_true] at h
    exact .inl ⟨l₁, l₂, h ▸ rfl⟩
  | widen r s =>
    simp only [uses, List.mem_singleton, Prod.mk.injEq, and_true] at h
    exact .inr ⟨r, h ▸ rfl⟩
  | store t _ _ | ret t _ => cases t <;> simp [uses, Ty.irTy] at h
  | call _ _ _ args =>
    simp only [uses, List.mem_map, Prod.mk.injEq] at h
    obtain ⟨⟨t, _⟩, _, _, ht⟩ := h
    cases t <;> simp [Ty.irTy] at ht
  | _ => simp [uses] at h

end Ir

/-! ## What lowering relies on from the tree -/

/-- The nodes in a node's statement positions: the arms of a choice, the body of a loop, the items of a block. An
expression has none. -/
def Node.stmtChildren : Node → List NodeId
  | .stmt (.ite _ t e) => t :: e.toList
  | .stmt (.whileLoop _ b) | .stmt (.doLoop b _) | .stmt (.forLoop _ _ _ b) => [b]
  | .stmt (.block items) => items
  | _ => []

/-- The variables a node reads or assigns. -/
def Node.vars : Node → List SymbolId
  | .expr (.read s) _ | .expr (.assign s _) _ => [s]
  | _ => []

/-- A reference in a statement position is a reference. -/
theorem Node.stmtChildren_sub {n : Node} {c : NodeId} (h : c ∈ n.stmtChildren) : c ∈ n.children := by
  match n with
  | .stmt (.ite _ t e) => exact List.mem_cons_of_mem _ h
  | .stmt (.whileLoop _ b) | .stmt (.doLoop b _) => simp_all [stmtChildren, children]
  | .stmt (.forLoop _ _ _ b) => simp_all [stmtChildren, children]
  | .stmt (.block _) => exact h
  | .expr _ _ | .stmt (.declare _) | .stmt (.eval _) | .stmt (.ret _) | .stmt (.prototype _)
    | .stmt (.define _ _) => simp [stmtChildren] at h

namespace Program

/-- Every expression node of known type has the type its parts give it, as the tree's builder types it. -/
def TypesRecorded (p : Program) : Prop :=
  ∀ id e t, p.ast.get? id = some (.expr e (some t)) → p.ast.typeOf p.symbols e = some t

/-- Whether a node has the type its parts give it, when it is an expression of known type. -/
def recordsType (p : Program) : Node → Bool
  | .expr e (some t) => p.ast.typeOf p.symbols e == some t
  | _ => true

/-- Every expression has the type its parts give it exactly when every node records its type. -/
theorem typesRecorded_iff {p : Program} : p.TypesRecorded ↔ ∀ n ∈ p.ast.nodes.toList, p.recordsType n = true := by
  constructor
  · intro h n hn
    obtain ⟨i, hi⟩ := List.mem_iff_getElem?.mp hn
    match n, hi with
    | .expr e (some t), hi => simp [recordsType, h i e t (by rwa [Ast.get?, ← Array.getElem?_toList])]
    | .expr _ none, _ | .stmt _, _ => rfl
  · intro h id e t he
    have hn : Node.expr e (some t) ∈ p.ast.nodes.toList := List.mem_of_getElem? (by rwa [Array.getElem?_toList])
    simpa [recordsType] using h _ hn

/-- Whether every expression has the type its parts give it is decided node by node. -/
instance (p : Program) : Decidable p.TypesRecorded := decidable_of_iff _ typesRecorded_iff.symm

/-- The IR type of the value of an expression node of source type t: a comparison gives a truth value. -/
def valueTy (p : Program) (id : NodeId) (t : Ty) : IrTy := if p.isComparison id then .i1 else t.irTy

/-- The nodes reached from a node through statement positions, itself included. -/
inductive StmtReaches (p : Program) : NodeId → NodeId → Prop
  | refl (id : NodeId) : p.StmtReaches id id
  | child {id c d : NodeId} {n : Node} : p.ast.get? id = some n → c ∈ n.stmtChildren → p.StmtReaches c d →
      p.StmtReaches id d

/-- A node reached through statement positions is reached. -/
theorem StmtReaches.reaches {p : Program} {id d : NodeId} (h : p.StmtReaches id d) : p.Reaches id d := by
  induction h with
  | refl id => exact .refl id
  | child hn hc _ ih => exact .child hn (Node.stmtChildren_sub hc) ih

/-- A variable that a node, or a node it reaches, reads or assigns. -/
def VarOf (p : Program) (id : NodeId) (s : SymbolId) : Prop :=
  ∃ d n, p.Reaches id d ∧ p.ast.get? d = some n ∧ s ∈ n.vars

/-- A type that a return reached through statement positions returns a value of. -/
def ReturnsFrom (p : Program) (id : NodeId) (t : Ty) : Prop :=
  ∃ d x, p.StmtReaches id d ∧ p.ast.get? d = some (.stmt (.ret x)) ∧ p.ast.ty? x = some t

/-- A variable declared by a declaration reached through statement positions. -/
def DeclaredIn (p : Program) (b : NodeId) (s : SymbolId) : Prop :=
  ∃ d syms, p.StmtReaches b d ∧ p.ast.get? d = some (.stmt (.declare syms)) ∧ s ∈ syms

/-- A function body refers only to the function's parameters, to locals it declares and to globals. -/
def Scoped (p : Program) (f : FunctionId) (b : NodeId) : Prop :=
  ∀ s, p.VarOf b s →
    s ∈ (p.symbols.signature f).params ∨ p.DeclaredIn b s ∨ (p.symbols.symbol s).flags.global = true

/-- Every return of a function body returns a value of the function's result type. -/
def ReturnsDeclared (p : Program) (f : FunctionId) (b : NodeId) : Prop :=
  ∀ t, p.ReturnsFrom b t → t = (p.symbols.signature f).result

/-! ## Well-typed functions -/

/-- The types and names of a function's parameters, as its head lists them. -/
def paramsOf (p : Program) (f : FunctionId) : List (Ty × String) :=
  ((p.symbols.signature f).params.map p.symbols.symbol).map fun s => (s.ty, s.name)

/-- The head of a function's definition. -/
def headerOf (p : Program) (f : FunctionId) : Item :=
  .header (p.symbols.signature f).result (p.symbols.signature f).name (p.paramsOf f)

/-- A call names a function of the unit, with its result type, and passes arguments of its parameters' types. -/
def CallTyped (p : Program) : Instr → Prop
  | .call _ r callee args => ∃ f, (p.symbols.signature f).name = callee ∧ (p.symbols.signature f).result = r ∧
      args.map Prod.fst = (p.symbols.signature f).params.map fun s => (p.symbols.symbol s).ty
  | _ => True

/-- A store of a value of type t goes to a stack slot that the body reserves for type t, or to a global variable of
type t. -/
def StoreSlotted (p : Program) (body : List Item) (t : Ty) : Address → Prop
  | .slot n => .instr (.alloca n t) ∈ body
  | .global n => ∃ s, (p.symbols.symbol s).name = n ∧ (p.symbols.symbol s).ty = t ∧
      (p.symbols.symbol s).flags.global = true

/-- The body of a definition of f, with Γ the registers of the unit: every operand is read at the type its
definition has, every call passes arguments of the callee's parameter types, every store of a body that refers only
to its own variables and globals goes to a slot of the stored type, and the returns carry the declared result type
exactly when every return statement of the body returns a value of that type. -/
structure FunctionTyped (p : Program) (Γ : List (Reg × IrTy)) (f : FunctionId) (b : NodeId) (body : List Item) :
    Prop where
  operands : ∀ i, .instr i ∈ body → ∀ u ∈ i.uses, ValueTyped Γ (p.paramsOf f) u.1 u.2
  calls : ∀ i, .instr i ∈ body → p.CallTyped i
  stores : p.Scoped f b → ∀ t v a, .instr (.store t v a) ∈ body → p.StoreSlotted body t a
  returns : (∀ t v, .instr (.ret t v) ∈ body → t = (p.symbols.signature f).result) ↔ p.ReturnsDeclared f b

/-- In a body, with Γ the registers of the unit, a truth value is read only as a branch's condition or a widening's
source. -/
def TruthReads (Γ : List (Reg × IrTy)) (body : List Item) : Prop :=
  ∀ i r τ, .instr i ∈ body → (.reg r, τ) ∈ i.uses → (r, IrTy.i1) ∈ Γ →
    (∃ l₁ l₂, i = .branch (.reg r) l₁ l₂) ∨ (∃ d, i = .widen d (.reg r))

/-- Emitting the node at id wrote the function headed by hdr after the code `before`: from a generator whose code was
`before`, emitting the node through a walk of the program writes the head, the entry label and then a first part of
`rest`. -/
def WritesFunction (p : Program) (id : NodeId) (before : List Item) (hdr : Item) (rest : List Item) : Prop :=
  ∃ n g g' tail, g.mark.code = before ∧ Runs ((p.walk n).emit id) g () g' ∧
    g'.mark.code = before ++ hdr :: .entry :: tail ∧ tail <+: rest

/-- A function written stays written with more code after it. -/
theorem WritesFunction.append {p : Program} {id : NodeId} {before : List Item} {hdr : Item} {rest : List Item}
    (h : p.WritesFunction id before hdr rest) (more : List Item) : p.WritesFunction id before hdr (rest ++ more) := by
  obtain ⟨n, g, g', tail, hb, hr, hc, ht⟩ := h
  exact ⟨n, g, g', tail, hb, hr, hc, ht.trans (List.prefix_append rest more)⟩

/-- Where an entry label follows an item, after the code `before`, the item and what comes after the entry label are
a function of the unit, written there by emitting its definition: the head of the definition, followed, when the
body has only local nodes, by a well-typed body and the closing brace. -/
def FunctionAt (p : Program) (Γ : List (Reg × IrTy)) (before : List Item) (hdr : Item) (rest : List Item) : Prop :=
  ∃ id f b, p.ast.get? id = some (.stmt (.define f b)) ∧ hdr = p.headerOf f ∧ p.WritesFunction id before hdr rest ∧
    (p.Within p.Local b → ∃ body post, rest = body ++ .close :: post ∧ .close ∉ body ∧ p.FunctionTyped Γ f b body)

end Program

/-- Every entry label in code written after the code `base` stands after an item, and the code before the item, the
item and what follows the entry label have F. -/
def Chunks (F : List Item → Item → List Item → Prop) (base code : List Item) : Prop :=
  ∀ pre rest, code = pre ++ .entry :: rest → ∃ pre' hdr, pre = pre' ++ [hdr] ∧ F (base ++ pre') hdr rest

namespace Chunks

variable {F F' : List Item → Item → List Item → Prop} {base a b : List Item}

/-- Code with no entry label has no chunk. -/
theorem of_entry_not_mem (h : .entry ∉ a) : Chunks F base a := by
  rintro pre rest rfl
  exact absurd (List.mem_append_right pre List.mem_cons_self) h

/-- An item other than an entry label, then code: the chunks of the code, after the item. -/
theorem cons {i : Item} (hi : i ≠ .entry) (h : Chunks F (base ++ [i]) a) : Chunks F base (i :: a) := by
  intro pre rest he
  cases pre with
  | nil => exact absurd (List.cons.inj he).1 hi
  | cons j pre =>
    rw [List.cons_append, List.cons.injEq] at he
    obtain ⟨rfl, he⟩ := he
    obtain ⟨pre', hdr, rfl, hf⟩ := h pre rest he
    exact ⟨i :: pre', hdr, rfl, by simpa using hf⟩

/-- An item followed by an entry label and code: its own chunk, then the chunks of the code. -/
theorem function {hdr : Item} (hh : hdr ≠ .entry) (hf : F base hdr a) (h : Chunks F (base ++ [hdr, .entry]) a) :
    Chunks F base (hdr :: .entry :: a) := by
  intro pre rest he
  match pre, he with
  | [], he => exact absurd (List.cons.inj he).1 hh
  | [_], he =>
    simp only [List.cons_append, List.nil_append, List.cons.injEq] at he
    obtain ⟨rfl, -, rfl⟩ := he
    exact ⟨[], hdr, rfl, by simpa using hf⟩
  | j :: k :: pre, he =>
    simp only [List.cons_append, List.cons.injEq] at he
    obtain ⟨rfl, rfl, he⟩ := he
    obtain ⟨pre', hdr', rfl, hf'⟩ := h pre rest he
    exact ⟨hdr :: .entry :: pre', hdr', rfl, by simpa using hf'⟩

/-- Chunks of two pieces of code are chunks of the two together, when a chunk stays one with code after it. -/
theorem append (hF : ∀ before hdr rest more, F before hdr rest → F before hdr (rest ++ more)) (ha : Chunks F base a)
    (hb : Chunks F (base ++ a) b) : Chunks F base (a ++ b) := by
  intro pre rest he
  rcases List.append_eq_append_iff.mp he.symm with ⟨a', rfl, ha'⟩ | ⟨c', rfl, hc'⟩
  · cases a' with
    | nil =>
      obtain ⟨pre', hdr, he', -⟩ := hb [] rest (by simpa using ha'.symm)
      exact absurd he'.symm (List.append_ne_nil_of_right_ne_nil pre' (List.cons_ne_nil hdr []))
    | cons j a' =>
      obtain ⟨rfl, rfl⟩ := List.cons.inj ha'
      obtain ⟨pre', hdr, rfl, hf⟩ := ha pre a' rfl
      exact ⟨pre', hdr, rfl, hF _ hdr a' b hf⟩
  · obtain ⟨pre', hdr, rfl, hf⟩ := hb c' rest hc'
    exact ⟨a ++ pre', hdr, by simp, by simpa using hf⟩

/-- Chunks stay chunks under a weaker property. -/
theorem mono (hF : ∀ before hdr rest, F before hdr rest → F' before hdr rest) (h : Chunks F base a) :
    Chunks F' base a := by
  intro pre rest he
  obtain ⟨pre', hdr, hp, hf⟩ := h pre rest he
  exact ⟨pre', hdr, hp, hF _ hdr rest hf⟩

/-- Chunks after equal code are the same chunks. -/
theorem rebase {base' : List Item} (hb : base = base') (h : Chunks F base a) : Chunks F base' a := hb ▸ h

end Chunks

end Lowering
