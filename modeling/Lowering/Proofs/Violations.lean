import Lowering.Proofs.Rules

/-!
# The first rule a tree breaks

Lowering checks each node as it meets it and stops at the first check that fails. `Program.violation` says, without
lowering anything, which check that is: the checks of a node in the order its rule makes them, then the nodes it
refers to in the order the rule lowers them, each with its own checks before its references. A type check of an
operand reads the type recorded on the operand's node, so a node checks its operands' types before it lowers them.

A node stands in one of two places (`Place`): lowered for its effect, as an instruction or an item of a block, or for
its value, as an operand, an argument, an assigned or returned value, a condition, or the start or step of a `for`.
In the place of a value the node must be an expression with a recorded type; an expression lowered for its effect
need not have one.

`violation` follows only references to earlier nodes, so that it is defined on every program. On a node built bottom
up (`Program.BuiltUp`), whose every reference, however deep, names an earlier node, it follows all of them.
-/

namespace Lowering

/-- Where a node stands: lowered for its effect, or for its value. -/
inductive Place where
  | instr
  | value
  deriving DecidableEq, Repr

namespace Program

variable (p : Program)

/-- The type recorded for the value at a position, or why there is none: no node there, or a node that has no
recorded value type. -/
def typeAt (id : NodeId) : Except CodegenError Ty :=
  match p.ast.get? id with
  | none => .error (.dangling id)
  | some (.expr _ (some t)) => .ok t
  | some n => .error (.notAnExpression id n.kindName)

/-- The first violation of the checks `k` makes with the type of the value at a position; the position's own fault
when it has no type. -/
def withType (id : NodeId) (k : Ty → Option CodegenError) : Option CodegenError :=
  match p.typeAt id with
  | .ok t => k t
  | .error e => some e

section Checks

/- `below pl c` stands for the first violation met lowering the node `c` in the place `pl`. -/
variable (below : Place → NodeId → Option CodegenError)

/-- The checks of a binary operator: both operands have types, the same one, and a string only where the operator
takes strings (`refuses` says where it does not); then the operands, left to right. -/
def binaryCheck (op : Operation) (refuses : Prop) [Decidable refuses] (l r : NodeId) : Option CodegenError :=
  p.withType l fun tl => p.withType r fun tr =>
    if tl ≠ tr then some (.mismatched op tl tr)
    else if tl = .string ∧ refuses then some (.unsupported op tl)
    else below .value l <|> below .value r

/-- The checks of a call's arguments from the `i`-th on, each with its parameter: an argument's type is its
parameter's, and the argument comes before the ones after it. -/
def argumentsCheck (callee : String) : Nat → List (NodeId × SymbolId) → Option CodegenError
  | _, [] => none
  | i, (a, s) :: rest => p.withType a fun t =>
    if t ≠ (p.symbols.symbol s).ty then some (.argumentType callee i (p.symbols.symbol s).ty t)
    else below .value a <|> argumentsCheck callee (i + 1) rest

/-- The first violation met lowering an expression of a form. -/
def formCheck : Expr → Option CodegenError
  | .read _ | .int _ | .str _ => none
  | .neg x => p.withType x fun t => if t = .string then some (.unsupported .negate t) else below .value x
  | .arith op l r => p.binaryCheck below (.arith op) (op ≠ .add) l r
  | .cmp op l r => p.binaryCheck below (.cmp op) (op ≠ .eq ∧ op ≠ .ne) l r
  | .assign s x => p.withType x fun t =>
    if t ≠ (p.symbols.symbol s).ty then some (.mismatched .assign (p.symbols.symbol s).ty t) else below .value x
  | .call f args =>
    if args.length ≠ (p.symbols.signature f).params.length then
      some (.argumentCount (p.symbols.signature f).name (p.symbols.signature f).params.length args.length)
    else p.argumentsCheck below (p.symbols.signature f).name 0 (args.zip (p.symbols.signature f).params)

/-- The checks of a branch condition: it has a type, and is not a string unless it is a comparison; then the
condition itself. -/
def testCheck (c : NodeId) : Option CodegenError :=
  p.withType c fun t =>
    if p.isComparison c = false ∧ t = .string then some (.unsupported .truthTest .string) else below .value c

/-- The first violation met lowering an instruction of a form: its parts in the order they run, except that the
body of a `do` loop comes before its test and the body of a `for` loop before its step. -/
def stmtCheck : Stmt → Option CodegenError
  | .declare _ | .prototype _ => none
  | .eval e => below .value e
  | .ite c t e => p.testCheck below c <|> below .instr t <|> e.bind (below .instr)
  | .whileLoop c b => p.testCheck below c <|> below .instr b
  | .doLoop b c => below .instr b <|> p.testCheck below c
  | .forLoop i c s b => below .value i <|> p.testCheck below c <|> below .instr b <|> below .value s
  | .ret x => p.withType x fun _ => below .value x
  | .block items => items.findSome? (below .instr)
  | .define _ b => below .instr b

/-- The first violation met lowering the node at a position in a place. In the place of a value only an expression
with a recorded type may stand; an expression lowered for its effect is lowered by its form whatever its type. -/
def check (pl : Place) (id : NodeId) : Option CodegenError :=
  match p.ast.get? id, pl with
  | none, _ => some (.dangling id)
  | some (.expr e _), .instr => p.formCheck below e
  | some (.stmt s), .instr => p.stmtCheck below s
  | some (.expr e (some _)), .value => p.formCheck below e
  | some n, .value => some (.notAnExpression id n.kindName)

end Checks

/-- The first rule that lowering the node at a position in a place breaks, following the references to earlier
nodes. -/
def violation (pl : Place) (id : NodeId) : Option CodegenError :=
  p.check (fun pl' c => if c < id then violation pl' c else none) pl id
termination_by id

/-- The first violation of a node, as its definition unfolds: the checks of the node over those of its earlier
references. -/
theorem violation_eq (pl : Place) (id : NodeId) :
    p.violation pl id = p.check (fun pl' c => if c < id then p.violation pl' c else none) pl id := by
  rw [violation]

end Program

end Lowering
