import Lowering.Codegen.Block
import Lowering.Text.Literal

/-!
# Lowering expressions

An expression node is lowered at most once: the operand holding its value is remembered, and a second use
reads it back. Operands are lowered left to right, after the types of both have been checked, and the result
goes to a fresh register.

A comparison's value is a truth value (`i1`). Where an integer is needed it is widened, freshly at every use;
where a branch needs a truth value, an integer is compared with zero.

Rules reach the nodes they refer to through a `Walk`, which says how to emit a node and how to lower an
expression; `Lowering.Codegen.Emit` ties the knot.
-/

namespace Lowering

open Ir Generator

/-- How a rule lowers the nodes it refers to. -/
structure Walk where
  /-- Lowers a node for its effect. -/
  emit : NodeId → GenM Unit
  /-- Lowers an expression node, at most once, and gives the operand holding its value. -/
  expr : NodeId → GenM Value

namespace Program

/-- The address of a variable: the stack slot of a parameter of the function being defined, the global of a
global or external variable, else the local's own slot. -/
def storage (p : Program) (s : SymbolId) : GenM Address := do
  let sym := p.symbols.symbol s
  if (← get).spilled.contains s then pure (.slot (sym.name ++ ".addr"))
  else if sym.flags.global || sym.flags.external then pure (.global sym.name)
  else pure (.slot sym.name)

/-- The type of the value of the node at a position; fails if there is no node there or it has no value. -/
def exprType (p : Program) (id : NodeId) : GenM Ty :=
  match p.ast.get? id with
  | none => throw (.dangling id)
  | some (.expr _ (some t)) => pure t
  | some n => throw (.notAnExpression id n.kindName)

/-- The common type of two operands, checked left then right; they must agree. -/
def operandType (p : Program) (op : Operation) (lhs rhs : NodeId) : GenM Ty := do
  let tl ← p.exprType lhs
  let tr ← p.exprType rhs
  if tl ≠ tr then throw (.mismatched op tl tr)
  pure tl

/-- Whether the node at a position is a comparison, whose value is a truth value. -/
def isComparison (p : Program) (id : NodeId) : Bool :=
  match p.ast.get? id with
  | some (.expr (.cmp ..) _) => true
  | _ => false

/-- The operand of an expression's value as an integer or a string: a comparison's truth value is widened. -/
def valueOf (p : Program) (w : Walk) (id : NodeId) : GenM Value := do
  let v ← w.expr id
  if p.isComparison id then
    let r ← temp
    instr (.widen r v)
    pure (.reg r)
  else pure v

/-- The truth value of an expression for a branch: a comparison as it is, an integer compared with zero.
A string has no truth value. -/
def testOf (p : Program) (w : Walk) (id : NodeId) : GenM Value := do
  let t ← p.exprType id
  if p.isComparison id then w.expr id
  else match t with
    | .int => do
      let v ← p.valueOf w id
      let r ← temp
      instr (.icmp r .ne v (.int 0))
      pure (.reg r)
    | .string => throw (.unsupported .truthTest .string)

/-- The typed operands of a call's arguments, left to right: each argument's type must be its parameter's. -/
def arguments (p : Program) (w : Walk) (callee : String) :
    Nat → List (NodeId × SymbolId) → GenM (List (Ty × Value))
  | _, [] => pure []
  | i, (a, s) :: rest => do
    let expected := (p.symbols.symbol s).ty
    let found ← p.exprType a
    if found ≠ expected then throw (.argumentType callee i expected found)
    let v ← p.valueOf w a
    let vs ← p.arguments w callee (i + 1) rest
    pure ((expected, v) :: vs)

/-- Lowers the expression at a position, of the given form, and remembers its operand. -/
def lowerForm (p : Program) (w : Walk) (id : NodeId) : Expr → GenM Value
  | .read s => do
    let sym := p.symbols.symbol s
    let a ← p.storage s
    let r ← fresh sym.name
    instr (.load r sym.ty a)
    remember id (.reg r)
  | .int v => remember id (.int v)
  | .str raw => do
    let bytes := Literal.decode raw
    let r ← fresh "str"
    instr (.literal r (bytes.length + 1))
    queueConstant r bytes
    remember id (.reg r)
  | .neg x => do
    let t ← p.exprType x
    if t = .string then throw (.unsupported .negate t)
    let v ← p.valueOf w x
    let r ← temp
    instr (.arith r .sub (.int 0) v)
    remember id (.reg r)
  | .arith op lhs rhs => do
    let t ← p.operandType (.arith op) lhs rhs
    if t = .string ∧ op ≠ .add then throw (.unsupported (.arith op) t)
    let vl ← p.valueOf w lhs
    let vr ← p.valueOf w rhs
    let r ← temp
    match t with
    | .int => instr (.arith r op vl vr)
    | .string => do
      instr (.concat r vl vr)
      useRuntime
      own r
    remember id (.reg r)
  | .cmp op lhs rhs => do
    let t ← p.operandType (.cmp op) lhs rhs
    if t = .string ∧ op ≠ .eq ∧ op ≠ .ne then throw (.unsupported (.cmp op) t)
    let vl ← p.valueOf w lhs
    let vr ← p.valueOf w rhs
    let r ← temp
    match t with
    | .int => instr (.icmp r op vl vr)
    | .string => do
      instr (.strTest r (op = .eq) vl vr)
      useRuntime
    remember id (.reg r)
  | .assign s x => do
    let sym := p.symbols.symbol s
    let t ← p.exprType x
    if t ≠ sym.ty then throw (.mismatched .assign sym.ty t)
    let v ← p.valueOf w x
    let a ← p.storage s
    instr (.store sym.ty v a)
    remember id v
  | .call f args => do
    let sig := p.symbols.signature f
    if args.length ≠ sig.params.length then throw (.argumentCount sig.name sig.params.length args.length)
    let vs ← p.arguments w sig.name 0 (args.zip sig.params)
    let r ← temp
    instr (.call r sig.result sig.name vs)
    if sig.result = .string then own r
    remember id (.reg r)

/-- Lowers an expression node unless it has been lowered: the operand holding its value. -/
def lowerExpr (p : Program) (w : Walk) (id : NodeId) : GenM Value := do
  match (← get).values[id]? with
  | some v => pure v
  | none =>
    match p.ast.get? id with
    | none => throw (.dangling id)
    | some (.expr e (some _)) => p.lowerForm w id e
    | some n => throw (.notAnExpression id n.kindName)

end Program

end Lowering
