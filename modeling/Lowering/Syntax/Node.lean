import Lowering.Symbols.Basic
import Lowering.Syntax.Operator

/-!
# Nodes of the syntax tree

A node is an expression, which has a value, or an instruction, which has none. Nodes refer to each other by
their position in the tree's arena (`NodeId`), to variables by `SymbolId` and to functions by `FunctionId`.
A reference may name a node that does not exist; lowering reports it when it gets there.

An expression node carries the type it was given when it was built. That type is unknown when it depends on a
node that did not exist, or had no value, at the time.
-/

namespace Lowering

/-- The position of a node in the tree's arena. -/
abbrev NodeId := Nat

/-- The forms of expression. -/
inductive Expr where
  /-- The current value of a variable. -/
  | read (s : SymbolId)
  /-- An integer literal. -/
  | int (v : Int32)
  /-- A string literal, as raw source text between the quotes: escapes are not yet decoded. -/
  | str (raw : String)
  /-- Integer negation. -/
  | neg (operand : NodeId)
  /-- An arithmetic operator applied to two operands. -/
  | arith (op : ArithOp) (lhs rhs : NodeId)
  /-- A comparison of two operands. -/
  | cmp (op : CmpOp) (lhs rhs : NodeId)
  /-- Stores a value into a variable; its own value is the one stored. -/
  | assign (target : SymbolId) (value : NodeId)
  /-- Calls a function on arguments, in order. -/
  | call (callee : FunctionId) (args : List NodeId)
  deriving DecidableEq, Repr

/-- The forms of instruction. -/
inductive Stmt where
  /-- Declares variables, in order. -/
  | declare (syms : List SymbolId)
  /-- Evaluates an expression for its effects. -/
  | eval (e : NodeId)
  /-- A two-way choice; the else branch may be absent. -/
  | ite (cond thenB : NodeId) (elseB : Option NodeId)
  /-- A loop that tests before each round. -/
  | whileLoop (cond body : NodeId)
  /-- A loop that tests after each round. -/
  | doLoop (body cond : NodeId)
  /-- A loop with a start expression, a test and a step expression. -/
  | forLoop (init cond step body : NodeId)
  /-- Returns a value from the enclosing function. -/
  | ret (value : NodeId)
  /-- A sequence of nodes, in order. -/
  | block (items : List NodeId)
  /-- Declares a function defined elsewhere. -/
  | prototype (f : FunctionId)
  /-- Defines a function by its body. -/
  | define (f : FunctionId) (body : NodeId)
  deriving DecidableEq, Repr

/-- A node: an expression with its type, if known, or an instruction. -/
inductive Node where
  | expr (e : Expr) (ty : Option Ty)
  | stmt (s : Stmt)
  deriving DecidableEq, Repr

/-- The name of an expression form in diagnostics. -/
def Expr.kindName : Expr → String
  | .read _ => "Variable"
  | .int _ => "ConstInteger"
  | .str _ => "ConstString"
  | .neg _ => "UnaryExpression"
  | .arith .. => "BinaryExpression"
  | .cmp .. => "Condition"
  | .assign .. => "Assignment"
  | .call .. => "FunctionCall"

/-- The name of an instruction form in diagnostics. -/
def Stmt.kindName : Stmt → String
  | .declare _ => "DeclarationList"
  | .eval _ => "ExpressionInstruction"
  | .ite .. => "CondInstruction"
  | .whileLoop .. => "WhileInstruction"
  | .doLoop .. => "DoInstruction"
  | .forLoop .. => "ForInstruction"
  | .ret _ => "ReturnInstruction"
  | .block _ => "CompoundInstruction"
  | .prototype _ => "FunctionDeclaration"
  | .define .. => "FunctionDefinition"

/-- The name of a node's form in diagnostics. -/
def Node.kindName : Node → String
  | .expr e _ => e.kindName
  | .stmt s => s.kindName

/-- The type of a node's value: unknown for an instruction. -/
def Node.ty : Node → Option Ty
  | .expr _ t => t
  | .stmt _ => none

end Lowering
