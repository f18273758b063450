import Lowering.Syntax.Node

/-!
# Why lowering stops

Lowering stops at the first node it cannot lower, with one of these causes. Each cause names the node or the
operation at fault; `CodegenError.message` words them.
-/

namespace Lowering

/-- An operation that a type check can refuse. -/
inductive Operation where
  | arith (op : ArithOp)
  | cmp (op : CmpOp)
  /-- Integer negation. -/
  | negate
  /-- Using a value as a branch condition. -/
  | truthTest
  /-- Storing into a variable. -/
  | assign
  deriving DecidableEq, Repr

/-- The operation as diagnostics print it. -/
def Operation.symbol : Operation → String
  | .arith op => op.symbol
  | .cmp op => op.symbol
  | .negate => "-"
  | .truthTest => "truth test"
  | .assign => "="

/-- A cause for lowering to stop. -/
inductive CodegenError where
  /-- The operation is not defined on values of the type. -/
  | unsupported (op : Operation) (ty : Ty)
  /-- The two sides of the operation have different types. -/
  | mismatched (op : Operation) (lhs rhs : Ty)
  /-- The generator lowers no node of this form. -/
  | unhandled (generator kind : String) (node : NodeId)
  /-- A node without a value stands where a value is needed. -/
  | notAnExpression (node : NodeId) (kind : String)
  /-- A reference names a node that does not exist. -/
  | dangling (node : NodeId)
  /-- A call passes the wrong number of arguments. -/
  | argumentCount (function : String) (expected found : Nat)
  /-- A call passes an argument of the wrong type; arguments count from zero. -/
  | argumentType (function : String) (index : Nat) (expected found : Ty)
  /-- A node refers back to itself through its operands; trees built bottom up never do. -/
  | cyclic (node : NodeId)
  deriving DecidableEq, Repr

/-- The text of a node's number. -/
def nodeText (n : NodeId) : String := "#" ++ toString n

/-- The text of the cause. -/
def CodegenError.message : CodegenError → String
  | .unsupported op ty => "operator '" ++ op.symbol ++ "' is not supported on " ++ ty.name ++ " operands"
  | .mismatched op lhs rhs =>
    "operator '" ++ op.symbol ++ "' applied to mismatched operands (" ++ lhs.name ++ " and " ++ rhs.name ++ ")"
  | .unhandled generator kind node =>
    generator ++ " does not implement a handler for node kind '" ++ kind ++ "' (node " ++ nodeText node ++ ")"
  | .notAnExpression node kind =>
    "node " ++ nodeText node ++ " ('" ++ kind ++ "') is used as an expression but produces no value"
  | .dangling node => "node " ++ nodeText node ++ " is not part of the tree being lowered"
  | .argumentCount function expected found =>
    "function '" ++ function ++ "' expects " ++ toString expected ++ " argument(s), got " ++ toString found
  | .argumentType function index expected found =>
    "argument " ++ toString index ++ " of call to '" ++ function ++ "' has type " ++ found.name
      ++ ", expected " ++ expected.name
  | .cyclic node => "node " ++ nodeText node ++ " refers back to itself"

/-- The text of a failed compilation. -/
def CodegenError.compileMessage (e : CodegenError) : String := "Codegen error: " ++ e.message

end Lowering
