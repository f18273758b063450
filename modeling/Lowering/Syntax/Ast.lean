import Lowering.Syntax.Node

/-!
# The syntax tree

A tree is an arena of nodes, built bottom up, and the list of its roots: the nodes a unit lowers, in order.
Each builder appends one node and returns its position. An expression's type is fixed when it is built:
a variable or an assignment has the variable's type, a literal its own, a negation or an arithmetic node the
type of its (left) operand, a comparison `int`, a call the callee's result type.
-/

namespace Lowering

/-- The nodes of a unit and its roots. -/
structure Ast where
  /-- Every node, at its position. -/
  nodes : Array Node := #[]
  /-- The nodes that a unit lowers, in order. -/
  roots : Array NodeId := #[]
  deriving Repr

namespace Ast

/-- The number of nodes. -/
def size (a : Ast) : Nat := a.nodes.size

/-- The node at a position, if there is one. -/
def get? (a : Ast) (id : NodeId) : Option Node := a.nodes[id]?

/-- The type of the value of the node at a position: unknown for a missing node or an instruction. -/
def ty? (a : Ast) (id : NodeId) : Option Ty := (a.get? id).bind Node.ty

/-- Appends a node; its position is the former size. -/
def push (a : Ast) (n : Node) : Ast × NodeId := ({ a with nodes := a.nodes.push n }, a.size)

/-- Appends an expression whose type is given. -/
def pushExpr (a : Ast) (e : Expr) (ty : Option Ty) : Ast × NodeId := a.push (.expr e ty)

/-- Appends an instruction. -/
def pushStmt (a : Ast) (s : Stmt) : Ast × NodeId := a.push (.stmt s)

/-- Adds a root. -/
def addRoot (a : Ast) (id : NodeId) : Ast := { a with roots := a.roots.push id }

/-- The type an expression gets when it is built, given the symbol table it refers to. -/
def typeOf (a : Ast) (t : SymbolTable) : Expr → Option Ty
  | .read s => some (t.symbol s).ty
  | .int _ => some .int
  | .str _ => some .string
  | .neg x => a.ty? x
  | .arith _ lhs _ => a.ty? lhs
  | .cmp .. => some .int
  | .assign s _ => some (t.symbol s).ty
  | .call f _ => some (t.signature f).result

/-- Appends an expression with the type it gets from its parts. -/
def build (a : Ast) (t : SymbolTable) (e : Expr) : Ast × NodeId := a.pushExpr e (a.typeOf t e)

end Ast

end Lowering
