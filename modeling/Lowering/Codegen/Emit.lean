import Lowering.Codegen.Stmt
import Lowering.Codegen.Function

/-!
# Emitting nodes

`Program.emit` lowers a node by its form. Rules refer to other nodes through a `Walk`; the walk used at depth
`n + 1` hands its references to the walk at depth `n`, and the walk at depth zero refuses with `cyclic`.
A tree built bottom up has no reference cycle, so a node's references lead to a chain of distinct nodes that
all exist but the last: depth `size + 1` is never exhausted, and `emit` behaves as the unbounded recursion
would.

A generator that lowers nothing (`Program.refuse`) still tells a missing node from a present one.
-/

namespace Lowering

open Ir Generator

namespace Program

/-- Lowers an instruction by its form. -/
def lowerStmt (p : Program) (w : Walk) : Stmt → GenM Unit
  | .declare syms => p.lowerDeclarations syms
  | .eval e => discard (w.expr e)
  | .ite c t e => p.lowerChoice w c t e
  | .whileLoop c b => p.lowerWhile w c b
  | .doLoop b c => p.lowerDo w b c
  | .forLoop i c s b => p.lowerFor w i c s b
  | .ret x => p.lowerReturn w x
  | .block items => items.forM w.emit
  | .prototype f => p.lowerPrototype f
  | .define f b => p.lowerDefinition w f b

/-- Lowers the node at a position for its effect. An expression already lowered adds nothing. -/
def emitNode (p : Program) (w : Walk) (id : NodeId) : GenM Unit := do
  match p.ast.get? id with
  | none => throw (.dangling id)
  | some (.expr e _) => if (← get).values.contains id then pure () else discard (p.lowerForm w id e)
  | some (.stmt s) => p.lowerStmt w s

/-- The walk one level up from `w`: it lowers a node itself and its references through `w`. -/
def step (p : Program) (w : Walk) : Walk := ⟨p.emitNode w, p.lowerExpr w⟩

/-- The walk at depth zero: every reference is a cycle. -/
def stuck : Walk := ⟨fun id => throw (.cyclic id), fun id => throw (.cyclic id)⟩

/-- The walk that follows chains of at most `n` references. -/
def walk (p : Program) : Nat → Walk
  | 0 => stuck
  | n + 1 => p.step (p.walk n)

/-- Lowers the node at a position. -/
def emit (p : Program) (id : NodeId) : GenM Unit := (p.walk (p.ast.size + 1)).emit id

/-- The name of the generator that lowers nothing. -/
def refusingName : String := "NullGenerator"

/-- Emits through a generator that lowers nothing: a missing node is reported as such, any other refused. -/
def refuse (p : Program) (id : NodeId) : Except CodegenError Unit :=
  match p.ast.get? id with
  | none => .error (.dangling id)
  | some n => .error (.unhandled refusingName n.kindName id)

/-- Lowers every root, in order, with a fresh generator: the unit's text, or the first failure. -/
def compile (p : Program) (layout : Layout) : Except CodegenError String :=
  let w := p.walk (p.ast.size + 1)
  match ((p.ast.roots.toList.forM w.emit).run.run (Generator.new layout)) with
  | (.ok (), g) => .ok g.finish
  | (.error e, _) => .error e

end Program

namespace Generator

/-- Emits a node in a session: the outcome, the text the emit appended whether or not it failed, and the
generator after it. -/
def emitIn (g : Generator) (p : Program) (id : NodeId) : Except CodegenError Unit × String × Generator :=
  let (r, g') := (p.emit id).run.run g
  (r, render g'.layout.indentation (g'.lines.toList.drop g.lines.size), g')

/-- The text of the operand holding a lowered expression node's value. -/
def register? (g : Generator) (id : NodeId) : Option String := g.values[id]?.map Value.text

end Generator

end Lowering
