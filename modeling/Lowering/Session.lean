import Lowering.Codegen.Emit

/-!
# Sessions with a generator

A session lowers nodes one at a time through one generator and can look at it between steps. A failed emit is
not undone: the lines it appended, the nesting level, the spilled parameters, the string scopes and the
remembered operands all stay as the failure left them.
-/

namespace Lowering

/-- One step of a session. -/
inductive SessionStep where
  /-- Emits a node. -/
  | emit (id : NodeId)
  /-- Asks for the operand holding a lowered expression's value. -/
  | register (id : NodeId)
  /-- Emits a node through a generator that lowers nothing. -/
  | emitRefused (id : NodeId)
  /-- Asks for the text written so far. -/
  | output
  deriving DecidableEq, Repr

/-- The reply to a session step. -/
inductive SessionReply where
  /-- The outcome of an emit and the text it appended. -/
  | emitted (r : Except CodegenError Unit) (appended : String)
  | register (r : Option String)
  | refused (r : Except CodegenError Unit)
  | output (text : String)

/-- Applies a session step to a generator: its reply and the generator after it. -/
def Generator.apply (g : Generator) (p : Program) : SessionStep → SessionReply × Generator
  | .emit id =>
    let (r, appended, g') := g.emitIn p id
    (.emitted r appended, g')
  | .register id => (.register (g.register? id), g)
  | .emitRefused id => (.refused (p.refuse id), g)
  | .output => (.output g.output, g)

end Lowering
