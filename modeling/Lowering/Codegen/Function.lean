import Lowering.Codegen.Expr
import Lowering.Ir.Print

/-!
# Functions, constants and the string runtime

A prototype is one line. A definition writes its head and `entry:` at the current level, spills every
parameter to a stack slot (reads and writes in the body go through the slot), lowers the body one level in,
and if the body falls off its end frees every owned string and returns zero (or null). After the closing
brace come the string constants used so far, a blank line, and, once per unit and only if some lowered code
calls it, the prototypes of the string runtime.
-/

namespace Lowering

open Ir Generator

namespace Generator

/-- Writes the string constants used since the last flush, in first-use order. -/
def flushConstants : GenM Unit := do
  let cs := (← get).pending
  modify fun g => { g with pending := #[] }
  cs.toList.forM fun (r, bytes) => write (.constant r bytes)

/-- Writes the runtime's prototypes and a blank line, if lowered code calls the runtime and they have not been
written yet. -/
def declareRuntime : GenM Unit := do
  let g ← get
  if g.runtimeUsed && !g.runtimeDeclared then
    Helper.all.forM fun h => write (.helper h)
    writeBlank
    modify fun g => { g with runtimeDeclared := true }

/-- The text of the unit: what was lowered, then the constants and runtime prototypes still owed. -/
def finish (g : Generator) : String :=
  let g' := ((flushConstants *> declareRuntime : GenM Unit).run.run g).2
  render g'.layout.indentation g'.lines.toList

/-- The text written so far. -/
def output (g : Generator) : String := render g.layout.indentation g.lines.toList

end Generator

namespace Program

/-- Declares a function of another unit. -/
def lowerPrototype (p : Program) (f : FunctionId) : GenM Unit := do
  let sig := p.symbols.signature f
  write (.prototype sig.result sig.name (sig.params.map fun s => (p.symbols.symbol s).ty))

/-- Defines a function by its body. A failure in the body leaves the level and the spilled parameters as
they were inside. -/
def lowerDefinition (p : Program) (w : Walk) (f : FunctionId) (body : NodeId) : GenM Unit := do
  let sig := p.symbols.signature f
  let params := sig.params.map p.symbols.symbol
  write (.header sig.result sig.name (params.map fun s => (s.ty, s.name)))
  write .entry
  modify fun g => { g with depth := g.depth + 1, closed := false, owned := [], marks := [] }
  params.forM fun s => do
    instr (.alloca (s.name ++ ".addr") s.ty)
    instr (.store s.ty (.arg s.name) (.slot (s.name ++ ".addr")))
  let outer := (← get).spilled
  modify fun g => { g with spilled := sig.params }
  w.emit body
  unless (← get).closed do
    freeOwned
    terminate (.ret sig.result (zero sig.result))
  modify fun g => { g with spilled := outer, depth := g.depth - 1, closed := false }
  write .close
  flushConstants
  writeBlank
  declareRuntime

end Program

end Lowering
