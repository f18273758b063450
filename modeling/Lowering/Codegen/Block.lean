import Lowering.Codegen.State

/-!
# Blocks, labels and string scopes

Instructions go into the current block. A block ends with its terminator; an instruction written after that
opens a fresh block at a new label first, so that every block has one terminator at its end. A jump to a join
point is left out when the block has already ended. Labels stand one nesting level out from the instructions.

Heap strings are owned by the function that made them and freed at the end of the scope that made them:
each branch arm, loop body and condition opens a scope, and closing it frees what was made inside, unless the
block already ended (a return has freed them then).
-/

namespace Lowering

namespace Generator

open Ir

/-- Writes an item at the current level, outside the block discipline. -/
def write (i : Item) : GenM Unit :=
  modify fun g => { g with lines := g.lines.push (.item g.depth i) }

/-- Writes a blank line. -/
def writeBlank : GenM Unit :=
  modify fun g => { g with lines := g.lines.push .blank }

/-- Starts a block at a label, one level out, after a blank line when annotating. -/
def placeLabel (l : Label) : GenM Unit :=
  modify fun g =>
    let lines := if g.layout.annotate then g.lines.push .blank else g.lines
    { g with lines := lines.push (.item (g.depth - 1) (.label l)), closed := false }

/-- When annotating, a blank line and a comment naming the construct, one level out. -/
def banner (c : Construct) : GenM Unit :=
  modify fun g =>
    if g.layout.annotate then
      { g with lines := (g.lines.push .blank).push (.item (g.depth - 1) (.banner c)) }
    else g

/-- Writes an instruction into the current block; after a terminator, into a fresh block. -/
def instr (i : Instr) : GenM Unit := do
  if (← get).closed then placeLabel (← newLabel)
  write (.instr i)

/-- Writes a terminator: the current block ends. -/
def terminate (i : Instr) : GenM Unit := do
  instr i
  modify fun g => { g with closed := true }

/-- Falls through to a label, unless the block has already ended. -/
def jump (l : Label) : GenM Unit := do
  unless (← get).closed do terminate (.jump l)

/-- Ends the block with a two-way branch. -/
def branch (cond : Value) (onTrue onFalse : Label) : GenM Unit :=
  terminate (.branch cond onTrue onFalse)

/-- Gives the strings in the registers back to the runtime, in order. -/
def freeAll (rs : List Reg) : GenM Unit :=
  rs.forM fun r => do
    instr (.free (.reg r))
    useRuntime

/-- Frees every string the function owns, oldest first; it owns none after. -/
def freeOwned : GenM Unit := do
  let rs := (← get).owned
  modify fun g => { g with owned := [] }
  freeAll rs

/-- Opens a string scope: strings made from here on belong to it. -/
def openScope : GenM Unit :=
  modify fun g => { g with marks := g.owned.length :: g.marks }

/-- Closes the innermost string scope: the strings made inside stop being owned, and are freed unless the
block has ended. -/
def closeScope : GenM Unit := do
  let g ← get
  let mark := g.marks.headD 0
  set { g with marks := g.marks.tail }
  if mark < g.owned.length then
    modify fun g => { g with owned := g.owned.take mark }
    unless g.closed do freeAll (g.owned.drop mark)

/-- Runs a step inside a string scope. A failure leaves the scope open. -/
def inScope {α : Type} (x : GenM α) : GenM α := do
  openScope
  let a ← x
  closeScope
  pure a

end Generator

end Lowering
