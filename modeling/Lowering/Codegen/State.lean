import Std.Data.HashMap
import Lowering.Program
import Lowering.Ir.Instr
import Lowering.Codegen.Error
import Lowering.Codegen.Layout

/-!
# The state of a generator

A generator lowers one unit. It holds the lines written so far and the bookkeeping that later lines depend on:
the operand each lowered expression left its value in, the register counters, the label counter, the nesting
level, whether the current block has ended, the string constants not yet written, the heap strings that the
current function still owns, and whether the string runtime is needed or already declared.

Lowering runs in `GenM`: a failure stops it, and the state reached so far stays, so that a session can show
the text that a failed lowering wrote.
-/

namespace Lowering

open Ir

/-- The state of a generator. -/
structure Generator where
  /-- The layout. -/
  layout : Layout
  /-- The lines written so far. -/
  lines : Array Line := #[]
  /-- The operand holding the value of each lowered expression node. -/
  values : Std.HashMap NodeId Value := {}
  /-- How many registers each base has named. A count is a natural number and never wraps: the text is that of a
  generator with 32-bit counts as long as fewer than 2^32 registers of each base are taken. Every register taken is
  defined by one line of the listing, in order (`Program.compile_registers_numbered`), so a listing of fewer than 2^32
  lines never reaches that bound. -/
  counters : Std.HashMap String Nat := {}
  /-- How many labels have been made. Like the register counts it never wraps: the text is that of a 32-bit count as
  long as fewer than 2^32 labels are made. -/
  labels : Nat := 0
  /-- The nesting level of the next line. -/
  depth : Nat := 0
  /-- Whether the current block has ended with a terminator. -/
  closed : Bool := false
  /-- The string constants used since the last flush, in first-use order. -/
  pending : Array (Reg × List UInt8) := #[]
  /-- The registers holding heap strings that the current function owns, oldest first. -/
  owned : List Reg := []
  /-- For each open scope, innermost first, how many strings were owned when it opened. -/
  marks : List Nat := []
  /-- Whether lowered code calls the string runtime. -/
  runtimeUsed : Bool := false
  /-- Whether the runtime's prototypes have been written. -/
  runtimeDeclared : Bool := false
  /-- The parameters of the function being defined, each read through its stack slot. -/
  spilled : List SymbolId := []

/-- A fresh generator with the given layout. -/
def Generator.new (layout : Layout) : Generator := { layout }

/-- A lowering step: it fails with a cause, or succeeds; either way the state it reached stays. -/
abbrev GenM := ExceptT CodegenError (StateM Generator)

namespace Generator

/-- The register that `base` names next: its counter goes up by one, without bound. -/
def fresh (base : String) : GenM Reg :=
  modifyGet fun g =>
    let n := g.counters.getD base 0 + 1
    (⟨base, n⟩, { g with counters := g.counters.insert base n })

/-- A fresh temporary register. -/
def temp : GenM Reg := fresh "tmp"

/-- A fresh label: the label counter goes up by one, without bound. -/
def newLabel : GenM Label :=
  modifyGet fun g => (⟨g.labels⟩, { g with labels := g.labels + 1 })

/-- Records the operand holding an expression node's value, and returns it. -/
def remember (id : NodeId) (v : Value) : GenM Value := do
  modify fun g => { g with values := g.values.insert id v }
  pure v

/-- The current function now owns the heap string in a register. -/
def own (r : Reg) : GenM Unit := modify fun g => { g with owned := g.owned ++ [r] }

/-- Lowered code calls the string runtime. -/
def useRuntime : GenM Unit := modify fun g => { g with runtimeUsed := true }

/-- Queues a string constant for the next flush. -/
def queueConstant (r : Reg) (bytes : List UInt8) : GenM Unit :=
  modify fun g => { g with pending := g.pending.push (r, bytes) }

end Generator

end Lowering
