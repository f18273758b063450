import Lowering.Codegen.Expr

/-!
# Lowering instructions

Declarations reserve storage: a global or external variable at the top level of the listing, a local in a
stack slot of the current block. Structured control flow becomes labelled blocks: all labels of a construct
are made before any of its parts is lowered, each condition, arm and loop body is a string scope, and the
construct ends at its last label. A return hands the returned string over to the caller (copying it if the
function does not own it), frees every other owned string and ends the block.
-/

namespace Lowering

open Ir Generator

namespace Program

/-- Reserves storage for the variables, in order. -/
def lowerDeclarations (p : Program) (syms : List SymbolId) : GenM Unit :=
  syms.forM fun s => do
    let sym := p.symbols.symbol s
    if sym.flags.external then write (.external sym.name sym.ty)
    else if sym.flags.global then write (.global sym.name sym.ty)
    else instr (.alloca sym.name sym.ty)

/-- Lowers an `if`: the condition branches to the then arm or the else arm; both fall through to the end. -/
def lowerChoice (p : Program) (w : Walk) (cond thenB : NodeId) (elseB : Option NodeId) : GenM Unit := do
  banner .choice
  let lThen ← newLabel
  let lElse ← newLabel
  let lEnd ← newLabel
  let c ← inScope (p.testOf w cond)
  branch c lThen lElse
  placeLabel lThen
  inScope (w.emit thenB)
  jump lEnd
  placeLabel lElse
  match elseB with
  | some e => inScope (w.emit e)
  | none => pure ()
  jump lEnd
  placeLabel lEnd

/-- Lowers a `while` loop: the test block runs first and leads to the body or out; the body leads back to
the test. -/
def lowerWhile (p : Program) (w : Walk) (cond body : NodeId) : GenM Unit := do
  banner .whileLoop
  let lCond ← newLabel
  let lBody ← newLabel
  let lEnd ← newLabel
  jump lCond
  placeLabel lCond
  let c ← inScope (p.testOf w cond)
  branch c lBody lEnd
  placeLabel lBody
  inScope (w.emit body)
  jump lCond
  placeLabel lEnd

/-- Lowers a `do` loop: the body runs first and leads to the test, which leads back to the body or out. -/
def lowerDo (p : Program) (w : Walk) (body cond : NodeId) : GenM Unit := do
  banner .doLoop
  let lBody ← newLabel
  let lCond ← newLabel
  let lEnd ← newLabel
  jump lBody
  placeLabel lBody
  inScope (w.emit body)
  jump lCond
  placeLabel lCond
  let c ← inScope (p.testOf w cond)
  branch c lBody lEnd
  placeLabel lEnd

/-- Lowers a `for` loop: the start expression runs in the current block, then as `while`, with the step
expression in a block of its own after the body. -/
def lowerFor (p : Program) (w : Walk) (init cond step body : NodeId) : GenM Unit := do
  banner .forLoop
  let lCond ← newLabel
  let lBody ← newLabel
  let lStep ← newLabel
  let lEnd ← newLabel
  discard (w.expr init)
  jump lCond
  placeLabel lCond
  let c ← inScope (p.testOf w cond)
  branch c lBody lEnd
  placeLabel lBody
  inScope (w.emit body)
  jump lStep
  placeLabel lStep
  inScope (discard (w.expr step))
  jump lCond
  placeLabel lEnd

/-- The position, among the owned strings, of the register an operand names, if it names an owned one. -/
def ownedIndex (owned : List Reg) : Value → Option Nat
  | .reg r => owned.idxOf? r
  | _ => none

/-- The operand to return and the position of the owned string it hands over: a string the function owns is
handed over as it is, any other string is copied first. -/
def handOver (t : Ty) (v : Value) : GenM (Value × Option Nat) := do
  if t = .string then
    match ownedIndex (← get).owned v with
    | some i => pure (v, some i)
    | none =>
      let c ← temp
      instr (.copy c v)
      useRuntime
      pure (.reg c, none)
  else pure (v, none)

/-- Lowers a `return`: frees every owned string but the one handed over, oldest first, and ends the block. The
strings of the innermost scope stop being owned; those of outer scopes stay, for the paths that do not
return here. -/
def lowerReturn (p : Program) (w : Walk) (x : NodeId) : GenM Unit := do
  let t ← p.exprType x
  let v ← p.valueOf w x
  let (v, kept) ← handOver t v
  let owned := (← get).owned
  freeAll (match kept with
    | some i => owned.eraseIdx i
    | none => owned)
  terminate (.ret t v)
  modify fun g => { g with owned := g.owned.take (g.marks.headD 0) }

end Program

end Lowering
