import Lowering.Symbols.Declare
import Lowering.Program

/-!
# Building a program step by step

A program is built by a sequence of steps, each against the program built so far: symbol-table operations,
node constructors, and queries. Each step has a reply. A refused declaration replies with its cause and
goes on; the program keeps what the operation kept (for `bindParameters`, the parameters bound before the
refused one).
-/

namespace Lowering

/-- One step of building a program. -/
inductive BuildStep where
  | enterFunction
  | exitFunction
  | inFunction
  | declare (name : String) (ty : Ty)
  | declareExtern (name : String) (ty : Ty)
  | declareFunction (name : String) (result : Ty) (params : List (String × Ty))
  | bindParameters (f : FunctionId)
  | lookup (name : String)
  | lookupVariable (name : String)
  | lookupFunction (name : String)
  | symbol (s : SymbolId)
  | function (f : FunctionId)
  /-- Appends an expression node, typed from its parts. -/
  | expr (e : Expr)
  /-- Appends an instruction node. -/
  | stmt (s : Stmt)
  | pushRoot (id : NodeId)
  | nodeType (id : NodeId)
  | astLen
  deriving DecidableEq, Repr

/-- The reply to a build step. -/
inductive Reply where
  /-- The step has no answer. -/
  | done
  | flag (b : Bool)
  /-- A declared variable, or why it was refused. -/
  | declared (r : Except SymbolError SymbolId)
  /-- A declared function and its parameters, or why it was refused. -/
  | declaredFunction (r : Except SymbolError (FunctionId × List SymbolId))
  /-- Parameters bound, or why one was refused. -/
  | bound (r : Except SymbolError Unit)
  | binding (b : Option Binding)
  | index (i : Option Nat)
  | symbol (s : Symbol)
  | signature (s : Signature)
  /-- The position of the node appended. -/
  | node (id : NodeId)
  | ty (t : Option Ty)
  | count (n : Nat)

namespace Program

/-- Runs a symbol-table operation on the program's table. -/
def onTable {α : Type} (p : Program) (x : TableM α) : Except SymbolError α × Program :=
  let (r, t) := x.run.run p.symbols
  (r, { p with symbols := t })

/-- Applies a build step: its reply and the program after it. -/
def apply (p : Program) : BuildStep → Reply × Program
  | .enterFunction => (.done, { p with symbols := p.symbols.enterFunction })
  | .exitFunction => (.done, { p with symbols := p.symbols.exitFunction })
  | .inFunction => (.flag p.symbols.inFunction, p)
  | .declare name ty =>
    let (r, p') := p.onTable (declare name ty)
    (.declared r, p')
  | .declareExtern name ty =>
    let (r, p') := p.onTable (declareExtern name ty)
    (.declared r, p')
  | .declareFunction name result params =>
    let (r, p') := p.onTable (declareFunction name result params)
    (.declaredFunction (r.map fun f => (f, (p'.symbols.signature f).params)), p')
  | .bindParameters f =>
    let (r, p') := p.onTable (bindParameters f)
    (.bound r, p')
  | .lookup name => (.binding (p.symbols.lookup name), p)
  | .lookupVariable name => (.index (p.symbols.lookupVariable name), p)
  | .lookupFunction name => (.index (p.symbols.lookupFunction name), p)
  | .symbol s => (.symbol (p.symbols.symbol s), p)
  | .function f => (.signature (p.symbols.signature f), p)
  | .expr e =>
    let (a, id) := p.ast.build p.symbols e
    (.node id, { p with ast := a })
  | .stmt s =>
    let (a, id) := p.ast.pushStmt s
    (.node id, { p with ast := a })
  | .pushRoot id => (.done, { p with ast := p.ast.addRoot id })
  | .nodeType id => (.ty (p.ast.ty? id), p)
  | .astLen => (.count p.ast.size, p)

end Program

end Lowering
