import Lowering.Symbols.Basic

/-!
# Declaring names

The operations that change a symbol table. Each declaration checks before it writes, so a refused one leaves
the table as it was, with one exception: `bindParameters` binds the parameters one by one and stops at the first
name already bound, keeping the ones it bound before.

Locals and parameters share the `%` namespace of the IR with block labels, so they may not be called `entry`
or `Label_` followed by digits. Globals and functions live in the `@` namespace and are not checked.
-/

namespace Lowering

/-- Operations on a symbol table that may refuse. A refusal keeps the table reached so far. -/
abbrev TableM := ExceptT SymbolError (StateM SymbolTable)

/-- Whether the characters spell `Label_` followed by at least one ASCII digit and nothing else. -/
def isLabelName : List Char → Bool
  | 'L' :: 'a' :: 'b' :: 'e' :: 'l' :: '_' :: d :: ds => (d :: ds).all Char.isDigit
  | _ => false

/-- Whether a local or parameter name would clash with a block label. -/
def isReservedName (name : String) : Bool :=
  name == "entry" || isLabelName name.toList

namespace SymbolTable

/-- The table with one more variable record; its id is the arena's former size. -/
def addSymbol (t : SymbolTable) (sym : Symbol) : SymbolTable :=
  { t with symbols := t.symbols.push sym }

/-- The table with `name` bound in the scope that declarations write. -/
def bindCurrent (t : SymbolTable) (name : String) (b : Binding) : SymbolTable :=
  match t.locals with
  | some l => { t with locals := some (l.insert name b) }
  | none => { t with globals := t.globals.insert name b }

/-- Opens a fresh, empty function scope, dropping any open one. -/
def enterFunction (t : SymbolTable) : SymbolTable := { t with locals := some {} }

/-- Closes the function scope. -/
def exitFunction (t : SymbolTable) : SymbolTable := { t with locals := none }

end SymbolTable

open SymbolTable

/-- Declares a variable in the current scope: a global outside a function, a local inside one. A local is
checked against reserved names first, then any variable against the names already bound in that scope. -/
def declare (name : String) (ty : Ty) : TableM SymbolId := do
  let t ← get
  let global := !t.inFunction
  if !global && isReservedName name then throw (.reservedName name)
  if let some b := t.current[name]? then throw (.redeclared name b)
  set ((t.addSymbol { name, ty, flags := { global } }).bindCurrent name (.var t.symbols.size))
  pure t.symbols.size

/-- Declares a global defined in another unit; it is checked against and bound in the global scope, even
inside a function. -/
def declareExtern (name : String) (ty : Ty) : TableM SymbolId := do
  let t ← get
  if let some b := t.globals[name]? then throw (.redeclared name b)
  let t' := t.addSymbol { name, ty, flags := { global := true, external := true } }
  set { t' with globals := t'.globals.insert name (.var t.symbols.size) }
  pure t.symbols.size

/-- Checks parameter names in order: each must not be reserved, and must differ from the ones before it. -/
def checkParameters (function : String) : List String → List String → Except SymbolError Unit
  | _, [] => pure ()
  | seen, p :: ps =>
    if isReservedName p then throw (.reservedName p)
    else if seen.contains p then throw (.duplicateParameter function p)
    else checkParameters function (seen ++ [p]) ps

/-- The parameter records of a function, in order, from the position `first` of the arena on. -/
def parameterIds (first : Nat) (params : List (String × Ty)) : List SymbolId :=
  (List.range params.length).map (first + ·)

/-- Declares a function in the global scope, even inside a function. Its parameters get records, in order and
with only the parameter flag, but no binding: `bindParameters` makes them visible. -/
def declareFunction (name : String) (result : Ty) (params : List (String × Ty)) : TableM FunctionId := do
  let t ← get
  if let some b := t.globals[name]? then throw (.redeclared name b)
  match checkParameters name [] (params.map (·.1)) with
  | .error e => throw e
  | .ok () => pure ()
  let withParams := params.foldl
    (fun (acc : SymbolTable) (p : String × Ty) =>
      acc.addSymbol { name := p.1, ty := p.2, flags := { param := true } })
    t
  let sig : Signature := { name, result, params := parameterIds t.symbols.size params }
  set { withParams with
    functions := withParams.functions.push sig
    globals := withParams.globals.insert name (.fn t.functions.size) }
  pure t.functions.size

/-- Binds a function's parameters, in order, in the current scope. A parameter whose name is already bound
there is refused; the ones bound before it stay bound. -/
def bindParameters (f : FunctionId) : TableM Unit := do
  let params := ((← get).signature f).params
  params.forM fun p => do
    let t ← get
    let name := (t.symbol p).name
    if let some b := t.current[name]? then throw (.redeclared name b)
    set (t.bindCurrent name (.var p))

end Lowering
