import Std.Data.HashMap
import Lowering.Ty

/-!
# The symbol table: records, bindings and scopes

Every variable and function of a unit has one record in an arena, and is referred to by its position there
(`SymbolId`, `FunctionId`). Names are bound in two scopes: the global scope, and a function scope that exists
only between entering and leaving a function. Looking a name up tries the function scope first.
-/

namespace Lowering

/-- The position of a variable's record in the symbol arena. -/
abbrev SymbolId := Nat

/-- The position of a function's record in the function arena. -/
abbrev FunctionId := Nat

/-- Where a variable lives. -/
structure Flags where
  /-- Declared outside any function, or defined in another unit. -/
  global : Bool := false
  /-- Defined in another unit. -/
  external : Bool := false
  /-- A parameter of a function. -/
  param : Bool := false
  deriving DecidableEq, Repr, Inhabited

/-- A variable: its name, its type and where it lives. -/
structure Symbol where
  /-- The name as written. -/
  name : String
  /-- The value type. -/
  ty : Ty
  /-- Global, external or parameter. -/
  flags : Flags
  deriving DecidableEq, Repr, Inhabited

/-- A function: its name, its result type and its parameters, in order. -/
structure Signature where
  /-- The name as written. -/
  name : String
  /-- The type of the value it returns. -/
  result : Ty
  /-- The records of its parameters, in declaration order. -/
  params : List SymbolId
  deriving DecidableEq, Repr, Inhabited

/-- What a name is bound to in a scope. -/
inductive Binding where
  /-- A variable. -/
  | var (s : SymbolId)
  /-- A function. -/
  | fn (f : FunctionId)
  deriving DecidableEq, Repr

/-- The word for what a binding names, as diagnostics print it. -/
def Binding.what : Binding → String
  | .var _ => "variable"
  | .fn _ => "function"

/-- The bindings of one scope. -/
abbrev Scope := Std.HashMap String Binding

/-- Why a declaration was refused. -/
inductive SymbolError where
  /-- The name is already bound in the scope the declaration writes. -/
  | redeclared (name : String) (existing : Binding)
  /-- Two parameters of one function share a name. -/
  | duplicateParameter (function name : String)
  /-- A local or parameter is named like a block label (`entry`, `Label_<digits>`). -/
  | reservedName (name : String)
  deriving DecidableEq, Repr

/-- The text of a refusal. -/
def SymbolError.message : SymbolError → String
  | .redeclared name existing => "'" ++ name ++ "' is already declared as a " ++ existing.what
  | .duplicateParameter function name =>
    "parameter '" ++ name ++ "' defined multiple times in function '" ++ function ++ "'"
  | .reservedName name => "'" ++ name ++ "' clashes with a block label"

/-- The variables and functions of one unit, and the names bound to them. -/
structure SymbolTable where
  /-- Every variable record, parameters included, in the order they were made. -/
  symbols : Array Symbol := #[]
  /-- Every function record, in the order they were declared. -/
  functions : Array Signature := #[]
  /-- The global scope. -/
  globals : Scope := {}
  /-- The function scope, present only inside a function. -/
  locals : Option Scope := none

namespace SymbolTable

/-- Whether a function scope is open. -/
def inFunction (t : SymbolTable) : Bool := t.locals.isSome

/-- The record of a variable. Ids are handed out by this table, so the default is never read. -/
def symbol (t : SymbolTable) (s : SymbolId) : Symbol := t.symbols[s]?.getD default

/-- The record of a function. Ids are handed out by this table, so the default is never read. -/
def signature (t : SymbolTable) (f : FunctionId) : Signature := t.functions[f]?.getD default

/-- The scope that a declaration inside or outside a function writes. -/
def current (t : SymbolTable) : Scope := t.locals.getD t.globals

/-- What a name means here: its binding in the function scope if it has one, else in the global scope. -/
def lookup (t : SymbolTable) (name : String) : Option Binding :=
  (t.locals.bind (·[name]?)).or t.globals[name]?

/-- The variable a name means here, if it means one. -/
def lookupVariable (t : SymbolTable) (name : String) : Option SymbolId :=
  match t.lookup name with
  | some (.var s) => some s
  | _ => none

/-- The function a name means in the global scope, if it means one. -/
def lookupFunction (t : SymbolTable) (name : String) : Option FunctionId :=
  match t.globals[name]? with
  | some (.fn f) => some f
  | _ => none

end SymbolTable

end Lowering
