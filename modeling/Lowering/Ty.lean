/-!
# Value types of the source language

The language has two value types: 32-bit integers and strings. This module fixes how each is spelt in
messages (`int`, `string`), in the IR (`i32`, `i8*`) and how it is stored (alignment in bytes).
-/

namespace Lowering

/-- A value type of the source language. -/
inductive Ty where
  /-- A 32-bit two's complement integer. -/
  | int
  /-- A pointer to a NUL-terminated byte string. -/
  | string
  deriving DecidableEq, Repr, Inhabited

namespace Ty

/-- The name of the type in diagnostics. -/
def name : Ty → String
  | int => "int"
  | string => "string"

/-- The IR spelling of a value of the type. -/
def ir : Ty → String
  | int => "i32"
  | string => "i8*"

/-- The alignment in bytes of a stack slot or global holding the type. -/
def align : Ty → Nat
  | int => 4
  | string => 8

end Ty

end Lowering
