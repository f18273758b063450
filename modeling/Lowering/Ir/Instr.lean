import Lowering.Ty
import Lowering.Syntax.Operator

/-!
# The IR vocabulary

Lowering produces lines of a textual SSA IR. They are kept structured: registers, values, addresses and labels
are data, an instruction is a constructor with its operands, and a line is an item at a nesting level or a
blank line. `Lowering.Ir.Print` is the only place they become text.

Registers are named by a base and a counter (`%tmp.3`, `%x.1`, `%str.2`); each base counts on its own.
Labels are numbered (`Label_4`); `entry` is the label of a function's first block.
-/

namespace Lowering.Ir

/-- A virtual register: a base name and its counter for that base, from one. -/
structure Reg where
  base : String
  index : Nat
  deriving DecidableEq, Repr

/-- An operand of an instruction. -/
inductive Value where
  /-- An integer constant. -/
  | int (v : Int32)
  /-- The null pointer. -/
  | null
  /-- The value of a register. -/
  | reg (r : Reg)
  /-- A function's incoming parameter, by name. -/
  | arg (name : String)
  deriving DecidableEq, Repr

/-- Where a variable's value is stored. -/
inductive Address where
  /-- A stack slot of the current function, by name. -/
  | slot (name : String)
  /-- A global of the unit or of another unit. -/
  | global (name : String)
  deriving DecidableEq, Repr

/-- A block label. -/
structure Label where
  index : Nat
  deriving DecidableEq, Repr

/-- The functions of the string runtime that lowered code calls. -/
inductive Helper where
  | equal | notEqual | copy | concat | free
  deriving DecidableEq, Repr

/-- An instruction; the last four end a block. -/
inductive Instr where
  /-- Reserves a stack slot for a value of a type. -/
  | alloca (slot : String) (ty : Ty)
  /-- Reads a value of a type from an address. -/
  | load (dst : Reg) (ty : Ty) (src : Address)
  /-- The address of the first byte of the constant array named like the register, of `size` bytes. -/
  | literal (dst : Reg) (size : Nat)
  /-- Integer arithmetic. -/
  | arith (dst : Reg) (op : ArithOp) (lhs rhs : Value)
  /-- Integer comparison, to a truth value. -/
  | icmp (dst : Reg) (op : CmpOp) (lhs rhs : Value)
  /-- String comparison through the runtime: equal, or not equal. -/
  | strTest (dst : Reg) (equal : Bool) (lhs rhs : Value)
  /-- A new string, the two joined, from the runtime. -/
  | concat (dst : Reg) (lhs rhs : Value)
  /-- A new copy of a string, from the runtime. -/
  | copy (dst : Reg) (src : Value)
  /-- Gives a string back to the runtime. -/
  | free (v : Value)
  /-- A truth value as an integer, zero or one. -/
  | widen (dst : Reg) (src : Value)
  /-- Writes a value of a type to an address. -/
  | store (ty : Ty) (v : Value) (dst : Address)
  /-- Calls a function of the unit. -/
  | call (dst : Reg) (result : Ty) (callee : String) (args : List (Ty × Value))
  /-- Continues at a label. -/
  | jump (target : Label)
  /-- Continues at one of two labels, by a truth value. -/
  | branch (cond : Value) (onTrue onFalse : Label)
  /-- Returns a value of a type. -/
  | ret (ty : Ty) (v : Value)
  deriving DecidableEq, Repr

/-- The structured constructs that an annotated listing marks with a comment. -/
inductive Construct where
  | choice | whileLoop | doLoop | forLoop
  deriving DecidableEq, Repr

/-- What a line holds. -/
inductive Item where
  /-- An instruction in the current block. -/
  | instr (i : Instr)
  /-- The start of a block. -/
  | label (l : Label)
  /-- The start of a function's first block. -/
  | entry
  /-- A comment before a structured construct. -/
  | banner (c : Construct)
  /-- A global variable of the unit, zero-initialised. -/
  | global (name : String) (ty : Ty)
  /-- A global variable of another unit. -/
  | external (name : String) (ty : Ty)
  /-- A function of another unit, by its parameter types. -/
  | prototype (result : Ty) (name : String) (params : List Ty)
  /-- The head of a function definition, with its parameters' types and names. -/
  | header (result : Ty) (name : String) (params : List (Ty × String))
  /-- The end of a function definition. -/
  | close
  /-- A NUL-terminated byte-array constant named like the register. -/
  | constant (r : Reg) (bytes : List UInt8)
  /-- The prototype of a runtime function. -/
  | helper (h : Helper)
  deriving DecidableEq, Repr

/-- A line of the listing: an item at a nesting level, or a blank line. -/
inductive Line where
  | item (level : Nat) (i : Item)
  | blank
  deriving DecidableEq, Repr

/-- The runtime functions, in the order their prototypes are written. -/
def Helper.all : List Helper := [.equal, .notEqual, .copy, .concat, .free]

/-- The value a function of a type returns when its body ends without a return, and a global starts with. -/
def zero : Ty → Value
  | .int => .int 0
  | .string => .null

end Lowering.Ir
