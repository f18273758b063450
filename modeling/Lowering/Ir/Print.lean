import Lowering.Ir.Instr
import Lowering.Text.Literal

/-!
# Writing the IR as text

Every line is its item's text after the indentation string repeated once per nesting level, and a newline;
a blank line is a newline alone.
-/

namespace Lowering.Ir

/-- The register's name without the sigil: base, a dot, counter. -/
def Reg.name (r : Reg) : String := r.base ++ "." ++ toString r.index

/-- The register as an operand. -/
def Reg.text (r : Reg) : String := "%" ++ r.name

/-- The operand's text. -/
def Value.text : Value → String
  | .int v => toString v.toInt
  | .null => "null"
  | .reg r => r.text
  | .arg name => "%" ++ name

/-- The address's text. -/
def Address.text : Address → String
  | .slot name => "%" ++ name
  | .global name => "@" ++ name

/-- The label's name. -/
def Label.name (l : Label) : String := "Label_" ++ toString l.index

/-- The label as a branch target. -/
def Label.text (l : Label) : String := "label %" ++ l.name

/-- The name of the runtime function. -/
def Helper.name : Helper → String
  | .equal => "__string_equal__"
  | .notEqual => "__string_not_equal__"
  | .copy => "__string_copy__"
  | .concat => "__string_concat__"
  | .free => "__string_free__"

/-- The prototype of the runtime function. -/
def Helper.prototype (h : Helper) : String :=
  match h with
  | .equal | .notEqual => "declare i1 @" ++ h.name ++ "(i8*, i8*)"
  | .copy => "declare i8* @" ++ h.name ++ "(i8*)"
  | .concat => "declare i8* @" ++ h.name ++ "(i8*, i8*)"
  | .free => "declare void @" ++ h.name ++ "(i8*)"

/-- The IR opcode of an arithmetic operator: division is unsigned, remainder signed, right shift arithmetic. -/
def opcode : ArithOp → String
  | .add => "add"
  | .sub => "sub"
  | .mul => "mul"
  | .div => "udiv"
  | .mod => "srem"
  | .shl => "shl"
  | .shr => "ashr"

/-- The predicate of a signed integer comparison. -/
def predicate : CmpOp → String
  | .eq => "eq"
  | .ne => "ne"
  | .lt => "slt"
  | .gt => "sgt"
  | .le => "sle"
  | .ge => "sge"

/-- The text of a runtime call on two strings. -/
def helperCall (dst : Reg) (result : String) (h : Helper) (lhs rhs : Value) : String :=
  dst.text ++ " = call " ++ result ++ " @" ++ h.name ++ "(i8* " ++ lhs.text ++ ", i8* " ++ rhs.text ++ ")"

/-- Items joined by a comma and a space. -/
def commaList (xs : List String) : String := ", ".intercalate xs

/-- The instruction's text. -/
def Instr.text : Instr → String
  | .alloca slot ty => "%" ++ slot ++ " = alloca " ++ ty.ir ++ ", align " ++ toString ty.align
  | .load dst ty src => dst.text ++ " = load " ++ ty.ir ++ ", " ++ ty.ir ++ "* " ++ src.text
  | .literal dst size =>
    let arr := "[" ++ toString size ++ " x i8]"
    dst.text ++ " = getelementptr inbounds " ++ arr ++ ", " ++ arr ++ "* @" ++ dst.name ++ ", i32 0, i32 0"
  | .arith dst op lhs rhs => dst.text ++ " = " ++ opcode op ++ " i32 " ++ lhs.text ++ ", " ++ rhs.text
  | .icmp dst op lhs rhs => dst.text ++ " = icmp " ++ predicate op ++ " i32 " ++ lhs.text ++ ", " ++ rhs.text
  | .strTest dst equal lhs rhs => helperCall dst "i1" (if equal then .equal else .notEqual) lhs rhs
  | .concat dst lhs rhs => helperCall dst "i8*" .concat lhs rhs
  | .copy dst src => dst.text ++ " = call i8* @" ++ Helper.copy.name ++ "(i8* " ++ src.text ++ ")"
  | .free v => "call void @" ++ Helper.free.name ++ "(i8* " ++ v.text ++ ")"
  | .widen dst src => dst.text ++ " = zext i1 " ++ src.text ++ " to i32"
  | .store ty v dst => "store " ++ ty.ir ++ " " ++ v.text ++ ", " ++ ty.ir ++ "* " ++ dst.text
  | .call dst result callee args =>
    dst.text ++ " = call " ++ result.ir ++ " @" ++ callee ++ "("
      ++ commaList (args.map fun (t, v) => t.ir ++ " " ++ v.text) ++ ")"
  | .jump target => "br " ++ target.text
  | .branch cond onTrue onFalse => "br i1 " ++ cond.text ++ ", " ++ onTrue.text ++ ", " ++ onFalse.text
  | .ret ty v => "ret " ++ ty.ir ++ " " ++ v.text

/-- The word of a construct in its banner. -/
def Construct.word : Construct → String
  | .choice => "if"
  | .whileLoop => "while"
  | .doLoop => "do"
  | .forLoop => "for"

/-- The item's text. -/
def Item.text : Item → String
  | .instr i => i.text
  | .label l => l.name ++ ":"
  | .entry => "entry:"
  | .banner c => "; " ++ c.word
  | .global name ty =>
    "@" ++ name ++ " = global " ++ ty.ir ++ " " ++ (zero ty).text ++ ", align " ++ toString ty.align
  | .external name ty => "@" ++ name ++ " = external global " ++ ty.ir
  | .prototype result name params =>
    "declare " ++ result.ir ++ " @" ++ name ++ "(" ++ commaList (params.map Ty.ir) ++ ")"
  | .header result name params =>
    "define " ++ result.ir ++ " @" ++ name ++ "("
      ++ commaList (params.map fun (t, n) => t.ir ++ " %" ++ n) ++ ") \x7b"
  | .close => "\x7d"
  | .constant r bytes =>
    "@" ++ r.name ++ " = private unnamed_addr constant [" ++ toString (bytes.length + 1) ++ " x i8] c" ++ "\""
      ++ Literal.encode bytes ++ "\\00" ++ "\""
  | .helper h => h.prototype

/-- The line's text, indented by `indent` per level. -/
def Line.text (indent : String) : Line → String
  | .item level i => String.join (List.replicate level indent) ++ i.text ++ "\n"
  | .blank => "\n"

/-- The text of a listing. -/
def render (indent : String) (lines : List Line) : String := String.join (lines.map (Line.text indent))

end Lowering.Ir
