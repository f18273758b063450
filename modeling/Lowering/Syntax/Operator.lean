/-!
# Operators

The binary operators of the language fall into two families: arithmetic on integers (of which `+` also
joins strings) and comparisons (of which `==` and `!=` also compare strings). Each operator is spelt in
diagnostics as in the source text.
-/

namespace Lowering

/-- An arithmetic or shift operator. -/
inductive ArithOp where
  | add | sub | mul | div | mod | shl | shr
  deriving DecidableEq, Repr

/-- A comparison operator; its result is a truth value. -/
inductive CmpOp where
  | eq | ne | lt | gt | le | ge
  deriving DecidableEq, Repr

/-- The operator as written in the source. -/
def ArithOp.symbol : ArithOp → String
  | .add => "+"
  | .sub => "-"
  | .mul => "*"
  | .div => "/"
  | .mod => "%"
  | .shl => "<<"
  | .shr => ">>"

/-- The operator as written in the source. -/
def CmpOp.symbol : CmpOp → String
  | .eq => "=="
  | .ne => "!="
  | .lt => "<"
  | .gt => ">"
  | .le => "<="
  | .ge => ">="

end Lowering
