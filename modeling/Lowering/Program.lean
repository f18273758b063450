import Lowering.Symbols.Basic
import Lowering.Syntax.Ast

/-!
# A program to lower

The input of lowering: a syntax tree and the symbol table its nodes refer to.
-/

namespace Lowering

/-- A syntax tree with the symbol table it refers to. -/
structure Program where
  /-- The variables and functions the tree names. -/
  symbols : SymbolTable := {}
  /-- The tree. -/
  ast : Ast := {}

end Lowering
