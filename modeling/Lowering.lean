import Lowering.Ty
import Lowering.Symbols.Basic
import Lowering.Symbols.Declare
import Lowering.Syntax.Operator
import Lowering.Syntax.Node
import Lowering.Syntax.Ast
import Lowering.Program
import Lowering.Text.Literal
import Lowering.Ir.Instr
import Lowering.Ir.Print
import Lowering.Codegen.Error
import Lowering.Codegen.Layout
import Lowering.Codegen.State
import Lowering.Codegen.Block
import Lowering.Codegen.Expr
import Lowering.Codegen.Stmt
import Lowering.Codegen.Function
import Lowering.Codegen.Emit
import Lowering.Build
import Lowering.Session
import Lowering.Proofs.Declarations
import Lowering.Proofs.Run
import Lowering.Proofs.Rules
import Lowering.Proofs.Listing
import Lowering.Proofs.Blocks
import Lowering.Proofs.Typing
import Lowering.Proofs.TypedCode
import Lowering.Proofs.TypedRules
import Lowering.Proofs.TypedFunctions
import Lowering.Proofs.WellTyped
import Lowering.Proofs.OwnedCode
import Lowering.Proofs.OwnedFunctions
import Lowering.Proofs.Keeps
import Lowering.Proofs.ManagedStrings
import Lowering.Proofs.Constants
import Lowering.Proofs.Registers
import Lowering.Proofs.Machine
import Lowering.Proofs.Evaluation
import Lowering.Proofs.Agreement
import Lowering.Proofs.Positions
import Lowering.Proofs.Recorded
import Lowering.Proofs.Refinement.Expressions
import Lowering.Proofs.Refinement.Statements
import Lowering.Proofs.Refinement.Control
import Lowering.Proofs.Refinement.Functions
import Lowering.Proofs.Annotations
import Lowering.Proofs.Banners
import Lowering.Proofs.Scopes
import Lowering.Proofs.Violations
import Lowering.Proofs.FirstViolation
import Lowering.Proofs.Termination
import Lowering.Proofs.Memo
import Lowering.Proofs.Runtime
import Lowering.Proofs.Safety
import Lowering.Proofs.StringScopes
import Lowering.Proofs.Building
