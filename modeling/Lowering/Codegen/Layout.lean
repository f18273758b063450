/-!
# Layout of the listing

Two choices shape the text and nothing else: the string written once per nesting level before a line, and
whether structured constructs are annotated (a blank line before every label, and a comment line naming
each `if`, `while`, `do` and `for`).
-/

namespace Lowering

/-- How the listing is laid out. -/
structure Layout where
  /-- Written once per nesting level before each line. -/
  indentation : String := "  "
  /-- Blank lines before labels and a comment before each structured construct. -/
  annotate : Bool := true
  deriving DecidableEq, Repr, Inhabited

/-- The dense layout: two spaces a level, no annotations. -/
def Layout.compact : Layout := { annotate := false }

end Lowering
