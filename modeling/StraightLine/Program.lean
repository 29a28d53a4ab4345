import StraightLine.Expr

/-! Straight-line programs: a list of statements, each of which gives a name the value of an
expression. -/
namespace StraightLine

/-- Whether a statement introduces its name or expects it to be there. -/
inductive Form where
  | declaration
  | assignment
  deriving DecidableEq

/-- What stands before the equals sign; the place is that of the name. -/
structure Target where
  form : Form
  name : String
  location : Location
  deriving DecidableEq

structure Statement extends Target where
  value : Expr
  deriving DecidableEq

abbrev Program := List Statement

def Program.operatorCount : Program → Nat
  | [] => 0
  | s :: rest => s.value.operatorCount + Program.operatorCount rest

end StraightLine
