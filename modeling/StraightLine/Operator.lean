/-! The four operators of the language. -/
namespace StraightLine

inductive Operator where
  | add | sub | mul | div
  deriving DecidableEq

namespace Operator

def symbol : Operator → Char
  | .add => '+'
  | .sub => '-'
  | .mul => '*'
  | .div => '/'

def text (op : Operator) : String := String.singleton op.symbol

/-- The operators that bind tighter than the other two. -/
def isProduct : Operator → Bool
  | .mul | .div => true
  | .add | .sub => false

end Operator

end StraightLine
