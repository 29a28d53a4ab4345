import StraightLine.Operator

/-! Three-address code. A temporary holds the result of one operator; a variable receives the result
of one statement. In the text of the code a temporary looks like a name, `t` and its number, but the
two never mix in an operand. -/
namespace StraightLine

inductive Operand where
  | literal (value : Int64)
  | var (name : String)
  | temp (number : Nat)
  deriving DecidableEq

def Temp.text (number : Nat) : String := "t" ++ number.repr

def Operand.text : Operand → String
  | .literal n => n.toInt.repr
  | .var x => x
  | .temp n => Temp.text n

inductive Instruction where
  | copy (dest : String) (source : Operand)
  | binary (temp : Nat) (left : Operand) (op : Operator) (right : Operand)
  deriving DecidableEq

def Instruction.text : Instruction → String
  | .copy dest source => dest ++ " = " ++ source.text
  | .binary temp left op right =>
    Temp.text temp ++ " = " ++ left.text ++ " " ++ op.text ++ " " ++ right.text

end StraightLine
