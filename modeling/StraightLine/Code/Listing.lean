import StraightLine.Semantics

/-! Code as text. A line is read by its words, one space apart: a name, an equals sign, and then
one word or two words with the sign of an operator between them. A word is a number if it reads as
one and a name otherwise. All names have their values in one store. -/
namespace StraightLine

def Operator.ofText? (text : String) : Option Operator :=
  [Operator.add, .sub, .mul, .div].find? fun op => op.text = text

namespace Listing

/-- Why a line is not carried out. -/
inductive Stop where
  | failed (fault : Application)
  | unreadable (line : String)
  deriving DecidableEq

def words (line : String) : List String := (line.toList.splitOn ' ').map String.ofList

def value (σ : Store) (word : String) : Int64 :=
  match word.toInt? with
  | some n => Int64.ofInt n
  | none => σ word

def step (arith : Arithmetic) (σ : Store) (line : String) : Except Stop Store :=
  match words line with
  | [name, "=", a] => .ok (σ.set name (value σ a))
  | [name, "=", a, sign, b] =>
    match Operator.ofText? sign with
    | some op =>
      match arith.apply op (value σ a) (value σ b) with
      | .ok v => .ok (σ.set name v)
      | .error fault => .error (.failed fault)
    | none => .error (.unreadable line)
  | _ => .error (.unreadable line)

end Listing

end StraightLine
