import StraightLine.Program
import StraightLine.Token

/-! Programs as text with no more parentheses than they need: a left operand has them if its
operator binds looser than the one above it, a right operand if it does not bind tighter. One space
stands between any two tokens. -/
namespace StraightLine

open Token (Kind)

namespace Expr

/-- How tight an expression's outermost operator binds; what has none binds tightest. -/
def tightness : Expr → Nat
  | .number _ _ | .var _ _ => 2
  | .binary op _ _ _ => if op.isProduct then 1 else 0

def parenthesized (needed : Bool) (ks : List Kind) : List Kind :=
  if needed then .lparen :: ks ++ [.rparen] else ks

def kinds : Expr → List Kind
  | .number n _ => [.integer n]
  | .var x _ => [.identifier x]
  | .binary op a b l =>
    let t := (binary op a b l).tightness
    parenthesized (a.tightness < t) a.kinds ++
      .operator op :: parenthesized (b.tightness ≤ t) b.kinds

end Expr

def Statement.kinds (s : Statement) : List Kind :=
  let assignment := .identifier s.name :: .assign :: s.value.kinds ++ [.semicolon]
  match s.form with
  | .declaration => .var :: assignment
  | .assignment => assignment

def Program.kinds (p : Program) : List Kind := p.flatMap Statement.kinds

def Program.render (p : Program) : String := " ".intercalate (p.kinds.map Kind.lexeme)

end StraightLine
