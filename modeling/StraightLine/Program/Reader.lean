import StraightLine.Program
import StraightLine.Token

/-! Reading a program off a list of tokens:

    program   = { statement }
    statement = [ "var" ] name "=" sum ";"
    sum       = product { ( "+" | "-" ) product }
    product   = factor { ( "*" | "/" ) factor }
    factor    = integer | name | "(" sum ")"

Operators of one level group to the left, and at most `maxNesting` parentheses are open at once.
The reader moves once for each token: what it has still to do is in its phase, with one `Level` for
each open parenthesis. A token that does not fit is not taken. -/
namespace StraightLine

/-- `expected` says in words what would have fitted; the reader names a class of tokens. -/
inductive GrammarError where
  | unexpectedToken (expected : String) (found : Token.Kind) (location : Location)
  | invalidFactor (found : Token.Kind) (location : Location)
  | nestingTooDeep (limit : Nat) (location : Location)
  deriving DecidableEq

namespace GrammarError

def location : GrammarError → Location
  | .unexpectedToken _ _ l => l
  | .invalidFactor _ l => l
  | .nestingTooDeep _ l => l

def message : GrammarError → String
  | .unexpectedToken expected found l =>
    "Expected " ++ expected ++ ", got " ++ found.toClass.name ++ " at " ++ l.text
  | .invalidFactor found l =>
    "Invalid factor: unexpected " ++ found.toClass.name ++ " at " ++ l.text
  | .nestingTooDeep limit l =>
    "Parentheses nested deeper than " ++ limit.repr ++ " levels at " ++ l.text

end GrammarError

def maxNesting : Nat := 256

/-- An operator whose right operand is still being read. -/
structure Pending where
  left : Expr
  op : Operator
  location : Location

def Pending.close : Option Pending → Expr → Expr
  | none, e => e
  | some p, e => .binary p.op p.left e p.location

/-- What waits, at one level of parentheses, for the factor being read. -/
structure Level where
  sum : Option Pending
  product : Option Pending

inductive Phase where
  | start
  -- `var` has come, and its name has not.
  | declaring
  | named (target : Target)
  | factor (target : Target) (level : Level) (outer : List Level)
  -- The factor just read is part of `product` already.
  | operator (target : Target) (sum : Option Pending) (product : Expr) (outer : List Level)

namespace Phase

def fresh : Level := ⟨none, none⟩

def read (target : Target) (level : Level) (outer : List Level) (factor : Expr) : Phase :=
  .operator target level.sum (Pending.close level.product factor) outer

def applied (target : Target) (sum : Option Pending) (product : Expr) (outer : List Level)
    (op : Operator) (l : Location) : Phase :=
  if op.isProduct then .factor target ⟨sum, some ⟨product, op, l⟩⟩ outer
  else .factor target ⟨some ⟨Pending.close sum product, op, l⟩, none⟩ outer

def refusal (phase : Phase) (t : Token) : GrammarError :=
  match phase with
  | .start | .declaring => .unexpectedToken Token.Class.identifier.name t.kind t.location
  | .named _ => .unexpectedToken Token.Class.assign.name t.kind t.location
  | .factor _ _ _ =>
    if t.kind = .lparen then .nestingTooDeep maxNesting t.location
    else .invalidFactor t.kind t.location
  | .operator _ _ _ [] => .unexpectedToken Token.Class.semicolon.name t.kind t.location
  | .operator _ _ _ (_ :: _) => .unexpectedToken Token.Class.rparen.name t.kind t.location

end Phase

/-- A reader in the middle of a program: the statements read, last one first, and the phase. -/
structure Reader where
  done : List Statement
  phase : Phase

namespace Reader

def init : Reader := ⟨[], .start⟩

def step (r : Reader) (t : Token) : Except GrammarError Reader :=
  match r.phase, t.kind with
  | .start, .var => .ok ⟨r.done, .declaring⟩
  | .start, .identifier x => .ok ⟨r.done, .named ⟨.assignment, x, t.location⟩⟩
  | .declaring, .identifier x => .ok ⟨r.done, .named ⟨.declaration, x, t.location⟩⟩
  | .named target, .assign => .ok ⟨r.done, .factor target Phase.fresh []⟩
  | .factor target level outer, .integer n =>
    .ok ⟨r.done, .read target level outer (.number n t.location)⟩
  | .factor target level outer, .identifier x =>
    .ok ⟨r.done, .read target level outer (.var x t.location)⟩
  | .factor target level outer, .lparen =>
    if outer.length < maxNesting then .ok ⟨r.done, .factor target Phase.fresh (level :: outer)⟩
    else .error (r.phase.refusal t)
  | .operator target sum product outer, .operator op =>
    .ok ⟨r.done, .applied target sum product outer op t.location⟩
  | .operator target sum product (level :: outer), .rparen =>
    .ok ⟨r.done, .read target level outer (Pending.close sum product)⟩
  | .operator target sum product [], .semicolon =>
    .ok ⟨⟨target, Pending.close sum product⟩ :: r.done, .start⟩
  | phase, _ => .error (phase.refusal t)

def finish (r : Reader) (t : Token) : Except GrammarError Program :=
  match r.phase with
  | .start => .ok r.done.reverse
  | phase => .error (phase.refusal t)

/-- Reads up to an end token, or to the end of the list, which then stands for one at `stop`.
The second part is what is left, from the token that ended the reading on. -/
def run (stop : Location) : Reader → List Token → Except GrammarError Program × List Token
  | r, [] => (r.finish ⟨.eof, stop⟩, [])
  | r, t :: ts =>
    if t.isEof then (r.finish t, t :: ts)
    else
      match r.step t with
      | .ok r => run stop r ts
      | .error e => (.error e, t :: ts)

end Reader

end StraightLine
