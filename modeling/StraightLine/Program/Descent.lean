import StraightLine.Token.Stream

/-! Reading by recursive descent: a position among the tokens, a count of the open parentheses, and
a rule for each line of the grammar. A rule has no result where it would look outside the tokens,
have more than `maxNesting` parentheses open or close one that is not. Nor has it one where more
rules would be at work inside one another than its first argument allows. -/
namespace StraightLine

/-- All the tokens to come, with the end that stands behind them if they have none. -/
def TokenStream.tokens (s : TokenStream) : List Token :=
  if s.ahead.getLast?.any Token.isEof then s.ahead else s.ahead ++ [⟨.eof, s.stop⟩]

structure Descent where
  tokens : List Token
  position : Nat
  /-- How many parentheses are open around the factor being read. -/
  depth : Nat

namespace Descent

/-- Reads something or fails; where it has moved to by then is kept either way. -/
abbrev Rule := ExceptT GrammarError (StateT Descent Option)

def start (s : TokenStream) : Descent := ⟨s.tokens, 0, 0⟩

def look (i : Nat) : Rule Token := fun d => d.tokens[i]?.map fun t => (.ok t, d)

def peek : Rule Token := fun d => look d.position d

def previous : Rule Token := fun d => look (d.position - 1) d

/-- Passes a token, but never an end. -/
def advance : Rule Token := do
  if (← peek).isEof then previous
  else
    modify fun d => { d with position := d.position + 1 }
    previous

def enter (d : Descent) : Option Descent :=
  if d.depth < maxNesting then some { d with depth := d.depth + 1 } else none

def leave (d : Descent) : Option Descent :=
  if 0 < d.depth then some { d with depth := d.depth - 1 } else none

def expect (c : Token.Class) : Rule Unit := do
  let t ← peek
  if t.kind.toClass = c then
    let _ ← advance
  else throw (.unexpectedToken c.name t.kind t.location)

def name : Rule (String × Location) := do
  let t ← peek
  match t.kind with
  | .identifier x =>
    let _ ← advance
    return (x, t.location)
  | found => throw (.unexpectedToken Token.Class.identifier.name found t.location)

/-- The next token, if it is an operator of a product (`tight`) or else of a sum. -/
def operator? (tight : Bool) : Rule (Option (Operator × Location)) := do
  let t ← peek
  match t.kind with
  | .operator op =>
    if op.isProduct = tight then
      let _ ← advance
      return some (op, t.location)
    else return none
  | _ => return none

def stuck {α : Type} : Rule α := fun _ => none

mutual

/-- A sum or, if `tight`, a product. -/
def chain : Nat → Bool → Rule Expr
  | 0, _ => stuck
  | n + 1, tight => do extend n tight (← operand n tight)

def extend : Nat → Bool → Expr → Rule Expr
  | 0, _, _ => stuck
  | n + 1, tight, left => do
    match ← operator? tight with
    | some (op, l) => extend n tight (.binary op left (← operand n tight) l)
    | none => return left

def operand : Nat → Bool → Rule Expr
  | 0, _ => stuck
  | n + 1, tight => if tight then factor n else chain n true

def factor : Nat → Rule Expr
  | 0 => stuck
  | n + 1 => do
    let t ← peek
    match t.kind with
    | .lparen =>
      if (← get).depth < maxNesting then
        let _ ← advance
        -- An error inside the parentheses is handed on only after they are left.
        let e ← fun d => do
          let inside ← chain n false (← d.enter)
          return (inside.1, ← inside.2.leave)
        expect .rparen
        return e
      else throw (.nestingTooDeep maxNesting t.location)
    | .integer i =>
      let _ ← advance
      return .number i t.location
    | .identifier x =>
      let _ ← advance
      return .var x t.location
    | found => throw (.invalidFactor found t.location)

end

def form : Rule Form := do
  if (← peek).kind = .var then
    let _ ← advance
    return .declaration
  else return .assignment

def statement (n : Nat) : Rule Statement := do
  let f ← form
  let x ← name
  expect .assign
  let e ← chain n false
  expect .semicolon
  return ⟨⟨f, x.1, x.2⟩, e⟩

/-- The statements up to an end, behind those of `done`, last one first. -/
def statements : Nat → List Statement → Rule Program
  | 0, _ => stuck
  | n + 1, done => do
    if (← peek).isEof then return done.reverse
    else statements n ((← statement n) :: done)

/-- A sum of one factor is five rules deep, and no token adds more than that. -/
def program : Rule Program := fun d => statements (5 * d.tokens.length + 6) [] d

/-- The answers of `n` calls, one after the other, and where they leave off. -/
def calls : Nat → Descent → Option (List (Except GrammarError Program) × Descent)
  | 0, d => some ([], d)
  | n + 1, d => do
    let before ← calls n d
    let last ← program before.2
    return (before.1 ++ [last.1], last.2)

end Descent

end StraightLine
