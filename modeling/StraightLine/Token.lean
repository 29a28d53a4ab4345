import StraightLine.Location
import StraightLine.Operator

/-! Tokens: what a text says, piece by piece, and where each piece starts. -/
namespace StraightLine

inductive Token.Kind where
  | integer (value : Int64)
  | identifier (name : String)
  | var
  | operator (op : Operator)
  | lparen
  | rparen
  | assign
  | semicolon
  | eof
  deriving DecidableEq

/-- A kind of token without the number or the name that a token of it may carry. -/
inductive Token.Class where
  | integer
  | identifier
  | var
  | operator (op : Operator)
  | lparen
  | rparen
  | assign
  | semicolon
  | eof
  deriving DecidableEq

structure Token where
  kind : Token.Kind
  location : Location
  deriving DecidableEq

namespace Token

namespace Class

def name : Class → String
  | .integer => "INTEGER"
  | .identifier => "IDENTIFIER"
  | .var => "VAR"
  | .operator .add => "PLUS"
  | .operator .sub => "MINUS"
  | .operator .mul => "MUL"
  | .operator .div => "DIV"
  | .lparen => "LPAREN"
  | .rparen => "RPAREN"
  | .assign => "ASSIGN"
  | .semicolon => "SEMICOLON"
  | .eof => "EOF"

end Class

namespace Kind

def toClass : Kind → Class
  | .integer _ => .integer
  | .identifier _ => .identifier
  | .var => .var
  | .operator op => .operator op
  | .lparen => .lparen
  | .rparen => .rparen
  | .assign => .assign
  | .semicolon => .semicolon
  | .eof => .eof

/-- How a token of this kind is written, but for the end of the text, which is not. -/
def lexeme : Kind → String
  | .integer value => value.toInt.repr
  | .identifier name => name
  | .var => "var"
  | .operator op => op.text
  | .lparen => "("
  | .rparen => ")"
  | .assign => "="
  | .semicolon => ";"
  | .eof => "None"

end Kind

def isEof (t : Token) : Bool := t.kind == .eof

def text (t : Token) : String :=
  "Token(" ++ t.kind.toClass.name ++ ", " ++ t.kind.lexeme ++ ")"

end Token

end StraightLine
