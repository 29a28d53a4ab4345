import StraightLine.Token.Cursor
import StraightLine.Token.Stream

/-! Programs as text. -/
namespace StraightLine

inductive SourceError where
  | lexical (error : LexicalError)
  | grammar (error : GrammarError)
  deriving DecidableEq

namespace SourceError

def location : SourceError → Location
  | .lexical e => e.location
  | .grammar e => e.location

def message : SourceError → String
  | .lexical e => e.message
  | .grammar e => e.message

end SourceError

/-- The tokens of a text, ready to be read as programs. -/
def TokenStream.ofSource (source : String) : Except SourceError TokenStream :=
  match tokenize source with
  | .ok tokens => .ok (.ofTokens tokens)
  | .error e => .error (.lexical e)

/-- A lexical error anywhere in the text comes before any error of grammar. -/
def Program.ofSource (source : String) : Except SourceError Program :=
  match TokenStream.ofSource source with
  | .ok stream => stream.parse.1.mapError .grammar
  | .error e => .error e

end StraightLine
