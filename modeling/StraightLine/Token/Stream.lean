import StraightLine.Program.Reader

/-! Tokens waiting to be read as programs, one after the other. -/
namespace StraightLine

/-- Tokens to be read, with the place of the end that follows them. -/
structure TokenStream where
  ahead : List Token
  stop : Location

namespace TokenStream

/-- The end stands where the last token does, whether or not that token is itself an end. -/
def ofTokens (ts : List Token) : TokenStream :=
  ⟨ts, (ts.getLast?.map (·.location)).getD .start⟩

/-- Reads one program and leaves the stream at the token that ended it, be it an end or an error;
an end is never passed. -/
def parse (s : TokenStream) : Except GrammarError Program × TokenStream :=
  let (program, ahead) := Reader.init.run s.stop s.ahead
  (program, ⟨ahead, s.stop⟩)

end TokenStream

def Program.ofTokens (ts : List Token) : Except GrammarError Program :=
  (TokenStream.ofTokens ts).parse.1

end StraightLine
