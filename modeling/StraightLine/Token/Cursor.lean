import StraightLine.Text.Blank
import StraightLine.Token

/-! Reading tokens off a text. A token is the longest piece that can start where the blanks end:
a run of digits, a letter and the letters and digits after it, or one character. Reading past a
piece that is no token leaves the cursor behind it, so that reading can go on. -/
namespace StraightLine

inductive LexicalError where
  | unexpectedCharacter (char : Char) (location : Location)
  | integerOutOfRange (literal : String) (location : Location)
  deriving DecidableEq

namespace LexicalError

def location : LexicalError → Location
  | .unexpectedCharacter _ l => l
  | .integerOutOfRange _ l => l

def message : LexicalError → String
  | .unexpectedCharacter c l =>
    "Invalid character: '" ++ String.singleton c ++ "' at " ++ l.text
  | .integerOutOfRange literal l =>
    "Integer literal " ++ literal ++ " out of range at " ++ l.text

end LexicalError

namespace Token

def ofDigits (digits : List Char) (l : Location) : Except LexicalError Token :=
  let value := Nat.ofDigitChars 10 digits 0
  if value < 0x8000000000000000 then .ok ⟨.integer (Int64.ofNat value), l⟩
  else .error (.integerOutOfRange (String.ofList digits) l)

def ofWord (chars : List Char) (l : Location) : Token :=
  let name := String.ofList chars
  ⟨if name = "var" then .var else .identifier name, l⟩

def ofSign (c : Char) (l : Location) : Except LexicalError Token :=
  match c with
  | '+' => .ok ⟨.operator .add, l⟩
  | '-' => .ok ⟨.operator .sub, l⟩
  | '*' => .ok ⟨.operator .mul, l⟩
  | '/' => .ok ⟨.operator .div, l⟩
  | '(' => .ok ⟨.lparen, l⟩
  | ')' => .ok ⟨.rparen, l⟩
  | '=' => .ok ⟨.assign, l⟩
  | ';' => .ok ⟨.semicolon, l⟩
  | c => .error (.unexpectedCharacter c l)

/-- The characters that prolong a piece of text that starts with `c`. -/
def prolongs (c : Char) : Char → Bool :=
  if c.isDigit then Char.isDigit else if c.isAlpha then Char.isAlphanum else fun _ => false

/-- What the piece `c :: cs` says; `cs` holds the characters that prolong it. -/
def ofPiece (c : Char) (cs : List Char) (l : Location) : Except LexicalError Token :=
  if c.isDigit then ofDigits (c :: cs) l
  else if c.isAlpha then .ok (ofWord (c :: cs) l)
  else ofSign c l

end Token

/-- The text still to be read and the place where it starts. -/
structure Cursor where
  rest : List Char
  location : Location

namespace Cursor

def ofString (s : String) : Cursor := ⟨s.toList, .start⟩

def skipBlanks (k : Cursor) : Cursor :=
  ⟨k.rest.dropWhile Text.isBlank, k.location.advanceAll (k.rest.takeWhile Text.isBlank)⟩

/-- The next token and what is left after it. At the end of the text the answer stays the same. -/
def next (k : Cursor) : Except LexicalError Token × Cursor :=
  match k.skipBlanks with
  | ⟨[], l⟩ => (.ok ⟨.eof, l⟩, ⟨[], l⟩)
  | ⟨c :: cs, l⟩ =>
    let more := cs.takeWhile (Token.prolongs c)
    (Token.ofPiece c more l, ⟨cs.dropWhile (Token.prolongs c), l.advanceAll (c :: more)⟩)

theorem length_rest_skipBlanks_le (k : Cursor) : k.skipBlanks.rest.length ≤ k.rest.length :=
  (List.dropWhile_suffix _).length_le

theorem next_of_skipBlanks_nil {k : Cursor} (h : k.skipBlanks.rest = []) :
    k.next = (.ok ⟨.eof, k.skipBlanks.location⟩, k.skipBlanks) := by
  rw [next]
  generalize k.skipBlanks = s at h
  obtain ⟨rest, l⟩ := s
  subst h
  rfl

theorem next_of_skipBlanks_cons {k : Cursor} {c : Char} {cs : List Char}
    (h : k.skipBlanks.rest = c :: cs) :
    k.next = (Token.ofPiece c (cs.takeWhile (Token.prolongs c)) k.skipBlanks.location,
      ⟨cs.dropWhile (Token.prolongs c),
        k.skipBlanks.location.advanceAll (c :: cs.takeWhile (Token.prolongs c))⟩) := by
  rw [next]
  generalize k.skipBlanks = s at h
  obtain ⟨rest, l⟩ := s
  subst h
  rfl

/-- Reading takes at least one character, unless it meets the end. -/
theorem length_rest_next_lt {k : Cursor} {t : Token} (h : k.next.1 = .ok t)
    (ht : t.isEof = false) : k.next.2.rest.length < k.rest.length := by
  cases hs : k.skipBlanks.rest with
  | nil =>
    rw [next_of_skipBlanks_nil hs] at h
    cases h
    cases ht
  | cons c cs =>
    have hle := length_rest_skipBlanks_le k
    have hdrop := (List.dropWhile_suffix (l := cs) (Token.prolongs c)).length_le
    rw [next_of_skipBlanks_cons hs]
    rw [hs, List.length_cons] at hle
    simp only
    omega

/-- Reads on to the end of the text or to the first error, behind the tokens of `done`,
which come last one first. -/
def tokensAfter (done : List Token) (k : Cursor) : Except LexicalError (List Token) × Cursor :=
  match h : k.next.1 with
  | .error e => (.error e, k.next.2)
  | .ok t =>
    if ht : t.isEof then (.ok (t :: done).reverse, k.next.2)
    else
      have := length_rest_next_lt h (Bool.eq_false_iff.2 ht)
      tokensAfter (t :: done) k.next.2
termination_by k.rest.length

/-- All tokens from here on, the end included, or the first error. -/
def tokens (k : Cursor) : Except LexicalError (List Token) × Cursor := k.tokensAfter []

theorem tokensAfter_of_error {k : Cursor} {e : LexicalError} (h : k.next.1 = .error e)
    (done : List Token) : k.tokensAfter done = (.error e, k.next.2) := by
  rw [tokensAfter]
  split
  next e' h' => cases h.symm.trans h'; rfl
  next t h' => cases h.symm.trans h'

theorem tokensAfter_of_eof {k : Cursor} {t : Token} (h : k.next.1 = .ok t)
    (ht : t.isEof = true) (done : List Token) :
    k.tokensAfter done = (.ok (t :: done).reverse, k.next.2) := by
  rw [tokensAfter]
  split
  next e h' => cases h.symm.trans h'
  next t' h' => cases h.symm.trans h'; exact dif_pos ht

theorem tokensAfter_of_token {k : Cursor} {t : Token} (h : k.next.1 = .ok t)
    (ht : t.isEof = false) (done : List Token) :
    k.tokensAfter done = k.next.2.tokensAfter (t :: done) := by
  rw [tokensAfter]
  split
  next e h' => cases h.symm.trans h'
  next t' h' => cases h.symm.trans h'; exact dif_neg (Bool.eq_false_iff.1 ht)

/-- The tokens already read stand before the others, in the order of reading. -/
theorem tokensAfter_eq (k : Cursor) (done : List Token) :
    k.tokensAfter done = (k.tokens.1.map (done.reverse ++ ·), k.tokens.2) := by
  unfold tokens
  cases h : k.next.1 with
  | error e => simp [tokensAfter_of_error h, Except.map]
  | ok t =>
    cases ht : t.isEof with
    | true => simp [tokensAfter_of_eof h ht, Except.map]
    | false =>
      rw [tokensAfter_of_token h ht, tokensAfter_of_token h ht, tokensAfter_eq,
        tokensAfter_eq _ [t]]
      cases k.next.2.tokens.1 <;> simp [Except.map]
termination_by k.rest.length
decreasing_by all_goals exact length_rest_next_lt h ht

/-- One token at a time. -/
theorem tokens_of_token {k : Cursor} {t : Token} (h : k.next.1 = .ok t) (ht : t.isEof = false) :
    k.tokens = (k.next.2.tokens.1.map (t :: ·), k.next.2.tokens.2) := by
  rw [tokens, tokensAfter_of_token h ht, tokensAfter_eq]
  rfl

end Cursor

/-- The tokens of a text, the end included, or its first lexical error. -/
def tokenize (source : String) : Except LexicalError (List Token) :=
  (Cursor.ofString source).tokens.1

end StraightLine
