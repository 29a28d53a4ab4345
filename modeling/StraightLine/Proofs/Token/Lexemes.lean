import Mathlib.Data.List.TakeWhile
import StraightLine.Proofs.Location.Order
import StraightLine.Proofs.Token.Reading

/-! A text cut into lexemes with blanks between them. Each lexeme is the text of one token or of one
error; an error takes one character, or all the digits of its number. Every text has just one such
cut. -/
namespace StraightLine

open Token (Kind)

/-- A token or an error, as it is read off a text. -/
abbrev Item := Except LexicalError Token

def Item.location : Item → Location
  | .ok t => t.location
  | .error e => e.location

/-- All the digits in front of `rest`. -/
structure Text.IsNumeral (digits rest : List Char) : Prop where
  ne_nil : digits ≠ []
  isDigit : ∀ c ∈ digits, c.isDigit = true
  right : ∀ c ∈ rest.head?, c.isDigit = false

/-- What a text at `l` says in front of `rest`, where the two do not run together. A token has one
text, but for a number, which may have zeros in front. -/
inductive IsLexeme (l : Location) : List Char → List Char → Item → Prop
  | token {k : Kind} {rest : List Char} : k.isWritable = true → k ≠ .eof →
    (∀ c ∈ rest.head?, k.prolongedBy c = false) →
      IsLexeme l k.lexeme.toList rest (.ok ⟨k, l⟩)
  | number {digits rest : List Char} : Text.IsNumeral digits rest →
    Nat.ofDigitChars 10 digits 0 ≤ Text.maxValue →
      IsLexeme l digits rest (.ok ⟨.integer (Int64.ofNat (Nat.ofDigitChars 10 digits 0)), l⟩)
  | tooLarge {digits rest : List Char} : Text.IsNumeral digits rest →
    Text.maxValue < Nat.ofDigitChars 10 digits 0 →
      IsLexeme l digits rest (.error (.integerOutOfRange (String.ofList digits) l))
  | character {c : Char} {rest : List Char} : ¬Text.Admissible c →
    IsLexeme l [c] rest (.error (.unexpectedCharacter c l))

namespace Token

/-- A piece that starts with a visible character and cannot be prolonged. -/
structure Cuts (c : Char) (cs rest : List Char) : Prop where
  visible : Text.isBlank c = false
  whole : ∀ d ∈ cs, prolongs c d = true
  right : ∀ d ∈ rest.head?, prolongs c d = false

theorem isLexeme_ofDigits {digits rest : List Char} (h : Text.IsNumeral digits rest)
    (l : Location) : IsLexeme l digits rest (ofDigits digits l) := by
  unfold ofDigits
  by_cases hvalue : Nat.ofDigitChars 10 digits 0 < 0x8000000000000000
  · simp only [if_pos hvalue]
    exact .number h (Nat.le_of_lt_succ hvalue)
  · simp only [if_neg hvalue]
    exact .tooLarge h (Nat.not_lt.1 hvalue)

theorem isLexeme_ofWord {c : Char} {cs rest : List Char} (hc : c.isAlpha = true)
    (hcs : ∀ d ∈ cs, d.isAlphanum = true) (hrest : ∀ d ∈ rest.head?, d.isAlphanum = false)
    (l : Location) : IsLexeme l (c :: cs) rest (.ok (ofWord (c :: cs) l)) := by
  have hwritable := isWritable_ofWord hc hcs l
  have htext : (ofWord (c :: cs) l).kind.lexeme.toList = c :: cs := by
    simp only [ofWord]
    split
    next hvar => exact (congrArg String.toList hvar.symm).trans String.toList_ofList
    next => exact String.toList_ofList
  have hprolonged : (ofWord (c :: cs) l).kind.prolongedBy = Char.isAlphanum := by
    simp only [ofWord]
    split <;> rfl
  have heof : (ofWord (c :: cs) l).kind ≠ .eof := by
    simp only [ofWord]
    split <;> exact Kind.noConfusion
  have hlexeme := IsLexeme.token (l := l) hwritable heof (hprolonged ▸ hrest)
  rwa [htext] at hlexeme

theorem isLexeme_ofSign {c : Char} (hc : c.isAlphanum = false) (hblank : Text.isBlank c = false)
    (rest : List Char) (l : Location) : IsLexeme l [c] rest (ofSign c l) := by
  rw [ofSign_eq]
  cases hk : Kind.ofSign? c with
  | none =>
    refine .character ?_
    simp [Text.Admissible, hblank, hc, ← isSome_ofSign?, hk]
  | some k =>
    obtain ⟨htext, hwritable, heof, hprolonged⟩ := lexeme_ofSign? hk
    have hlexeme : IsLexeme l k.lexeme.toList rest (.ok ⟨k, l⟩) :=
      .token hwritable heof (by simp [hprolonged])
    rwa [htext] at hlexeme

/-- What is read is a lexeme. -/
theorem Cuts.isLexeme {c : Char} {cs rest : List Char} (h : Cuts c cs rest) (l : Location) :
    IsLexeme l (c :: cs) rest (ofPiece c cs l) := by
  obtain ⟨hblank, hcs, hrest⟩ := h
  obtain hc | hc | hc := digit_or_letter_or_other c
  · obtain ⟨hprolongs, hpiece⟩ := piece_digit hc
    rw [hprolongs] at hcs hrest
    rw [hpiece]
    exact isLexeme_ofDigits
      ⟨List.cons_ne_nil _ _, List.forall_mem_cons.2 ⟨hc, hcs⟩, hrest⟩ l
  · obtain ⟨hprolongs, hpiece⟩ := piece_letter hc
    rw [hprolongs] at hcs hrest
    rw [hpiece]
    exact isLexeme_ofWord hc hcs hrest l
  · obtain ⟨hprolongs, hpiece⟩ := piece_other hc
    obtain rfl : cs = [] := by
      cases cs with
      | nil => rfl
      | cons d cs => exact absurd (hcs d List.mem_cons_self) (by simp [hprolongs])
    rw [hpiece]
    exact isLexeme_ofSign hc hblank rest l

theorem cuts_of_isNumeral {digits rest : List Char} (h : Text.IsNumeral digits rest) :
    ∃ c cs, digits = c :: cs ∧ Cuts c cs rest ∧ ∀ l, ofPiece c cs l = ofDigits digits l := by
  obtain ⟨hne, hdigits, hrest⟩ := h
  cases digits with
  | nil => exact absurd rfl hne
  | cons c cs =>
    rw [List.forall_mem_cons] at hdigits
    obtain ⟨hprolongs, hpiece⟩ := piece_digit hdigits.1
    have hvisible := isBlank_of_isAlphanum (c := c) (by simp [Char.isAlphanum, hdigits.1])
    exact ⟨c, cs, rfl, ⟨hvisible, hprolongs ▸ hdigits.2, hprolongs ▸ hrest⟩, hpiece cs⟩

/-- A lexeme is what is read. -/
theorem cuts_of_isLexeme {l : Location} {text rest : List Char} {x : Item}
    (h : IsLexeme l text rest x) :
    ∃ c cs, text = c :: cs ∧ Cuts c cs rest ∧ x = ofPiece c cs l := by
  cases h with
  | token hwritable heof hrest =>
    obtain ⟨c, cs, hpiece⟩ := exists_isPiece hwritable heof
    refine ⟨c, cs, hpiece.lexeme, ⟨hpiece.visible, ?_, ?_⟩, (hpiece.read l).symm⟩
    · exact hpiece.prolongs ▸ hpiece.whole
    · exact hpiece.prolongs ▸ hrest
  | number hnumeral hvalue =>
    obtain ⟨c, cs, htext, hcuts, hread⟩ := cuts_of_isNumeral hnumeral
    refine ⟨c, cs, htext, hcuts, ?_⟩
    rw [hread, ofDigits]
    exact (if_pos (Nat.lt_succ_of_le hvalue)).symm
  | tooLarge hnumeral hvalue =>
    obtain ⟨c, cs, htext, hcuts, hread⟩ := cuts_of_isNumeral hnumeral
    refine ⟨c, cs, htext, hcuts, ?_⟩
    rw [hread, ofDigits]
    exact (if_neg (Nat.not_lt.2 hvalue)).symm
  | @character c _ hc =>
    simp only [Text.Admissible, not_or, Bool.not_eq_true] at hc
    obtain ⟨hprolongs, hpiece⟩ := piece_other hc.2.1
    have hnone : Kind.ofSign? c = none := by simpa [← isSome_ofSign?] using hc.2.2
    refine ⟨c, [], rfl, ⟨hc.1, by simp, by simp [hprolongs]⟩, ?_⟩
    rw [hpiece, ofSign_eq, hnone]

end Token

namespace IsLexeme

theorem ne_nil {l : Location} {text rest : List Char} {x : Item} (h : IsLexeme l text rest x) :
    text ≠ [] := by
  obtain ⟨c, cs, rfl, -⟩ := Token.cuts_of_isLexeme h
  exact List.cons_ne_nil c cs

theorem not_blank {l : Location} {text rest : List Char} {x : Item} (h : IsLexeme l text rest x)
    (blanks : List Char) : ¬∀ c ∈ blanks ++ text ++ rest, Text.isBlank c = true := by
  obtain ⟨c, cs, rfl, hcuts, -⟩ := Token.cuts_of_isLexeme h
  intro hall
  have hc := hall c (by simp)
  rw [hcuts.visible] at hc
  cases hc

theorem location_eq {l : Location} {text rest : List Char} {x : Item}
    (h : IsLexeme l text rest x) : x.location = l := by
  cases h <;> rfl

end IsLexeme

namespace Cursor

variable {read blanks text rest : List Char} {x : Item}

theorem skipBlanks_lexeme (hblanks : ∀ c ∈ blanks, Text.isBlank c = true)
    (h : IsLexeme (.behind (read ++ blanks)) text rest x) :
    skipBlanks ⟨blanks ++ text ++ rest, .behind read⟩ =
      ⟨text ++ rest, .behind (read ++ blanks)⟩ := by
  obtain ⟨c, cs, rfl, hcuts, -⟩ := Token.cuts_of_isLexeme h
  have hhead : ∀ d ∈ (c :: cs ++ rest).head?, Text.isBlank d = false := by
    intro d hd
    cases hd
    exact hcuts.visible
  rw [skipBlanks, List.append_assoc, Text.takeWhile_append_of_head? hblanks hhead,
    Text.dropWhile_append_of_head? hblanks hhead, Location.advanceAll_behind]

/-- A lexeme behind blanks is read, and reading goes on behind it. -/
theorem next_lexeme (hblanks : ∀ c ∈ blanks, Text.isBlank c = true)
    (h : IsLexeme (.behind (read ++ blanks)) text rest x) :
    next ⟨blanks ++ text ++ rest, .behind read⟩ =
      (x, ⟨rest, .behind (read ++ blanks ++ text)⟩) := by
  have hskip := skipBlanks_lexeme hblanks h
  obtain ⟨c, cs, rfl, hcuts, rfl⟩ := Token.cuts_of_isLexeme h
  rw [next_of_piece (congrArg Cursor.rest hskip) hcuts.whole hcuts.right, hskip,
    Location.advanceAll_behind]

theorem next_blanks (hblanks : ∀ c ∈ blanks, Text.isBlank c = true) :
    next ⟨blanks, .behind read⟩ =
      (.ok ⟨.eof, .behind (read ++ blanks)⟩, ⟨[], .behind (read ++ blanks)⟩) := by
  have hskip : skipBlanks ⟨blanks, .behind read⟩ = ⟨[], .behind (read ++ blanks)⟩ := by
    rw [skipBlanks, List.dropWhile_eq_nil_iff.2 hblanks, List.takeWhile_eq_self_iff.2 hblanks,
      Location.advanceAll_behind]
  rw [next_of_skipBlanks_nil (congrArg Cursor.rest hskip), hskip]

end Cursor

/-- A lexeme with the blanks before it and what it says. -/
structure Lexeme where
  blanks : List Char
  text : List Char
  item : Item

namespace Lexeme

def whole (x : Lexeme) : List Char := x.blanks ++ x.text

def location (x : Lexeme) : Location := x.item.location

end Lexeme

/-- The lexemes of `rest`, which stands behind `read`. Behind the last of them come only blanks. -/
inductive Scan : List Char → List Char → List Lexeme → Prop
  | nil {read blanks : List Char} : (∀ c ∈ blanks, Text.isBlank c = true) → Scan read blanks []
  | cons {read blanks text rest : List Char} {x : Item} {lexemes : List Lexeme} :
    (∀ c ∈ blanks, Text.isBlank c = true) → IsLexeme (.behind (read ++ blanks)) text rest x →
      Scan (read ++ blanks ++ text) rest lexemes →
        Scan read (blanks ++ text ++ rest) (⟨blanks, text, x⟩ :: lexemes)

namespace Scan

theorem exists_of_text (read rest : List Char) : ∃ lexemes, Scan read rest lexemes := by
  have hsplit := List.takeWhile_append_dropWhile (p := Text.isBlank) (l := rest)
  have hblanks := List.all_eq_true.1 (List.all_takeWhile (p := Text.isBlank) (l := rest))
  cases hs : rest.dropWhile Text.isBlank with
  | nil => exact ⟨[], .nil (List.dropWhile_eq_nil_iff.1 hs)⟩
  | cons c cs =>
    have hpiece := List.takeWhile_append_dropWhile (p := Token.prolongs c) (l := cs)
    have hcuts : Token.Cuts c (cs.takeWhile (Token.prolongs c))
        (cs.dropWhile (Token.prolongs c)) := by
      refine ⟨?_, List.all_eq_true.1 List.all_takeWhile, ?_⟩
      · exact Text.eq_false_of_mem_head?_dropWhile (by rw [hs]; rfl)
      · exact fun d hd => Text.eq_false_of_mem_head?_dropWhile hd
    obtain ⟨lexemes, hlexemes⟩ := exists_of_text
      (read ++ rest.takeWhile Text.isBlank ++ c :: cs.takeWhile (Token.prolongs c))
      (cs.dropWhile (Token.prolongs c))
    have hscan := Scan.cons hblanks (hcuts.isLexeme _) hlexemes
    rw [List.append_assoc, List.cons_append, hpiece, ← hs, hsplit] at hscan
    exact ⟨_, hscan⟩
termination_by rest.length
decreasing_by
  have hdrop := (List.dropWhile_suffix (l := cs) (Token.prolongs c)).length_le
  have hle := (List.dropWhile_suffix (l := rest) Text.isBlank).length_le
  rw [hs, List.length_cons] at hle
  omega

variable {read rest : List Char} {lexemes : List Lexeme}

theorem unique {lexemes' : List Lexeme} (h : Scan read rest lexemes)
    (h' : Scan read rest lexemes') : lexemes = lexemes' := by
  generalize hsame : rest = rest' at h'
  induction h generalizing rest' lexemes' with
  | nil hblanks =>
    cases h' with
    | nil => rfl
    | cons _ hlexeme' _ => exact absurd (hsame ▸ hblanks) (hlexeme'.not_blank _)
  | @cons read blanks text rest x lexemes hblanks hlexeme _ ih =>
    cases h' with
    | nil hblanks' => exact absurd (hsame ▸ hblanks') (hlexeme.not_blank _)
    | @cons _ blanks' text' rest' x' lexemes' hblanks' hlexeme' hscan' =>
      -- Reading takes the same blanks and the same text off the front for both.
      have hskip := Cursor.skipBlanks_lexeme hblanks hlexeme
      have hnext := Cursor.next_lexeme hblanks hlexeme
      rw [hsame, Cursor.skipBlanks_lexeme hblanks' hlexeme'] at hskip
      rw [hsame, Cursor.next_lexeme hblanks' hlexeme'] at hnext
      obtain ⟨rfl, hcursor⟩ := Prod.mk.inj hnext
      obtain rfl := congrArg Cursor.rest hcursor
      obtain rfl := List.append_cancel_right (congrArg Cursor.rest hskip)
      obtain rfl := List.append_cancel_right (List.append_cancel_right hsame)
      rw [ih _ rfl hscan']

/-- Lexemes and the blanks between them are all of the text. -/
theorem partition (h : Scan read rest lexemes) :
    ∃ blanks, (∀ c ∈ blanks, Text.isBlank c = true) ∧
      rest = lexemes.flatMap Lexeme.whole ++ blanks := by
  induction h with
  | @nil _ blanks hblanks => exact ⟨blanks, hblanks, rfl⟩
  | @cons _ blanks text _ _ _ _ _ _ ih =>
    obtain ⟨last, hlast, rfl⟩ := ih
    exact ⟨last, hlast, by simp [Lexeme.whole]⟩

/-- A lexeme stands behind all text before it. -/
theorem position {before after : List Lexeme} {x : Lexeme}
    (h : Scan read rest (before ++ x :: after)) :
    x.location = .behind (read ++ before.flatMap Lexeme.whole ++ x.blanks) := by
  induction before generalizing read rest with
  | nil =>
    cases h with
    | cons _ hlexeme _ => simpa [Lexeme.location] using hlexeme.location_eq
  | cons y before ih =>
    cases h with
    | cons _ _ hscan => simpa [Lexeme.whole] using ih hscan

/-- Places from `read` on. -/
theorem exists_behind (h : Scan read rest lexemes) {l : Location}
    (hl : l ∈ lexemes.map Lexeme.location ++ [Location.behind (read ++ rest)]) :
    ∃ more, l = .behind (read ++ more) := by
  obtain hl | hl := List.mem_append.1 hl
  · obtain ⟨x, hx, rfl⟩ := List.mem_map.1 hl
    obtain ⟨before, after, rfl⟩ := List.append_of_mem hx
    exact ⟨before.flatMap Lexeme.whole ++ x.blanks, by rw [h.position, List.append_assoc]⟩
  · exact ⟨rest, List.mem_singleton.1 hl⟩

/-- Lexemes stand one behind the other, and the end behind all of them. -/
theorem increasing (h : Scan read rest lexemes) :
    (lexemes.map Lexeme.location ++ [Location.behind (read ++ rest)]).Pairwise (· < ·) := by
  induction h with
  | nil => exact List.pairwise_singleton _ _
  | @cons read blanks text rest x lexemes _ hlexeme hscan ih =>
    have hend : read ++ (blanks ++ text ++ rest) = read ++ blanks ++ text ++ rest := by simp
    rw [hend, List.map_cons, List.cons_append]
    refine List.pairwise_cons.2 ⟨?_, ih⟩
    intro l hl
    obtain ⟨more, rfl⟩ := hscan.exists_behind hl
    rw [Lexeme.location, hlexeme.location_eq, List.append_assoc (read ++ blanks)]
    exact Location.behind_lt_behind _ (List.append_ne_nil_of_left_ne_nil hlexeme.ne_nil _)

end Scan

end StraightLine
