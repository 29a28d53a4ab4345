import StraightLine.Proofs.Text.Segments
import StraightLine.Proofs.Token.Layout

/-! Reading goes from segment to segment. A run of letters and digits is a number, a word or both;
a sign is a token of its own; blanks are nothing. The first segment that is none of these, or whose
number is too large, is where reading fails. -/
namespace StraightLine

open Token (Kind)
open Text (IsRun IsSegment segments)

namespace Text

/-- The characters that are tokens of their own. -/
def signs : List Char := ['+', '-', '*', '/', '(', ')', '=', ';']

def Admissible (c : Char) : Prop := isBlank c = true ∨ c.isAlphanum = true ∨ c ∈ signs

/-- The value of the digits at the front, of which there may be none. -/
def leadingValue (segment : List Char) : Nat :=
  Nat.ofDigitChars 10 (segment.takeWhile Char.isDigit) 0

/-- The largest number that has a token. -/
def maxValue : Nat := 0x7FFFFFFFFFFFFFFF

/-- A segment that can be read. -/
structure Sound (segment : List Char) : Prop where
  admissible : ∀ c ∈ segment, Admissible c
  value : leadingValue segment ≤ maxValue

/-- Why a segment at `l` cannot be read. -/
inductive Flaw (l : Location) : List Char → LexicalError → Prop
  | character {c : Char} : ¬Admissible c → Flaw l [c] (.unexpectedCharacter c l)
  | number {run : List Char} : run ≠ [] → (∀ c ∈ run, c.isAlphanum = true) →
    maxValue < leadingValue run →
      Flaw l run (.integerOutOfRange (String.ofList (run.takeWhile Char.isDigit)) l)

theorem Flaw.not_sound {l : Location} {segment : List Char} {e : LexicalError}
    (h : Flaw l segment e) : ¬Sound segment := by
  intro hsound
  cases h with
  | character hc => exact hc (hsound.admissible _ (List.mem_singleton_self _))
  | number _ _ hvalue => exact Nat.not_le_of_lt hvalue hsound.value

theorem not_isDigit_of_not_isAlphanum {c : Char} (h : c.isAlphanum = false) :
    c.isDigit = false := by
  rw [Char.isAlphanum, Bool.or_eq_false_iff] at h
  exact h.2

/-- The digits at the front of a run end within it or with it. -/
theorem IsRun.not_isDigit {before run after : List Char} (h : IsRun before run after) :
    ∀ d ∈ (run.dropWhile Char.isDigit ++ after).head?, d.isDigit = false := by
  intro d hd
  by_cases hword : run.dropWhile Char.isDigit = []
  · rw [hword, List.nil_append] at hd
    exact not_isDigit_of_not_isAlphanum (h.right d hd)
  · rw [List.head?_append_of_ne_nil _ hword] at hd
    exact eq_false_of_mem_head?_dropWhile hd

theorem IsRun.takeWhile_isDigit {before run after : List Char} (h : IsRun before run after) :
    (run ++ after).takeWhile Char.isDigit = run.takeWhile Char.isDigit := by
  have hsplit := List.takeWhile_append_dropWhile (p := Char.isDigit) (l := run)
  have hdigits := List.all_eq_true.1 (List.all_takeWhile (p := Char.isDigit) (l := run))
  have htake := takeWhile_append_of_head? hdigits h.not_isDigit
  rwa [← List.append_assoc, hsplit] at htake

theorem IsSegment.exists_flaw {before segment after : List Char}
    (h : IsSegment before segment after) (hsound : ¬Sound segment) (l : Location) :
    ∃ e, Flaw l segment e := by
  cases h with
  | @other c _ hc =>
    refine ⟨_, .character ?_⟩
    intro hadmissible
    refine hsound ⟨by simpa using hadmissible, ?_⟩
    simp [leadingValue, not_isDigit_of_not_isAlphanum hc, maxValue]
  | run h =>
    refine ⟨_, .number h.ne_nil h.isAlphanum ?_⟩
    by_contra hvalue
    exact hsound ⟨fun c hc => .inr (.inl (h.isAlphanum c hc)), Nat.not_lt.1 hvalue⟩

end Text

namespace Token

def Kind.ofSign? : Char → Option Kind
  | '+' => some (.operator .add)
  | '-' => some (.operator .sub)
  | '*' => some (.operator .mul)
  | '/' => some (.operator .div)
  | '(' => some .lparen
  | ')' => some .rparen
  | '=' => some .assign
  | ';' => some .semicolon
  | _ => none

/-- The number that digits stand for, if there are any. -/
def Kind.ofDigits (digits : List Char) : List Kind :=
  if digits = [] then [] else [.integer (Int64.ofNat (Nat.ofDigitChars 10 digits 0))]

/-- The keyword or the name that characters stand for, if there are any. -/
def Kind.ofWord (chars : List Char) : List Kind :=
  if chars = [] then [] else
    if String.ofList chars = "var" then [.var] else [.identifier (String.ofList chars)]

/-- The kinds of the tokens in a segment: in a run the digits at its front, then the rest. -/
def Kind.ofSegment (segment : List Char) : List Kind :=
  match segment with
  | [] => []
  | c :: _ =>
    if c.isAlphanum then
      Kind.ofDigits (segment.takeWhile Char.isDigit) ++ Kind.ofWord (segment.dropWhile Char.isDigit)
    else (Kind.ofSign? c).toList

theorem ofSign_eq (c : Char) (l : Location) :
    ofSign c l = match Kind.ofSign? c with
      | some k => .ok ⟨k, l⟩
      | none => .error (.unexpectedCharacter c l) := by
  unfold ofSign Kind.ofSign?
  split <;> simp_all

theorem isSome_ofSign? (c : Char) : (Kind.ofSign? c).isSome = true ↔ c ∈ Text.signs := by
  unfold Kind.ofSign? Text.signs
  split <;> simp_all

/-- A sign is written as itself, and nothing behind it runs together with it. -/
theorem lexeme_ofSign? {c : Char} {k : Kind} (h : Kind.ofSign? c = some k) :
    k.lexeme.toList = [c] ∧ k.isWritable = true ∧ k ≠ .eof ∧ k.prolongedBy = fun _ => false := by
  unfold Kind.ofSign? at h
  split at h
  all_goals cases h
  all_goals exact ⟨rfl, rfl, Kind.noConfusion, rfl⟩

theorem Kind.ofSegment_ne_eof {segment : List Char} {k : Kind} (h : k ∈ Kind.ofSegment segment) :
    k ≠ .eof := by
  rintro rfl
  unfold ofSegment at h
  split at h
  next => cases h
  next c cs =>
    split at h
    · unfold ofDigits ofWord at h
      grind
    · unfold ofSign? at h
      split at h <;> simp at h

end Token

namespace Cursor

theorem tokens_congr {k k' : Cursor} (h : k.next = k'.next) : k.tokens = k'.tokens := by
  cases hk : k.next.1 with
  | error e =>
    have hk' : k'.next.1 = .error e := h ▸ hk
    rw [tokens, tokens, tokensAfter_of_error hk, tokensAfter_of_error hk', h]
  | ok t =>
    have hk' : k'.next.1 = .ok t := h ▸ hk
    cases ht : t.isEof with
    | true => rw [tokens, tokens, tokensAfter_of_eof hk ht, tokensAfter_of_eof hk' ht, h]
    | false => rw [tokens_of_token hk' ht, ← h, tokens_of_token hk ht]

theorem tokens_blank {c : Char} (hc : Text.isBlank c = true) (rest : List Char) (l : Location) :
    Cursor.tokens ⟨c :: rest, l⟩ = Cursor.tokens ⟨rest, l.advance c⟩ := by
  have hskip : skipBlanks ⟨c :: rest, l⟩ = skipBlanks ⟨rest, l.advance c⟩ := by
    simp [skipBlanks, hc]
  refine tokens_congr ?_
  rw [next, next, hskip]

theorem next_visible {c : Char} {cs rest : List Char} (hc : Text.isBlank c = false)
    (hcs : ∀ d ∈ cs, Token.prolongs c d = true)
    (hrest : ∀ d ∈ rest.head?, Token.prolongs c d = false) (l : Location) :
    next ⟨c :: cs ++ rest, l⟩ = (Token.ofPiece c cs l, ⟨rest, l.advanceAll (c :: cs)⟩) := by
  have hskip : skipBlanks ⟨c :: cs ++ rest, l⟩ = ⟨c :: cs ++ rest, l⟩ := by simp [skipBlanks, hc]
  rw [next_of_piece (congrArg Cursor.rest hskip) hcs hrest, hskip]

/-- Whatever follows, these characters are read as tokens of these kinds if `rest` comes next. -/
def Reads (text rest : List Char) (ks : List Kind) : Prop :=
  ∀ l, ∃ ts : List Token, ts.map Token.kind = ks ∧
    (Cursor.tokens ⟨text ++ rest, l⟩).1 =
      (Cursor.tokens ⟨rest, l.advanceAll text⟩).1.map (ts ++ ·)

theorem reads_nil (rest : List Char) : Reads [] rest [] := by
  intro l
  refine ⟨[], rfl, ?_⟩
  cases h : (Cursor.tokens ⟨rest, l⟩).1 with
  | error e => simp [h, Except.map]
  | ok ts => simp [h, Except.map]

theorem Reads.append {u v rest : List Char} {ks ks' : List Kind} (hu : Reads u (v ++ rest) ks)
    (hv : Reads v rest ks') : Reads (u ++ v) rest (ks ++ ks') := by
  intro l
  obtain ⟨ts, hts, hu⟩ := hu l
  obtain ⟨us, hus, hv⟩ := hv (l.advanceAll u)
  refine ⟨ts ++ us, by simp [hts, hus], ?_⟩
  rw [List.append_assoc, hu, hv, Location.advanceAll_append]
  cases (Cursor.tokens ⟨rest, (l.advanceAll u).advanceAll v⟩).1 with
  | error e => rfl
  | ok ws => simp [Except.map]

theorem reads_blank {c : Char} (hc : Text.isBlank c = true) (rest : List Char) :
    Reads [c] rest [] := by
  intro l
  obtain ⟨ts, hts, h⟩ := reads_nil rest (l.advance c)
  exact ⟨ts, hts, (congrArg Prod.fst (tokens_blank hc rest l)).trans h⟩

theorem reads_piece {c : Char} {cs rest : List Char} {k : Kind} (hc : Text.isBlank c = false)
    (hcs : ∀ d ∈ cs, Token.prolongs c d = true)
    (hrest : ∀ d ∈ rest.head?, Token.prolongs c d = false)
    (hk : ∀ l, Token.ofPiece c cs l = .ok ⟨k, l⟩) : Reads (c :: cs) rest [k] := by
  intro l
  have hnext := next_visible hc hcs hrest l
  rw [hk] at hnext
  refine ⟨[⟨k, l⟩], rfl, ?_⟩
  rw [tokens_of_token (congrArg Prod.fst hnext) (Token.ofPiece_eq_ok (hk l)).2, hnext]
  rfl

theorem tokens_piece_error {c : Char} {cs rest : List Char} {l : Location} {e : LexicalError}
    (hc : Text.isBlank c = false) (hcs : ∀ d ∈ cs, Token.prolongs c d = true)
    (hrest : ∀ d ∈ rest.head?, Token.prolongs c d = false)
    (he : Token.ofPiece c cs l = .error e) : (Cursor.tokens ⟨c :: cs ++ rest, l⟩).1 = .error e := by
  have hnext := next_visible hc hcs hrest l
  rw [tokens, tokensAfter_of_error (by rw [hnext, he])]

theorem reads_digits {digits rest : List Char} (h : ∀ d ∈ digits, d.isDigit = true)
    (hrest : ∀ d ∈ rest.head?, d.isDigit = false)
    (hvalue : Nat.ofDigitChars 10 digits 0 ≤ Text.maxValue) :
    Reads digits rest (Kind.ofDigits digits) := by
  cases digits with
  | nil => exact reads_nil rest
  | cons c cs =>
    rw [List.forall_mem_cons] at h
    have hpiece := Token.piece_digit h.1
    refine reads_piece ?_ (hpiece.1 ▸ h.2) (hpiece.1 ▸ hrest) ?_
    · exact Token.isBlank_of_isAlphanum (by simp [Char.isAlphanum, h.1])
    · intro l
      rw [hpiece.2, Token.ofDigits]
      exact if_pos (Nat.lt_succ_of_le hvalue)

theorem reads_word {word rest : List Char} (h : ∀ c ∈ word, c.isAlphanum = true)
    (hhead : ∀ c ∈ word.head?, c.isDigit = false)
    (hrest : ∀ c ∈ rest.head?, c.isAlphanum = false) : Reads word rest (Kind.ofWord word) := by
  cases word with
  | nil => exact reads_nil rest
  | cons c cs =>
    rw [List.forall_mem_cons] at h
    have halpha : c.isAlpha = true := by
      simpa [Char.isAlphanum, hhead c rfl] using h.1
    have hpiece := Token.piece_letter halpha
    have hkind : Kind.ofWord (c :: cs) = [(Token.ofWord (c :: cs) .start).kind] := by
      unfold Kind.ofWord Token.ofWord
      rw [if_neg (List.cons_ne_nil c cs)]
      split <;> simp_all
    rw [hkind]
    refine reads_piece (Token.isBlank_of_isAlphanum h.1) (hpiece.1 ▸ h.2) (hpiece.1 ▸ hrest) ?_
    intro l
    rw [hpiece.2]
    rfl

theorem reads_run {run rest : List Char} (h : IsRun [] run rest)
    (hvalue : Text.leadingValue run ≤ Text.maxValue) : Reads run rest (Kind.ofSegment run) := by
  have hsplit := List.takeWhile_append_dropWhile (p := Char.isDigit) (l := run)
  have hnumber := reads_digits (List.all_eq_true.1 List.all_takeWhile) h.not_isDigit hvalue
  have hword : Reads (run.dropWhile Char.isDigit) rest
      (Kind.ofWord (run.dropWhile Char.isDigit)) := by
    refine reads_word ?_ ?_ h.right
    · intro c hc
      exact h.isAlphanum c ((List.dropWhile_sublist _).subset hc)
    · exact fun c hc => Text.eq_false_of_mem_head?_dropWhile hc
  have hreads := hnumber.append hword
  rw [hsplit] at hreads
  cases run with
  | nil => exact absurd rfl h.ne_nil
  | cons c cs =>
    rw [Kind.ofSegment, if_pos (h.isAlphanum c List.mem_cons_self)]
    exact hreads

theorem reads_other {c : Char} (hc : c.isAlphanum = false) (h : Text.Admissible c)
    (rest : List Char) : Reads [c] rest (Kind.ofSegment [c]) := by
  have hsigns : Text.signs.all (fun c => !Text.isBlank c) = true := rfl
  have hkinds : Kind.ofSegment [c] = (Kind.ofSign? c).toList := by simp [Kind.ofSegment, hc]
  have hsome := Token.isSome_ofSign? c
  rw [hkinds]
  cases hk : Kind.ofSign? c with
  | none =>
    have hblank : Text.isBlank c = true := by simpa [Text.Admissible, hc, ← hsome, hk] using h
    exact reads_blank hblank rest
  | some k =>
    have hsign : c ∈ Text.signs := hsome.1 (by simp [hk])
    have hpiece := Token.piece_other hc
    have hvisible : Text.isBlank c = false := by
      simpa using List.all_eq_true.1 hsigns c hsign
    refine reads_piece hvisible (by simp) (by simp [hpiece.1]) ?_
    intro l
    rw [hpiece.2, Token.ofSign_eq, hk]

theorem reads_segment {segment rest : List Char} (h : IsSegment [] segment rest)
    (hsound : Text.Sound segment) : Reads segment rest (Kind.ofSegment segment) := by
  cases h with
  | run h => exact reads_run h hsound.value
  | other _ hc => exact reads_other hc (hsound.admissible _ (List.mem_singleton_self _)) rest

theorem tokens_of_flaw {segment rest : List Char} {l : Location} {e : LexicalError}
    (h : IsSegment [] segment rest) (he : Text.Flaw l segment e) :
    (Cursor.tokens ⟨segment ++ rest, l⟩).1 = .error e := by
  cases he with
  | @character c hc =>
    simp only [Text.Admissible, not_or, Bool.not_eq_true] at hc
    have hpiece := Token.piece_other hc.2.1
    have hnone : Kind.ofSign? c = none := by simpa [← Token.isSome_ofSign?] using hc.2.2
    refine tokens_piece_error hc.1 (by simp) (by simp [hpiece.1]) ?_
    rw [hpiece.2, Token.ofSign_eq, hnone]
  | number hne hrun hvalue =>
    cases h with
    | other _ hc => simp [hc] at hrun
    | run h =>
      have hsplit := List.takeWhile_append_dropWhile (p := Char.isDigit) (l := segment)
      have hdigits := List.all_eq_true.1 (List.all_takeWhile (p := Char.isDigit) (l := segment))
      have hnext := h.not_isDigit
      unfold Text.leadingValue at hvalue
      cases hnumber : segment.takeWhile Char.isDigit with
      | nil => simp [hnumber] at hvalue
      | cons d ds =>
        rw [hnumber] at hsplit hdigits hvalue
        rw [List.forall_mem_cons] at hdigits
        have hpiece := Token.piece_digit hdigits.1
        rw [← hsplit, List.append_assoc]
        refine tokens_piece_error ?_ (hpiece.1 ▸ hdigits.2) (hpiece.1 ▸ hnext) ?_
        · exact Token.isBlank_of_isAlphanum (by simp [Char.isAlphanum, hdigits.1])
        · rw [hpiece.2, Token.ofDigits]
          exact if_neg (Nat.not_lt.2 hvalue)

/-- Reading takes segment after segment, up to the end or to the first that is flawed. -/
theorem tokens_cases (text : List Char) (l : Location) :
    ((∀ segment ∈ segments text, Text.Sound segment) ∧
      ∃ ts, (Cursor.tokens ⟨text, l⟩).1 = .ok ts ∧
        ts.map Token.kind = (segments text).flatMap Kind.ofSegment ++ [.eof]) ∨
    ∃ before segment after e, segments text = before ++ segment :: after ∧
      (∀ segment ∈ before, Text.Sound segment) ∧
      Text.Flaw (l.advanceAll before.flatten) segment e ∧
      (Cursor.tokens ⟨text, l⟩).1 = .error e := by
  induction text using Text.segment_induction generalizing l with
  | nil =>
    have hnext := next_of_skipBlanks_nil (k := ⟨[], l⟩) rfl
    refine .inl ⟨by simp, [⟨.eof, l⟩], ?_, rfl⟩
    rw [tokens, tokensAfter_of_eof (congrArg Prod.fst hnext) rfl]
    rfl
  | append segment rest h ih =>
    have hcut : segments (segment ++ rest) = segment :: segments rest := h.segments_eq
    rw [hcut]
    by_cases hsound : Text.Sound segment
    · obtain ⟨us, hus, hreads⟩ := reads_segment h hsound l
      obtain ⟨hall, ts, hts, hkinds⟩ | ⟨before, flawed, after, e, hrest, hall, hflaw, he⟩ :=
        ih (l.advanceAll segment)
      · refine .inl ⟨List.forall_mem_cons.2 ⟨hsound, hall⟩, us ++ ts, ?_, ?_⟩
        · rw [hreads, hts]
          rfl
        · simp [hus, hkinds]
      · refine .inr ⟨segment :: before, flawed, after, e, by rw [hrest]; rfl,
          List.forall_mem_cons.2 ⟨hsound, hall⟩, ?_, ?_⟩
        · rwa [List.flatten_cons, Location.advanceAll_append]
        · rw [hreads, he]
          rfl
    · obtain ⟨e, hflaw⟩ := h.exists_flaw hsound l
      exact .inr ⟨[], segment, segments rest, e, rfl, by simp, hflaw, tokens_of_flaw h hflaw⟩

end Cursor

end StraightLine
