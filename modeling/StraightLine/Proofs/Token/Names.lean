import StraightLine.Token.Cursor

/-! The names that can stand in a text: a letter, then letters and digits, but not the keyword. A
token read off a text has such a name, if it has one. -/
namespace StraightLine

def isName (x : String) : Bool :=
  match x.toList with
  | [] => false
  | c :: cs => c.isAlpha && cs.all Char.isAlphanum

/-- The kinds of tokens that a text can hold. A number has no sign. -/
def Token.Kind.isWritable : Token.Kind → Bool
  | .integer n => 0 ≤ n.toInt
  | .identifier x => isName x && x ≠ "var"
  | _ => true

theorem isName_ofList (c : Char) (cs : List Char) :
    isName (String.ofList (c :: cs)) = (c.isAlpha && cs.all Char.isAlphanum) := by
  rw [isName, String.toList_ofList]

theorem isAlpha_iff_toNat {c : Char} : c.isAlpha = true ↔
    65 ≤ c.toNat ∧ c.toNat ≤ 90 ∨ 97 ≤ c.toNat ∧ c.toNat ≤ 122 := by
  change (decide ('A'.val ≤ c.val ∧ c.val ≤ 'Z'.val) ||
    (decide ('a'.val ≤ c.val) && decide (c.val ≤ 'z'.val))) = true ↔ _
  simp only [Bool.or_eq_true, Bool.and_eq_true, decide_eq_true_eq]
  exact Iff.rfl

theorem isDigit_eq_false_of_isAlpha {c : Char} (h : c.isAlpha = true) : c.isDigit = false := by
  have hc := isAlpha_iff_toNat.1 h
  rw [Bool.eq_false_iff, Ne, Char.isDigit_iff_toNat]
  simp only [Char.reduceToNat]
  omega

namespace Token

theorem isWritable_ofDigits {digits : List Char} {l : Location} {t : Token}
    (h : ofDigits digits l = .ok t) : t.kind.isWritable = true := by
  simp only [ofDigits] at h
  split at h
  next hlt =>
    cases h
    simp only [Kind.isWritable, Int64.toInt_ofNat_of_lt hlt, decide_eq_true_eq]
    omega
  next => cases h

theorem isWritable_ofWord {c : Char} {cs : List Char} (hc : c.isAlpha = true)
    (hcs : ∀ d ∈ cs, d.isAlphanum = true) (l : Location) :
    (ofWord (c :: cs) l).kind.isWritable = true := by
  have hname : isName (String.ofList (c :: cs)) = true := by
    rw [isName_ofList, hc, Bool.true_and, List.all_eq_true]
    exact hcs
  simp only [ofWord]
  split
  next => rfl
  next hvar => simp only [Kind.isWritable, hname, hvar, ne_eq, not_false_eq_true, decide_true,
    Bool.and_self]

theorem isWritable_ofSign {c : Char} {l : Location} {t : Token} (h : ofSign c l = .ok t) :
    t.kind.isWritable = true := by
  unfold ofSign at h
  split at h
  all_goals cases h
  all_goals rfl

theorem piece_digit {c : Char} (hc : c.isDigit = true) :
    prolongs c = Char.isDigit ∧ ∀ cs l, ofPiece c cs l = ofDigits (c :: cs) l :=
  ⟨by rw [prolongs, if_pos hc], fun _ _ => by rw [ofPiece, if_pos hc]⟩

theorem piece_letter {c : Char} (hc : c.isAlpha = true) :
    prolongs c = Char.isAlphanum ∧ ∀ cs l, ofPiece c cs l = .ok (ofWord (c :: cs) l) := by
  have hdigit := isDigit_eq_false_of_isAlpha hc
  exact ⟨by simp [prolongs, hdigit, hc], fun _ _ => by simp [ofPiece, hdigit, hc]⟩

theorem piece_other {c : Char} (hc : c.isAlphanum = false) :
    prolongs c = (fun _ => false) ∧ ∀ cs l, ofPiece c cs l = ofSign c l := by
  rw [Char.isAlphanum, Bool.or_eq_false_iff] at hc
  exact ⟨by simp [prolongs, hc], fun _ _ => by simp [ofPiece, hc]⟩

theorem digit_or_letter_or_other (c : Char) :
    c.isDigit = true ∨ c.isAlpha = true ∨ c.isAlphanum = false := by
  cases hd : c.isDigit with
  | true => exact .inl rfl
  | false =>
    refine .inr ?_
    cases ha : c.isAlpha with
    | true => exact .inl rfl
    | false => exact .inr (by rw [Char.isAlphanum, hd, ha]; rfl)

theorem isWritable_ofPiece {c : Char} {cs : List Char} {l : Location} {t : Token}
    (hcs : ∀ d ∈ cs, prolongs c d = true) (h : ofPiece c cs l = .ok t) :
    t.kind.isWritable = true := by
  obtain hc | hc | hc := digit_or_letter_or_other c
  · rw [(piece_digit hc).2] at h
    exact isWritable_ofDigits h
  · rw [(piece_letter hc).2] at h
    cases h
    exact isWritable_ofWord hc ((piece_letter hc).1 ▸ hcs) l
  · rw [(piece_other hc).2] at h
    exact isWritable_ofSign h

/-- A piece is a token at its own place, and no end. -/
theorem ofPiece_eq_ok {c : Char} {cs : List Char} {l : Location} {t : Token}
    (h : ofPiece c cs l = .ok t) : t.location = l ∧ t.isEof = false := by
  obtain hc | hc | hc := digit_or_letter_or_other c
  · rw [(piece_digit hc).2] at h
    simp only [ofDigits] at h
    split at h
    next => cases h; exact ⟨rfl, rfl⟩
    next => cases h
  · rw [(piece_letter hc).2] at h
    cases h
    refine ⟨rfl, ?_⟩
    simp only [ofWord, isEof]
    split <;> rfl
  · rw [(piece_other hc).2] at h
    unfold ofSign at h
    split at h
    all_goals cases h
    all_goals exact ⟨rfl, rfl⟩

end Token

namespace Cursor

theorem isWritable_next {k : Cursor} {t : Token} (h : k.next.1 = .ok t) :
    t.kind.isWritable = true := by
  cases hs : k.skipBlanks.rest with
  | nil =>
    rw [next_of_skipBlanks_nil hs] at h
    cases h
    rfl
  | cons c cs =>
    rw [next_of_skipBlanks_cons hs] at h
    refine Token.isWritable_ofPiece ?_ h
    intro d hd
    exact List.all_eq_true.1 List.all_takeWhile d hd

/-- What holds where the text ends and goes back over a token holds where all tokens were read. -/
theorem tokens_ok_induction {P : Cursor → List Token → Prop}
    (eof : ∀ k t, k.next.1 = .ok t → t.isEof = true → P k [t])
    (token : ∀ k t ts, k.next.1 = .ok t → t.isEof = false → P k.next.2 ts → P k (t :: ts))
    {k : Cursor} {ts : List Token} (h : k.tokens.1 = .ok ts) : P k ts := by
  cases hk : k.next.1 with
  | error e =>
    rw [tokens, tokensAfter_of_error hk] at h
    cases h
  | ok t =>
    cases ht : t.isEof with
    | true =>
      rw [tokens, tokensAfter_of_eof hk ht] at h
      cases h
      exact eof k t hk ht
    | false =>
      rw [tokens_of_token hk ht] at h
      cases hrest : k.next.2.tokens.1 with
      | error e =>
        rw [hrest] at h
        cases h
      | ok us =>
        rw [hrest] at h
        cases h
        exact token k t us hk ht (tokens_ok_induction eof token hrest)
termination_by k.rest.length
decreasing_by exact length_rest_next_lt hk ht

theorem isWritable_tokens {k : Cursor} {ts : List Token} (h : k.tokens.1 = .ok ts) :
    ∀ t ∈ ts, t.kind.isWritable = true := by
  refine tokens_ok_induction (P := fun _ ts => ∀ t ∈ ts, t.kind.isWritable = true) ?_ ?_ h
  · intro k t hk _
    simpa using isWritable_next hk
  · intro k t ts hk _ ih
    exact List.forall_mem_cons.2 ⟨isWritable_next hk, ih⟩

end Cursor

theorem isWritable_tokenize {source : String} {ts : List Token} (h : tokenize source = .ok ts) :
    ∀ t ∈ ts, t.kind.isWritable = true := Cursor.isWritable_tokens h

end StraightLine
