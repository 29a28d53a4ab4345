import Mathlib.Data.List.TakeWhile
import StraightLine.Proofs.Token.Positions
import StraightLine.Proofs.Token.Reading

/-! Two texts joined. What is read off the first is not changed by the second, unless the second
prolongs the last token of the first; reading then goes on in the second from where it starts. -/
namespace StraightLine

theorem Token.prolongs_eq {c : Char} {cs : List Char} {l : Location} {t : Token}
    (h : ofPiece c cs l = .ok t) : prolongs c = t.kind.prolongedBy := by
  obtain hc | hc | hc := digit_or_letter_or_other c
  · obtain ⟨hprolongs, hpiece⟩ := piece_digit hc
    rw [hpiece, ofDigits] at h
    split at h
    next => cases h; exact hprolongs
    next => cases h
  · obtain ⟨hprolongs, hpiece⟩ := piece_letter hc
    rw [hpiece] at h
    cases h
    simp only [ofWord]
    split <;> exact hprolongs
  · obtain ⟨hprolongs, hpiece⟩ := piece_other hc
    rw [hpiece] at h
    unfold ofSign at h
    split at h
    all_goals cases h
    all_goals exact hprolongs

namespace Cursor

theorem skipBlanks_append {k : Cursor} {c : Char} {cs : List Char}
    (h : k.skipBlanks.rest = c :: cs) (rest : List Char) :
    skipBlanks ⟨k.rest ++ rest, k.location⟩ = ⟨c :: (cs ++ rest), k.skipBlanks.location⟩ := by
  have hdrop : k.rest.dropWhile Text.isBlank = c :: cs := h
  have hsplit := List.takeWhile_append_dropWhile (p := Text.isBlank) (l := k.rest)
  have hblanks := List.all_eq_true.1 (List.all_takeWhile (p := Text.isBlank) (l := k.rest))
  have hc : ∀ d ∈ (c :: (cs ++ rest)).head?, Text.isBlank d = false := by
    intro d hd
    cases hd
    exact Text.eq_false_of_mem_head?_dropWhile (by rw [hdrop]; rfl)
  have htext : k.rest ++ rest = k.rest.takeWhile Text.isBlank ++ c :: (cs ++ rest) := by
    rw [← List.cons_append, ← hdrop, ← List.append_assoc, hsplit]
  rw [skipBlanks, htext, Text.takeWhile_append_of_head? hblanks hc,
    Text.dropWhile_append_of_head? hblanks hc]
  rfl

/-- Text behind a token does not change it, unless it prolongs it. -/
theorem next_append {k : Cursor} {t : Token} (h : k.next.1 = .ok t) (ht : t.isEof = false)
    {rest : List Char}
    (hseam : k.next.2.rest = [] → ∀ c ∈ rest.head?, t.kind.prolongedBy c = false) :
    Cursor.next ⟨k.rest ++ rest, k.location⟩ =
      (.ok t, ⟨k.next.2.rest ++ rest, k.next.2.location⟩) := by
  cases hs : k.skipBlanks.rest with
  | nil =>
    rw [next_of_skipBlanks_nil hs] at h
    cases h
    cases ht
  | cons c cs =>
    have hsplit := List.takeWhile_append_dropWhile (p := Token.prolongs c) (l := cs)
    have hskip := skipBlanks_append hs rest
    rw [← hsplit, List.append_assoc] at hskip
    rw [next_of_skipBlanks_cons hs] at h hseam ⊢
    simp only at h hseam ⊢
    have hhead : ∀ d ∈ (cs.dropWhile (Token.prolongs c) ++ rest).head?,
        Token.prolongs c d = false := by
      intro d hd
      -- Behind the piece comes more of the first text, or the seam.
      by_cases hend : cs.dropWhile (Token.prolongs c) = []
      · rw [hend, List.nil_append] at hd
        rw [Token.prolongs_eq h]
        exact hseam hend d hd
      · rw [List.head?_append_of_ne_nil _ hend] at hd
        exact Text.eq_false_of_mem_head?_dropWhile hd
    rw [next_of_piece (congrArg Cursor.rest hskip) (List.all_eq_true.1 List.all_takeWhile) hhead,
      hskip, h]

theorem tokens_blanks {blanks : List Char} (h : ∀ c ∈ blanks, Text.isBlank c = true)
    (rest : List Char) (l : Location) :
    Cursor.tokens ⟨blanks ++ rest, l⟩ = Cursor.tokens ⟨rest, l.advanceAll blanks⟩ := by
  induction blanks generalizing l with
  | nil => rfl
  | cons c blanks ih =>
    rw [List.forall_mem_cons] at h
    rw [List.cons_append, tokens_blank h.1, ih h.2, Location.advanceAll_cons]

/-- With any text behind it that does not prolong its last token, a text is read as the tokens of
`w`, and reading goes on behind it. -/
structure Joins (k : Cursor) (w : List Token) : Prop where
  ended : k.rest = [] → w = []
  tokens : ∀ rest : List Char,
    (∀ t ∈ w.getLast?, ∀ c ∈ rest.head?, t.kind.prolongedBy c = false) →
      (Cursor.tokens ⟨k.rest ++ rest, k.location⟩).1 =
        (Cursor.tokens ⟨rest, k.location.advanceAll k.rest⟩).1.map (w ++ ·)

theorem joins_eof {k : Cursor} {t : Token} (h : k.next.1 = .ok t) (ht : t.isEof = true) :
    k.Joins [] := by
  have hblanks : ∀ c ∈ k.rest, Text.isBlank c = true := by
    cases hs : k.skipBlanks.rest with
    | nil => exact List.dropWhile_eq_nil_iff.1 hs
    | cons c cs =>
      rw [next_of_skipBlanks_cons hs] at h
      cases (Token.ofPiece_eq_ok h).2.symm.trans ht
  refine ⟨fun _ => rfl, ?_⟩
  intro rest _
  rw [tokens_blanks hblanks]
  cases (Cursor.tokens ⟨rest, k.location.advanceAll k.rest⟩).1 with
  | error e => rfl
  | ok ts => rfl

theorem joins_cons {k : Cursor} {t : Token} {w : List Token} (h : k.next.1 = .ok t)
    (ht : t.isEof = false) (hw : k.next.2.Joins w) : k.Joins (t :: w) := by
  obtain ⟨blanks, piece, hrest, -, hnext, hpiece⟩ := next_position h
  rw [ht, if_neg Bool.false_ne_true] at hpiece
  refine ⟨by simp [hrest, hpiece], ?_⟩
  intro rest hseam
  have hfirst : next ⟨k.rest ++ rest, k.location⟩ =
      (.ok t, ⟨k.next.2.rest ++ rest, k.next.2.location⟩) := by
    refine next_append h ht ?_
    intro hend
    rw [hw.ended hend] at hseam
    exact hseam t rfl
  have hothers := hw.tokens rest (by
    intro t' ht'
    refine hseam t' ?_
    rw [List.getLast?_cons, ht']
    rfl)
  have hend : k.next.2.location.advanceAll k.next.2.rest = k.location.advanceAll k.rest := by
    rw [hnext, ← Location.advanceAll_append, ← hrest]
  rw [tokens_of_token (congrArg Prod.fst hfirst) ht, hfirst, hothers, hend]
  cases (Cursor.tokens ⟨rest, k.location.advanceAll k.rest⟩).1 with
  | error e => rfl
  | ok ts => rfl

theorem joins_tokens {k : Cursor} {w : List Token} {t : Token} (h : k.tokens.1 = .ok (w ++ [t])) :
    k.Joins w := by
  have hjoins : ∃ w' t', w ++ [t] = w' ++ [t'] ∧ k.Joins w' := by
    refine tokens_ok_induction (P := fun k ts => ∃ w' t', ts = w' ++ [t'] ∧ k.Joins w') ?_ ?_ h
    · intro k t hk ht
      exact ⟨[], t, rfl, joins_eof hk ht⟩
    · intro k t ts hk ht ih
      obtain ⟨w', t', rfl, hw'⟩ := ih
      exact ⟨t :: w', t', rfl, joins_cons hk ht hw'⟩
  obtain ⟨w', t', hsame, hw'⟩ := hjoins
  obtain rfl := List.append_inj_left' hsame rfl
  exact hw'

/-- An error stands somewhere behind the text already read. -/
theorem location_of_tokens_eq_error {read rest : List Char} {e : LexicalError}
    (h : (Cursor.tokens ⟨rest, .behind read⟩).1 = .error e) :
    ∃ before, e.location = .behind (read ++ before) := by
  obtain ⟨-, ts, hts, -⟩ | ⟨before, segment, after, e', -, -, hflaw, he⟩ :=
    tokens_cases rest (.behind read)
  · cases h.symm.trans hts
  · cases h.symm.trans he
    rw [Location.advanceAll_behind] at hflaw
    cases hflaw <;> exact ⟨before.flatten, rfl⟩

end Cursor

/-- The tokens of two texts joined are those of the first but for its end, and then those of the
second, with places counted on from the first. -/
theorem tokenize_append {s₁ s₂ : String} {w : List Token} {t : Token}
    (h : tokenize s₁ = .ok (w ++ [t]))
    (hseam : ∀ t ∈ w.getLast?, ∀ c ∈ s₂.toList.head?, t.kind.prolongedBy c = false) :
    tokenize (s₁ ++ s₂) =
      (Cursor.tokens ⟨s₂.toList, .behind s₁.toList⟩).1.map (w ++ ·) := by
  have hjoins := (Cursor.joins_tokens h).tokens s₂.toList hseam
  rw [Cursor.ofString, Location.advanceAll_start] at hjoins
  rw [tokenize, Cursor.ofString, String.toList_append]
  exact hjoins

end StraightLine
