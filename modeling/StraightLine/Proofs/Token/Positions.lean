import StraightLine.Proofs.Location.Order
import StraightLine.Proofs.Token.Names

/-! Where tokens stand: each at the place behind the text before it, so no two at one place, and the
end behind all others. -/
namespace StraightLine

namespace Cursor

/-- Reading skips blanks and takes a piece, which is empty only where the text ends. -/
theorem next_position {k : Cursor} {t : Token} (h : k.next.1 = .ok t) :
    ∃ blanks piece, k.rest = blanks ++ piece ++ k.next.2.rest ∧
      t.location = k.location.advanceAll blanks ∧
      k.next.2.location = k.location.advanceAll (blanks ++ piece) ∧
      if t.isEof then piece = [] ∧ k.next.2.rest = [] else piece ≠ [] := by
  have hsplit := List.takeWhile_append_dropWhile (p := Text.isBlank) (l := k.rest)
  have hrest : k.skipBlanks.rest = k.rest.dropWhile Text.isBlank := rfl
  have hlocation : k.skipBlanks.location =
      k.location.advanceAll (k.rest.takeWhile Text.isBlank) := rfl
  refine ⟨k.rest.takeWhile Text.isBlank, ?_⟩
  cases hs : k.skipBlanks.rest with
  | nil =>
    rw [next_of_skipBlanks_nil hs] at h ⊢
    cases h
    refine ⟨[], ?_, rfl, by rw [List.append_nil, hlocation], rfl, hs⟩
    rw [hs, List.append_nil, ← hs, hrest, hsplit]
  | cons c cs =>
    have hpiece := List.takeWhile_append_dropWhile (p := Token.prolongs c) (l := cs)
    rw [next_of_skipBlanks_cons hs] at h ⊢
    obtain ⟨hl, ht⟩ := Token.ofPiece_eq_ok h
    refine ⟨c :: cs.takeWhile (Token.prolongs c), ?_, hl.trans hlocation, ?_, ?_⟩
    · rw [List.append_assoc, List.cons_append, hpiece, ← hs, hrest, hsplit]
    · rw [hlocation, Location.advanceAll_append]
    · rw [ht]
      exact List.cons_ne_nil _ _

/-- Tokens of `rest`, which stands behind `read`: each stands where its text starts, one behind the
other, and an end stands behind all of the text. -/
structure Positioned (read rest : List Char) (ts : List Token) : Prop where
  increasing : ts.Pairwise fun t t' => t.location < t'.location
  position : ∀ t ∈ ts, ∃ before after, rest = before ++ after ∧
    t.location = .behind (read ++ before) ∧ (t.isEof = true → after = [])

theorem positioned_eof {k : Cursor} {t : Token} {read : List Char} (hk : k.next.1 = .ok t)
    (ht : t.isEof = true) (hread : k.location = .behind read) : Positioned read k.rest [t] := by
  obtain ⟨blanks, piece, hrest, hl, -, hend⟩ := next_position hk
  rw [if_pos ht] at hend
  refine ⟨List.pairwise_singleton _ _, ?_⟩
  intro t' ht'
  obtain rfl := List.mem_singleton.1 ht'
  refine ⟨blanks, [], by simpa [hend] using hrest, ?_, fun _ => rfl⟩
  rw [hl, hread, Location.advanceAll_behind]

theorem positioned_cons {k : Cursor} {t : Token} {ts : List Token} {read : List Char}
    (hk : k.next.1 = .ok t) (ht : t.isEof = false) (hread : k.location = .behind read)
    (hts : ∀ read, k.next.2.location = .behind read → Positioned read k.next.2.rest ts) :
    Positioned read k.rest (t :: ts) := by
  obtain ⟨blanks, piece, hrest, hl, hnext, hpiece⟩ := next_position hk
  rw [ht, if_neg Bool.false_ne_true] at hpiece
  rw [hread, Location.advanceAll_behind] at hl hnext
  obtain ⟨hincreasing, hposition⟩ := hts _ hnext
  refine ⟨List.pairwise_cons.2 ⟨?_, hincreasing⟩, List.forall_mem_cons.2 ⟨?_, ?_⟩⟩
  · intro t' ht'
    obtain ⟨before, after, -, hl', -⟩ := hposition t' ht'
    rw [hl, hl', ← List.append_assoc read, List.append_assoc (read ++ blanks)]
    exact Location.behind_lt_behind _ (by simp [hpiece])
  · exact ⟨blanks, piece ++ k.next.2.rest, by simpa using hrest, hl, by simp [ht]⟩
  · intro t' ht'
    obtain ⟨before, after, hafter, hl', hend⟩ := hposition t' ht'
    refine ⟨blanks ++ piece ++ before, after, ?_, by simpa using hl', hend⟩
    rw [hrest, hafter, List.append_assoc _ before]

theorem positioned_tokens {k : Cursor} {ts : List Token} (h : k.tokens.1 = .ok ts) :
    ∀ read, k.location = .behind read → Positioned read k.rest ts := by
  refine tokens_ok_induction
    (P := fun k ts => ∀ read, k.location = .behind read → Positioned read k.rest ts) ?_ ?_ h
  · intro k t hk ht read hread
    exact positioned_eof hk ht hread
  · intro k t ts hk ht ih read hread
    exact positioned_cons hk ht hread ih

/-- The last token is the only end. -/
theorem tokens_eq_concat {k : Cursor} {ts : List Token} (h : k.tokens.1 = .ok ts) :
    ∃ w t, ts = w ++ [t] ∧ t.isEof = true ∧ ∀ t ∈ w, t.isEof = false := by
  refine tokens_ok_induction (P := fun _ ts => ∃ w t, ts = w ++ [t] ∧ t.isEof = true ∧
    ∀ t ∈ w, t.isEof = false) ?_ ?_ h
  · intro k t _ ht
    exact ⟨[], t, rfl, ht, by simp⟩
  · intro k t ts _ ht ih
    obtain ⟨w, t', rfl, ht', hw⟩ := ih
    exact ⟨t :: w, t', rfl, ht', List.forall_mem_cons.2 ⟨ht, hw⟩⟩

theorem exists_eof_of_tokens {k : Cursor} {ts : List Token} (h : k.tokens.1 = .ok ts) :
    ∃ t ∈ ts, t.isEof = true := by
  obtain ⟨w, t, rfl, ht, -⟩ := tokens_eq_concat h
  exact ⟨t, by simp, ht⟩

end Cursor

theorem tokenize_eq_concat {source : String} {ts : List Token} (h : tokenize source = .ok ts) :
    ∃ w t, ts = w ++ [t] ∧ t.isEof = true ∧ ∀ t ∈ w, t.isEof = false :=
  Cursor.tokens_eq_concat h

/-- The tokens of a text stand in it one behind the other. -/
theorem positioned_tokenize {source : String} {ts : List Token} (h : tokenize source = .ok ts) :
    Cursor.Positioned [] source.toList ts :=
  Cursor.positioned_tokens h [] rfl

end StraightLine
