import Mathlib.Data.List.Chain
import StraightLine.Proofs.Token.Layout

/-! Which tokens have to be kept apart. Tokens are written one behind the other with blanks before,
between and after them, and any of these gaps may be empty. Reading gives the tokens back just if no
gap is empty between two that would run together: a word and a word or a number, or two numbers. Two
that run together are read as one, so that there are fewer tokens than were written. -/
namespace StraightLine

open Token (Kind)

namespace Token

structure Gap where
  text : String
  blank : ∀ c ∈ text.toList, Text.isBlank c = true

/-- A token as it is written, and the gap before it. -/
structure Written where
  gap : Gap
  kind : Kind
  writable : kind.isWritable = true
  ne_eof : kind ≠ .eof

namespace Kind

def isWord : Kind → Bool
  | .identifier _ | .var => true
  | _ => false

def isNumber : Kind → Bool
  | .integer _ => true
  | _ => false

/-- With nothing between them, the second would be read as part of the first. -/
def joins (left right : Kind) : Bool :=
  left.isWord && (right.isWord || right.isNumber) || left.isNumber && right.isNumber

/-- What belongs to the second of two that run together belongs to the first. -/
theorem prolongedBy_of_joins {left right : Kind} {c : Char} (h : left.joins right = true)
    (hc : right.prolongedBy c = true) : left.prolongedBy c = true := by
  have hdigit : ∀ c : Char, c.isDigit = true → c.isAlphanum = true := by
    intro c hc
    rw [Char.isAlphanum, hc, Bool.or_true]
  cases left <;> cases right
  all_goals first | exact hc | exact hdigit c hc | cases h

end Kind

theorem isAlphanum_eq_prolongs (c : Char) : c.isAlphanum = prolongs c '0' := by
  obtain hc | hc | hc := digit_or_letter_or_other c
  · rw [(piece_digit hc).1, Char.isAlphanum, hc, Bool.or_true]
    rfl
  · rw [(piece_letter hc).1, Char.isAlphanum, hc, Bool.true_or]
    rfl
  · rw [(piece_other hc).1, hc]

theorem isDigit_eq_prolongs (c : Char) : c.isDigit = (prolongs c '0' && !prolongs c 'a') := by
  obtain hc | hc | hc := digit_or_letter_or_other c
  · rw [(piece_digit hc).1, hc]
    rfl
  · rw [(piece_letter hc).1, isDigit_eq_false_of_isAlpha hc]
    rfl
  · rw [Char.isAlphanum, Bool.or_eq_false_iff] at hc
    rw [(piece_other (by rw [Char.isAlphanum, hc.1, hc.2]; rfl)).1, hc.2]
    rfl

/-- Whether two tokens run together shows in the first character of the second. -/
theorem IsPiece.prolongedBy_eq {k : Kind} {c : Char} {cs : List Char} (h : IsPiece k c cs)
    (left : Kind) : left.prolongedBy c = left.joins k := by
  have hdigit : c.isDigit = k.isNumber := by
    rw [isDigit_eq_prolongs, h.prolongs]
    cases k <;> rfl
  have halphanum : c.isAlphanum = (k.isWord || k.isNumber) := by
    rw [isAlphanum_eq_prolongs, h.prolongs]
    cases k <;> rfl
  cases left with
  | integer n => exact hdigit
  | identifier x => exact halphanum.trans (Bool.or_false _).symm
  | var => exact halphanum.trans (Bool.or_false _).symm
  | _ => rfl

theorem Kind.prolongedBy_of_isBlank {c : Char} (hc : Text.isBlank c = true) (k : Kind) :
    k.prolongedBy c = false := by
  have halphanum : c.isAlphanum = false := by
    by_contra h
    rw [isBlank_of_isAlphanum (by simpa using h)] at hc
    cases hc
  have hdigit : c.isDigit = false := by
    rw [Char.isAlphanum, Bool.or_eq_false_iff] at halphanum
    exact halphanum.2
  cases k with
  | integer n => exact hdigit
  | identifier x => exact halphanum
  | var => exact halphanum
  | _ => rfl

namespace Written

def text (last : Gap) : List Written → String
  | [] => last.text
  | w :: ws => w.gap.text ++ w.kind.lexeme ++ text last ws

def Parted (ws : List Written) : Prop :=
  ws.IsChain fun u v => u.kind.joins v.kind = true → v.gap.text ≠ ""

variable (last : Gap)

theorem exists_piece (w : Written) : ∃ c cs, IsPiece w.kind c cs :=
  exists_isPiece w.writable w.ne_eof

theorem toList_text_cons (w : Written) (ws : List Written) :
    (text last (w :: ws)).toList =
      w.gap.text.toList ++ w.kind.lexeme.toList ++ (text last ws).toList := by
  rw [text, String.toList_append, String.toList_append]

theorem head_text_iff (k : Kind) (ws : List Written) :
    (∀ c ∈ (text last ws).toList.head?, k.prolongedBy c = false) ↔
      ∀ w ∈ ws.head?, k.joins w.kind = true → w.gap.text ≠ "" := by
  cases ws with
  | nil =>
    have hstop : ∀ c ∈ (text last []).toList.head?, k.prolongedBy c = false := by
      intro c hc
      exact k.prolongedBy_of_isBlank (last.blank c (List.mem_of_mem_head? hc))
    exact iff_of_true hstop (by simp)
  | cons w ws =>
    obtain ⟨c, cs, hpiece⟩ := w.exists_piece
    rw [toList_text_cons, hpiece.lexeme, List.head?_cons]
    cases hgap : w.gap.text.toList with
    | nil =>
      have hempty : w.gap.text = "" := String.toList_eq_nil_iff.1 hgap
      simp [hempty, hpiece.prolongedBy_eq]
    | cons d ds =>
      have hd : Text.isBlank d = true := w.gap.blank d (by rw [hgap]; exact List.mem_cons_self)
      have hne : w.gap.text ≠ "" := by
        intro hempty
        rw [hempty] at hgap
        cases hgap
      simp [hne, k.prolongedBy_of_isBlank hd]

theorem parted_cons_iff (w : Written) (ws : List Written) :
    Parted (w :: ws) ↔
      (∀ c ∈ (text last ws).toList.head?, w.kind.prolongedBy c = false) ∧ Parted ws := by
  rw [Parted, List.isChain_cons, head_text_iff]
  rfl

theorem spells_text {ws : List Written} (h : Parted ws) :
    Spells (text last ws).toList (ws.map Written.kind) := by
  induction ws with
  | nil => exact .nil last.blank
  | cons w ws ih =>
    rw [parted_cons_iff last] at h
    rw [toList_text_cons]
    exact .cons w.gap.blank w.writable w.ne_eof h.1 (ih h.2)

/-- Only whole tokens run into the one before them. -/
theorem exists_dropWhile_text (k : Kind) (ws : List Written) :
    ∃ u v, ws = u ++ v ∧ (text last ws).toList.dropWhile k.prolongedBy = (text last v).toList ∧
      (u = [] → ∀ c ∈ (text last ws).toList.head?, k.prolongedBy c = false) := by
  by_cases hstop : ∀ c ∈ (text last ws).toList.head?, k.prolongedBy c = false
  · exact ⟨[], ws, rfl, Text.dropWhile_append_of_head? (u := []) (by simp) hstop, fun _ => hstop⟩
  · have hjoins := hstop
    rw [head_text_iff] at hjoins
    cases ws with
    | nil => simp at hjoins
    | cons w ws =>
      obtain ⟨hjoin, hempty⟩ : k.joins w.kind = true ∧ w.gap.text = "" := by simpa using hjoins
      obtain ⟨c, cs, hpiece⟩ := w.exists_piece
      have hwhole : ∀ d ∈ w.kind.lexeme.toList, k.prolongedBy d = true := by
        rw [hpiece.lexeme, List.forall_mem_cons]
        refine ⟨(hpiece.prolongedBy_eq k).trans hjoin, ?_⟩
        intro d hd
        exact Kind.prolongedBy_of_joins hjoin (hpiece.whole d hd)
      obtain ⟨u, v, rfl, hdrop, -⟩ := exists_dropWhile_text k ws
      refine ⟨w :: u, v, rfl, ?_, by simp⟩
      rw [toList_text_cons, hempty, String.toList_empty, List.nil_append,
        List.dropWhile_append_of_pos hwhole, hdrop]

/-- The first token that is read takes all with it that run into it. -/
theorem tokens_text_cons {w : Written} {ws : List Written} {l : Location} {ts : List Token}
    (h : (Cursor.tokens ⟨(text last (w :: ws)).toList, l⟩).1 = .ok ts) :
    ∃ u v t ts' l', ws = u ++ v ∧ ts = t :: ts' ∧
      (Cursor.tokens ⟨(text last v).toList, l'⟩).1 = .ok ts' ∧
      (u = [] → ∀ c ∈ (text last ws).toList.head?, w.kind.prolongedBy c = false) := by
  obtain ⟨c, cs, hpiece⟩ := w.exists_piece
  obtain ⟨u, v, hws, hdrop, hstop⟩ := exists_dropWhile_text last w.kind ws
  have hskip : (Cursor.skipBlanks ⟨(text last (w :: ws)).toList, l⟩).rest =
      c :: (cs ++ (text last ws).toList) := by
    rw [Cursor.skipBlanks, toList_text_cons, hpiece.lexeme, List.append_assoc,
      List.dropWhile_append_of_pos w.gap.blank]
    simp [hpiece.visible]
  have hnext := Cursor.next_of_skipBlanks_cons hskip
  rw [hpiece.prolongs, List.dropWhile_append_of_pos hpiece.whole, hdrop] at hnext
  cases hread : (Cursor.next ⟨(text last (w :: ws)).toList, l⟩).1 with
  | error e =>
    rw [Cursor.tokens, Cursor.tokensAfter_of_error hread] at h
    cases h
  | ok t =>
    have heof : t.isEof = false := by
      rw [hnext] at hread
      exact (ofPiece_eq_ok hread).2
    rw [Cursor.tokens_of_token hread heof, hnext] at h
    cases hts' : (Cursor.tokens ⟨(text last v).toList, _⟩).1 with
    | error e =>
      rw [hts'] at h
      cases h
    | ok ts' =>
      rw [hts'] at h
      cases h
      exact ⟨u, v, t, ts', _, hws, rfl, hts', hstop⟩

theorem length_tokens_text {ws : List Written} {l : Location} {ts : List Token}
    (h : (Cursor.tokens ⟨(text last ws).toList, l⟩).1 = .ok ts) :
    ts.length ≤ ws.length + 1 ∧ (ts.length = ws.length + 1 → Parted ws) := by
  induction hn : ws.length using Nat.strong_induction_on generalizing ws l ts with
  | _ n ih =>
    cases ws with
    | nil =>
      obtain ⟨ts', hts', hkinds⟩ := Cursor.tokens_of_spells (spells_text last .nil) l
      cases h.symm.trans hts'
      have hlength := congrArg List.length hkinds
      rw [List.length_map] at hlength
      exact ⟨by simp [hlength], fun _ => .nil⟩
    | cons w ws =>
      obtain ⟨u, v, t, ts', l', rfl, rfl, hts', hstop⟩ := tokens_text_cons last h
      rw [List.length_cons, List.length_append] at hn
      obtain ⟨hle, hparted⟩ := ih v.length (by omega) hts' rfl
      rw [List.length_cons]
      refine ⟨by omega, ?_⟩
      intro hlength
      -- As many tokens as were written: nothing ran into the first one.
      obtain rfl : u = [] := List.eq_nil_of_length_eq_zero (by omega)
      exact (parted_cons_iff last w v).2 ⟨hstop rfl, hparted (by omega)⟩

end Written

end Token

/-- Tokens that are written down are read back, with one end behind them, just if none of them runs
into another. -/
theorem tokenize_written (ws : List Token.Written) (last : Token.Gap) :
    (∃ ts, tokenize (Token.Written.text last ws) = .ok ts ∧
      ts.map Token.kind = ws.map Token.Written.kind ++ [.eof]) ↔
    ws.IsChain fun u v => u.kind.joins v.kind = true → v.gap.text ≠ "" := by
  constructor
  · intro h
    obtain ⟨ts, hts, hkinds⟩ := h
    have hlength := congrArg List.length hkinds
    simp only [List.length_map, List.length_append, List.length_singleton] at hlength
    exact (Token.Written.length_tokens_text last hts).2 hlength
  · intro hparted
    exact Cursor.tokens_of_spells (Token.Written.spells_text last hparted) .start

end StraightLine
