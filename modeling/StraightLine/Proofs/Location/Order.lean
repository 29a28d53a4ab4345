import Mathlib.Data.List.Induction
import StraightLine.Location

/-! Places counted from the text before them, and their order. -/
namespace StraightLine.Location

/-- The place behind a text: one line more than it has line feeds, and one column more than it has
characters behind the last of them. -/
def behind (text : List Char) : Location :=
  ⟨1 + text.count '\n', 1 + (text.reverse.takeWhile (· ≠ '\n')).length⟩

theorem behind_concat (text : List Char) (c : Char) :
    behind (text ++ [c]) = (behind text).advance c := by
  by_cases hc : c = '\n'
  · simp [behind, advance, hc, Nat.add_assoc]
  · simp [behind, advance, hc, Nat.add_assoc]

theorem advanceAll_start (text : List Char) : start.advanceAll text = behind text := by
  induction text using List.reverseRecOn with
  | nil => rfl
  | append_singleton text c ih =>
    rw [advanceAll_append, ih, behind_concat]
    rfl

theorem advanceAll_behind (u v : List Char) : (behind u).advanceAll v = behind (u ++ v) := by
  rw [← advanceAll_start, ← advanceAll_start, advanceAll_append]

/-- Lines first, columns within a line. -/
instance : LT Location where
  lt a b := a.line < b.line ∨ a.line = b.line ∧ a.column < b.column

theorem lt_iff {a b : Location} :
    a < b ↔ a.line < b.line ∨ a.line = b.line ∧ a.column < b.column := Iff.rfl

instance : LE Location where
  le a b := a < b ∨ a = b

theorem lt_irrefl (a : Location) : ¬a < a := by
  rw [lt_iff]
  omega

theorem lt_trans {a b c : Location} (hab : a < b) (hbc : b < c) : a < c := by
  rw [lt_iff] at *
  omega

theorem lt_advance (l : Location) (c : Char) : l < l.advance c := by
  unfold advance
  rw [lt_iff]
  split
  next => exact .inl (Nat.lt_succ_self _)
  next => exact .inr ⟨rfl, Nat.lt_succ_self _⟩

theorem lt_advanceAll (l : Location) {cs : List Char} (h : cs ≠ []) : l < l.advanceAll cs := by
  induction cs generalizing l with
  | nil => exact absurd rfl h
  | cons c cs ih =>
    rw [advanceAll_cons]
    by_cases hcs : cs = []
    · rw [hcs]
      exact lt_advance l c
    · exact lt_trans (lt_advance l c) (ih (l.advance c) hcs)

theorem behind_lt_behind (u : List Char) {v : List Char} (hv : v ≠ []) :
    behind u < behind (u ++ v) := by
  rw [← advanceAll_behind]
  exact lt_advanceAll _ hv

theorem behind_le_behind (u v : List Char) : behind u ≤ behind (u ++ v) := by
  by_cases hv : v = []
  · exact .inr (by rw [hv, List.append_nil])
  · exact .inl (behind_lt_behind u hv)

end StraightLine.Location
