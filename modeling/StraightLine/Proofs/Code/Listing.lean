import Std.Data.String.ToInt
import StraightLine.Code.Listing
import StraightLine.Proofs.Code.OneStore
import StraightLine.Proofs.Token.Names

/-! A line of text does what its instruction does in one store. The words of a line come back from
it because no word has a blank in it, and a name is never read as a number. -/
namespace StraightLine

theorem isAlphanum_of_isName {x : String} (h : isName x = true) :
    ∀ c ∈ x.toList, c.isAlphanum = true := by
  unfold isName at h
  cases hx : x.toList with
  | nil => simp
  | cons c cs =>
    rw [hx] at h
    simp only [Bool.and_eq_true, List.all_eq_true] at h
    intro d hd
    obtain hdc | hd := List.mem_cons.1 hd
    · simp [Char.isAlphanum, hdc, h.1]
    · exact h.2 d hd

/-- A number starts with a digit or a minus sign, a name with a letter. -/
theorem toInt?_of_isName {x : String} (h : isName x = true) : x.toInt? = none := by
  unfold isName at h
  cases hx : x.toList with
  | nil => simp [hx] at h
  | cons c cs =>
    rw [hx] at h
    simp only [Bool.and_eq_true] at h
    rw [String.toInt?_eq_none_iff, Bool.eq_false_iff, Ne, String.isInt_iff]
    intro hint
    obtain hnat | hminus := hint
    · have hc := (String.isNat_iff.1 hnat).2.1 c (by simp [hx])
      obtain hdigit | hbar := hc
      · simp [isDigit_eq_false_of_isAlpha h.1] at hdigit
      · rw [hbar] at h
        cases h.1
    · obtain ⟨y, hy, -⟩ := hminus
      rw [hy, String.toList_append] at hx
      have hc : '-' = c := by simpa using congrArg List.head? hx
      rw [← hc] at h
      cases h.1

theorem isName_temp (n : Nat) : isName (Temp.text n) = true := by
  have hdigits : ∀ c ∈ Nat.toDigits 10 n, c.isAlphanum = true := by
    intro c hc
    have hdigit := Nat.isDigit_of_mem_toDigits (b := 10) (by decide) (by decide) hc
    simp [Char.isAlphanum, hdigit]
  have htext : (Temp.text n).toList = 't' :: Nat.toDigits 10 n := by
    simp [Temp.text]
  rw [isName, htext]
  simpa using hdigits

theorem Operator.ofText?_text (op : Operator) : Operator.ofText? op.text = some op := by
  cases op <;> rfl

def Instruction.words : Instruction → List String
  | .copy dest source => [dest, "=", source.text]
  | .binary temp left op right => [Temp.text temp, "=", left.text, op.text, right.text]

theorem Instruction.text_eq (i : Instruction) : i.text = " ".intercalate i.words := by
  rw [← String.toList_inj]
  cases i with
  | copy dest source => simp [text, words, String.intercalate_cons_cons]
  | binary temp left op right => simp [text, words, String.intercalate_cons_cons]

namespace Listing

theorem words_intercalate {ws : List String} (h : ∀ w ∈ ws, ' ' ∉ w.toList) (hne : ws ≠ []) :
    words (" ".intercalate ws) = ws := by
  have hsplit : List.splitOn ' ' ([' '].intercalate (ws.map String.toList)) =
      ws.map String.toList := by
    apply List.splitOn_intercalate
    · intro l hl
      obtain ⟨w, hw, rfl⟩ := List.mem_map.1 hl
      exact h w hw
    · simpa using hne
  rw [words, String.toList_intercalate]
  change ((List.splitOn ' ' ([' '].intercalate (ws.map String.toList))).map String.ofList) = ws
  rw [hsplit]
  simp

theorem space_not_mem_of_isName {x : String} (h : isName x = true) : ' ' ∉ x.toList := by
  intro hmem
  cases isAlphanum_of_isName h ' ' hmem

theorem space_not_mem_literal (n : Int) : ' ' ∉ n.repr.toList := by
  have hdigits (m : Nat) : ' ' ∉ Nat.toDigits 10 m := by
    intro hmem
    cases Nat.isDigit_of_mem_toDigits (b := 10) (by decide) (by decide) hmem
  rw [Int.repr_eq_if]
  split
  · simpa using hdigits _
  · simpa using hdigits _

theorem space_not_mem_operand {x : Operand} (h : ∀ y ∈ x.vars, isName y = true) :
    ' ' ∉ x.text.toList := by
  cases x with
  | literal n => exact space_not_mem_literal n.toInt
  | var y => exact space_not_mem_of_isName (h y (List.mem_singleton_self y))
  | temp n => exact space_not_mem_of_isName (isName_temp n)

theorem words_text {i : Instruction} (h : ∀ x ∈ i.vars, isName x = true) :
    words i.text = i.words := by
  rw [Instruction.text_eq]
  cases i with
  | copy dest source =>
    simp only [Instruction.vars, List.forall_mem_cons] at h
    refine words_intercalate ?_ (by simp [Instruction.words])
    simp only [Instruction.words, List.forall_mem_cons]
    exact ⟨space_not_mem_of_isName h.1, by decide, space_not_mem_operand h.2, by simp⟩
  | binary temp left op right =>
    simp only [Instruction.vars, List.forall_mem_append] at h
    refine words_intercalate ?_ (by simp [Instruction.words])
    simp only [Instruction.words, List.forall_mem_cons]
    refine ⟨space_not_mem_of_isName (isName_temp temp), by decide, space_not_mem_operand h.1, ?_,
      space_not_mem_operand h.2, by simp⟩
    cases op <;> decide

/-- A word that is an operand's text has the operand's value. -/
theorem value_text {x : Operand} (h : ∀ y ∈ x.vars, isName y = true) (σ : Store) :
    value σ x.text = x.valueIn σ := by
  cases x with
  | literal n => simp [value, Operand.text, Operand.valueIn, Int.toInt?_repr]
  | var y =>
    have hy := toInt?_of_isName (h y (List.mem_singleton_self y))
    simp [value, Operand.text, Operand.valueIn, hy]
  | temp n =>
    have hn := toInt?_of_isName (isName_temp n)
    simp [value, Operand.text, Operand.valueIn, hn]

theorem step_text (arith : Arithmetic) (σ : Store) {i : Instruction}
    (h : ∀ x ∈ i.vars, isName x = true) :
    step arith σ i.text = (OneStore.step arith σ i).mapError .failed := by
  have hwords := words_text h
  cases i with
  | copy dest source =>
    simp only [Instruction.vars, List.forall_mem_cons] at h
    simp only [Instruction.words] at hwords
    simp only [step, hwords, value_text h.2]
    rfl
  | binary temp left op right =>
    simp only [Instruction.vars, List.forall_mem_append] at h
    simp only [Instruction.words] at hwords
    simp only [step, hwords, Operator.ofText?_text, value_text h.1, value_text h.2, OneStore.step]
    cases arith.apply op (left.valueIn σ) (right.valueIn σ) <;> rfl

/-- A listing does as text what its code does in one store. -/
theorem runAll_map_text (arith : Arithmetic) (σ : Store) {code : List Instruction}
    (h : ∀ i ∈ code, ∀ x ∈ i.vars, isName x = true) :
    runAll (step arith) σ (code.map Instruction.text) =
      (runAll (OneStore.step arith) σ code).mapError fun e => (.failed e.1, e.2) := by
  induction code generalizing σ with
  | nil => rfl
  | cons i code ih =>
    rw [List.forall_mem_cons] at h
    simp only [List.map_cons, runAll, step_text arith σ h.1]
    cases OneStore.step arith σ i with
    | ok τ => exact ih τ h.2
    | error fault => rfl

end Listing

end StraightLine
