import Mathlib.Data.List.SplitBy
import StraightLine.Text.Blank

/-! Texts cut into segments: a longest run of letters and digits is one, and every other character
is one of its own. -/
namespace StraightLine.Text

/-- The longest runs of letters and digits, and the other characters one by one. -/
def segments (text : List Char) : List (List Char) :=
  text.splitBy fun a b => a.isAlphanum && b.isAlphanum

/-- A run of letters and digits that goes on neither to the left nor to the right. -/
structure IsRun (before run after : List Char) : Prop where
  ne_nil : run ≠ []
  isAlphanum : ∀ c ∈ run, c.isAlphanum = true
  left : ∀ c ∈ before.getLast?, c.isAlphanum = false
  right : ∀ c ∈ after.head?, c.isAlphanum = false

inductive IsSegment (before : List Char) : List Char → List Char → Prop
  | other {c : Char} (after : List Char) : c.isAlphanum = false → IsSegment before [c] after
  | run {run after : List Char} : IsRun before run after → IsSegment before run after

theorem takeWhile_append_of_head? {p : Char → Bool} {u v : List Char} (hu : ∀ c ∈ u, p c = true)
    (hv : ∀ c ∈ v.head?, p c = false) : (u ++ v).takeWhile p = u := by
  rw [List.takeWhile_append_of_pos hu]
  cases v with
  | nil => simp
  | cons c v => simp [hv c rfl]

theorem dropWhile_append_of_head? {p : Char → Bool} {u v : List Char} (hu : ∀ c ∈ u, p c = true)
    (hv : ∀ c ∈ v.head?, p c = false) : (u ++ v).dropWhile p = v := by
  rw [List.dropWhile_append_of_pos hu]
  cases v with
  | nil => rfl
  | cons c v => simp [hv c rfl]

theorem eq_false_of_mem_head?_dropWhile {p : Char → Bool} {text : List Char} {c : Char}
    (h : c ∈ (text.dropWhile p).head?) : p c = false := by
  have hnot := List.head?_dropWhile_not p text
  rw [Option.mem_def.1 h] at hnot
  simpa using hnot

@[simp] theorem segments_nil : segments [] = [] := rfl

theorem flatten_segments (text : List Char) : (segments text).flatten = text :=
  List.flatten_splitBy _ text

theorem segments_append {u v : List Char}
    (h : ∀ a ∈ u.getLast?, ∀ b ∈ v.head?, (a.isAlphanum && b.isAlphanum) = false) :
    segments (u ++ v) = segments u ++ segments v := List.splitBy_append h

theorem IsRun.segments_eq {before run after : List Char} (h : IsRun before run after) :
    segments (before ++ run ++ after) = segments before ++ run :: segments after := by
  have hrun : segments run = [run] := by
    refine List.splitBy_of_isChain h.ne_nil (List.Pairwise.isChain ?_)
    refine List.pairwise_of_forall_mem_list ?_
    intro a ha b hb
    simp [h.isAlphanum a ha, h.isAlphanum b hb]
  rw [List.append_assoc, segments_append, segments_append, hrun]
  · rfl
  · intro a _ b hb
    simp [h.right b hb]
  · intro a ha b _
    simp [h.left a ha]

theorem IsSegment.segments_eq {before segment after : List Char}
    (h : IsSegment before segment after) :
    segments (before ++ segment ++ after) = segments before ++ segment :: segments after := by
  cases h with
  | run h => exact h.segments_eq
  | @other c _ hc =>
    rw [List.append_assoc, segments_append, segments_append]
    · rfl
    · simp [hc]
    · simp [hc]

theorem IsSegment.mem_segments {before segment after : List Char}
    (h : IsSegment before segment after) : segment ∈ segments (before ++ segment ++ after) := by
  rw [h.segments_eq]
  exact List.mem_append_right _ List.mem_cons_self

theorem IsSegment.at_start {before segment after : List Char}
    (h : IsSegment before segment after) : IsSegment [] segment after := by
  cases h with
  | other _ hc => exact .other _ hc
  | run h => exact .run ⟨h.ne_nil, h.isAlphanum, by simp, h.right⟩

theorem IsSegment.eq_of_append_eq {before before' segment segment' after after' : List Char}
    (h : IsSegment before segment after) (h' : IsSegment before' segment' after')
    (heq : segment ++ after = segment' ++ after') : segment = segment' := by
  have hcut := h.at_start.segments_eq
  rw [List.nil_append, heq, ← List.nil_append segment', h'.at_start.segments_eq] at hcut
  exact (List.cons.inj hcut).1.symm

/-- What holds of the empty text and goes through segments holds of all texts. -/
theorem segment_induction {P : List Char → Prop} (nil : P [])
    (append : ∀ segment rest, IsSegment [] segment rest → P rest → P (segment ++ rest))
    (text : List Char) : P text := by
  match text with
  | [] => exact nil
  | c :: cs =>
    by_cases hc : c.isAlphanum = true
    · have hsplit := List.takeWhile_append_dropWhile (p := Char.isAlphanum) (l := cs)
      have hlen := (List.dropWhile_suffix (l := cs) Char.isAlphanum).length_le
      have hrun : IsRun [] (c :: cs.takeWhile Char.isAlphanum) (cs.dropWhile Char.isAlphanum) := by
        refine ⟨List.cons_ne_nil _ _, ?_, by simp, ?_⟩
        · exact List.forall_mem_cons.2 ⟨hc, List.all_eq_true.1 List.all_takeWhile⟩
        · exact fun d hd => eq_false_of_mem_head?_dropWhile hd
      have h := append _ _ (.run hrun) (segment_induction nil append _)
      rwa [List.cons_append, hsplit] at h
    · exact append [c] cs (.other cs (by simpa using hc)) (segment_induction nil append cs)
termination_by text.length
decreasing_by
  · simp only [List.length_cons]
    omega
  · simp

/-- The segments of a text stand in it as such. -/
theorem isSegment_of_segments_eq {text segment : List Char} {before after : List (List Char)}
    (h : segments text = before ++ segment :: after) :
    IsSegment before.flatten segment after.flatten := by
  induction text using segment_induction generalizing before with
  | nil => simp at h
  | append first rest hfirst ih =>
    have hcut := hfirst.segments_eq
    rw [List.nil_append, segments_nil, List.nil_append, h] at hcut
    cases before with
    | nil =>
      obtain ⟨rfl, rfl⟩ := List.cons.inj hcut
      rwa [flatten_segments]
    | cons first' before =>
      rw [List.cons_append] at hcut
      obtain ⟨rfl, hrest⟩ := List.cons.inj hcut
      cases ih hrest.symm with
      | other _ hc => exact .other _ hc
      | run hrun =>
        refine .run ⟨hrun.ne_nil, hrun.isAlphanum, ?_, hrun.right⟩
        rw [List.flatten_cons]
        by_cases hbefore : before.flatten = []
        · -- The run comes right behind the first segment, so this one cannot be a run too.
          have hrest' := flatten_segments rest
          rw [← hrest, List.flatten_append, hbefore, List.nil_append, List.flatten_cons] at hrest'
          obtain ⟨c, run, rfl⟩ := List.exists_cons_of_ne_nil hrun.ne_nil
          cases hfirst with
          | other _ hc => simpa [hbefore] using hc
          | run hfirst =>
            have hc := hfirst.right c (by rw [← hrest']; rfl)
            cases (hrun.isAlphanum c List.mem_cons_self).symm.trans hc
        · rw [List.getLast?_append_of_ne_nil _ hbefore]
          exact hrun.left

end StraightLine.Text
