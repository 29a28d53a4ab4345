import StraightLine.Proofs.Location.Order
import StraightLine.Proofs.Token.Reading

/-! Texts that can be read, and the first fault of those that cannot. A fault is found at an offset
of the whole text, without reading what comes before it. -/
namespace StraightLine

open Token (Kind)
open Text (IsRun IsSegment segments)

namespace Text

/-- What is wrong with a text at an offset: a character that is not admissible, or a run that starts
with too large a number. -/
inductive Fault (text : List Char) : Nat → LexicalError → Prop
  | character {before after : List Char} {c : Char} : text = before ++ c :: after →
    ¬Admissible c → Fault text before.length (.unexpectedCharacter c (.behind before))
  | number {before run after : List Char} : text = before ++ run ++ after →
    IsRun before run after → maxValue < leadingValue run → Fault text before.length
      (.integerOutOfRange (String.ofList (run.takeWhile Char.isDigit)) (.behind before))

theorem IsSegment.fault {before segment after : List Char} {e : LexicalError}
    (h : IsSegment before segment after) (he : Flaw (.behind before) segment e) :
    Fault (before ++ segment ++ after) before.length e := by
  cases he with
  | character hc => exact .character (List.append_assoc _ _ _) hc
  | number _ hrun hvalue =>
    cases h with
    | other _ hc => simp [hc] at hrun
    | run h => exact .number rfl h hvalue

theorem Fault.exists_segment {text : List Char} {i : Nat} {e : LexicalError} (h : Fault text i e) :
    ∃ before segment after, text = before ++ segment ++ after ∧ IsSegment before segment after ∧
      Flaw (.behind before) segment e ∧ before.length = i := by
  cases h with
  | @character before after c htext hc =>
    have hother : c.isAlphanum = false := by
      by_contra h
      exact hc (.inr (.inl (by simpa using h)))
    exact ⟨before, [c], after, by simp [htext], .other _ hother, .character hc, rfl⟩
  | @number before run after htext hrun hvalue =>
    exact ⟨before, run, after, htext, .run hrun, .number hrun.ne_nil hrun.isAlphanum hvalue, rfl⟩

theorem Flaw.unique {l : Location} {segment : List Char} {e e' : LexicalError}
    (h : Flaw l segment e) (h' : Flaw l segment e') : e = e' := by
  cases h with
  | character hc =>
    cases h' with
    | character => rfl
    | number _ hrun => exact absurd (.inr (.inl (hrun _ (List.mem_singleton_self _)))) hc
  | number _ hrun =>
    cases h' with
    | character hc => exact absurd (.inr (.inl (hrun _ (List.mem_singleton_self _)))) hc
    | number => rfl

/-- An offset has one fault at most. -/
theorem Fault.unique {text : List Char} {i : Nat} {e e' : LexicalError} (h : Fault text i e)
    (h' : Fault text i e') : e = e' := by
  obtain ⟨before, segment, after, htext, hsegment, hflaw, hlength⟩ := h.exists_segment
  obtain ⟨before', segment', after', htext', hsegment', hflaw', hlength'⟩ := h'.exists_segment
  rw [htext, List.append_assoc, List.append_assoc] at htext'
  obtain ⟨rfl, hrest⟩ := List.append_inj htext' (hlength.trans hlength'.symm)
  obtain rfl := hsegment.eq_of_append_eq hsegment' hrest
  exact hflaw.unique hflaw'

theorem Fault.exists_not_sound {text : List Char} {i : Nat} {e : LexicalError}
    (h : Fault text i e) : ∃ segment ∈ segments text, ¬Sound segment := by
  obtain ⟨before, segment, after, rfl, hsegment, hflaw, -⟩ := h.exists_segment
  exact ⟨segment, hsegment.mem_segments, hflaw.not_sound⟩

/-- No fault comes before the end of segments that are sound. -/
theorem Fault.length_le {text : List Char} {i : Nat} {e : LexicalError}
    {before after : List (List Char)} (h : Fault text i e)
    (htext : segments text = before ++ after) (hbefore : ∀ segment ∈ before, Sound segment) :
    before.flatten.length ≤ i := by
  obtain ⟨u, segment, v, rfl, hsegment, hflaw, rfl⟩ := h.exists_segment
  rw [hsegment.segments_eq] at htext
  obtain ⟨w, hw, hflawed⟩ | ⟨w, hu, -⟩ := List.append_eq_append_iff.1 htext
  · -- The sound segments would reach beyond the flawed one, unless they end with it.
    cases w with
    | nil => rw [hw, List.append_nil, flatten_segments]
    | cons first w =>
      obtain ⟨rfl, -⟩ := List.cons.inj hflawed
      exact absurd (hbefore segment (by simp [hw])) hflaw.not_sound
  · have hflat := congrArg (fun l => l.flatten.length) hu
    simp only [flatten_segments, List.flatten_append, List.length_append] at hflat
    omega

theorem sound_iff (text : List Char) :
    (∀ segment ∈ segments text, Sound segment) ↔
      (∀ c ∈ text, Admissible c) ∧ ∀ before run after, text = before ++ run ++ after →
        IsRun before run after → leadingValue run ≤ maxValue := by
  constructor
  · intro h
    refine ⟨?_, ?_⟩
    · intro c hc
      rw [← flatten_segments text] at hc
      obtain ⟨segment, hsegment, hc⟩ := List.mem_flatten.1 hc
      exact (h segment hsegment).admissible c hc
    · rintro before run after rfl hrun
      exact (h run (IsSegment.run hrun).mem_segments).value
  · rintro ⟨hchars, hruns⟩ segment hsegment
    obtain ⟨before, after, hcut⟩ := List.append_of_mem hsegment
    have htext : text = before.flatten ++ segment ++ after.flatten := by
      rw [← flatten_segments text, hcut]
      simp
    refine ⟨?_, ?_⟩
    · intro c hc
      exact hchars c (by simp [htext, hc])
    · cases isSegment_of_segments_eq hcut with
      | other _ hc => simp [leadingValue, not_isDigit_of_not_isAlphanum hc, maxValue]
      | run hrun => exact hruns _ _ _ htext hrun

end Text

/-- Reading a text fails at the first of its faults. -/
theorem tokenize_eq_error_iff (source : String) (e : LexicalError) :
    tokenize source = .error e ↔ ∃ i, Text.Fault source.toList i e ∧
      ∀ j e', Text.Fault source.toList j e' → i ≤ j := by
  obtain ⟨hall, ts, hts, -⟩ | ⟨before, segment, after, e₀, hcut, hall, hflaw, he⟩ :=
    Cursor.tokens_cases source.toList .start
  · have hok : tokenize source = .ok ts := hts
    simp only [hok, reduceCtorEq, false_iff, not_exists, not_and]
    intro i hfault
    obtain ⟨segment, hsegment, hsound⟩ := hfault.exists_not_sound
    exact absurd (hall segment hsegment) hsound
  · have htext : source.toList = before.flatten ++ segment ++ after.flatten := by
      rw [← Text.flatten_segments source.toList, hcut]
      simp
    rw [Location.advanceAll_start] at hflaw
    have hfault := (Text.isSegment_of_segments_eq hcut).fault hflaw
    rw [← htext] at hfault
    have hleast : ∀ j e', Text.Fault source.toList j e' → before.flatten.length ≤ j :=
      fun j e' h => h.length_le hcut hall
    have herror : tokenize source = .error e₀ := he
    rw [herror, Except.error.injEq]
    constructor
    · rintro rfl
      exact ⟨_, hfault, hleast⟩
    · rintro ⟨i, hi, hmin⟩
      obtain rfl := Nat.le_antisymm (hmin _ _ hfault) (hleast _ _ hi)
      exact hfault.unique hi

/-- A text is read just if its characters are admissible and the number at the front of each of its
runs is not too large; its tokens are then those of its segments, with one end behind them, and
otherwise its first fault is the error. -/
theorem tokenize_segments (source : String) :
    ((∃ ts, tokenize source = .ok ts) ↔
      (∀ c ∈ source.toList, Text.Admissible c) ∧
      ∀ before run after, source.toList = before ++ run ++ after → IsRun before run after →
        Text.leadingValue run ≤ Text.maxValue) ∧
    (∀ ts, tokenize source = .ok ts →
      ts.map Token.kind = (segments source.toList).flatMap Kind.ofSegment ++ [.eof] ∧
      .eof ∉ (segments source.toList).flatMap Kind.ofSegment) ∧
    (∀ e, tokenize source = .error e ↔ ∃ i, Text.Fault source.toList i e ∧
      ∀ j e', Text.Fault source.toList j e' → i ≤ j) := by
  refine ⟨?_, ?_, tokenize_eq_error_iff source⟩
  · rw [← Text.sound_iff]
    obtain ⟨hall, ts, hts, -⟩ | ⟨before, segment, after, e, hcut, -, hflaw, he⟩ :=
      Cursor.tokens_cases source.toList .start
    · exact ⟨fun _ => hall, fun _ => ⟨ts, hts⟩⟩
    · have herror : tokenize source = .error e := he
      simp only [herror, reduceCtorEq, exists_false, false_iff]
      intro hall
      exact hflaw.not_sound (hall segment (by simp [hcut]))
  · intro ts hts
    have heof : Kind.eof ∉ (segments source.toList).flatMap Kind.ofSegment := by
      intro h
      obtain ⟨segment, -, hmem⟩ := List.mem_flatMap.1 h
      exact Kind.ofSegment_ne_eof hmem rfl
    refine ⟨?_, heof⟩
    obtain ⟨-, ts', hts', hkinds⟩ | ⟨_, _, _, e, -, -, -, he⟩ :=
      Cursor.tokens_cases source.toList .start
    · cases hts.symm.trans hts'
      exact hkinds
    · cases hts.symm.trans he

end StraightLine
