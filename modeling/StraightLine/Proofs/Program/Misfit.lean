import StraightLine.Proofs.Program.Acceptance
import StraightLine.Proofs.Program.Viable

/-! Where reading fails. The reader stops at the first token that no sentence goes on with, and its
error says which kind of token would have been one to go on with. -/
namespace StraightLine

open Token (Kind)
open Grammar (Viable AwaitsFactor)

/-- The token a stream is at; behind the last one there is an end. -/
def TokenStream.current (s : TokenStream) : Token := s.ahead.headD ⟨.eof, s.stop⟩

/-- The kind of token that an error complains of, if it names one. -/
def GrammarError.found? : GrammarError → Option Kind
  | .unexpectedToken _ found _ => some found
  | .invalidFactor found _ => some found
  | .nestingTooDeep _ _ => none

/-- An error `e` that comes of the token `t` right behind the tokens `u`: these begin a sentence and
`t` does not go on with one, though it may with one of deeper nesting. The variant of the error is
the first that fits of nesting, factor and class of token. -/
structure Misfit (u : List Token) (t : Token) (e : GrammarError) : Prop where
  location : e.location = t.location
  found : ∀ k, e.found? = some k → k = t.kind
  begun : Viable maxNesting u
  stuck : if t.isEof then ¬∃ p, Grammar.Program maxNesting u p else ¬Viable maxNesting (u ++ [t])
  nesting : e = .nestingTooDeep maxNesting t.location ↔
    t.kind = .lparen ∧ ∃ d, Viable d (u ++ [t])
  factor : e ≠ .nestingTooDeep maxNesting t.location → ∀ (n : Int64) (l : Location),
    (e = .invalidFactor t.kind t.location ↔ Viable maxNesting (u ++ [⟨.integer n, l⟩]))
  expected : e ≠ .nestingTooDeep maxNesting t.location → e ≠ .invalidFactor t.kind t.location →
    ∃ c : Token.Class, e = .unexpectedToken c.name t.kind t.location ∧
      ∀ t' : Token, t'.kind.toClass = c → Viable maxNesting (u ++ [t'])

namespace Phase

theorem location_refusal (phase : Phase) (t : Token) :
    (phase.refusal t).location = t.location := by
  unfold refusal
  split
  case h_4 => split <;> rfl
  all_goals rfl

theorem found?_refusal {phase : Phase} {t : Token} {k : Kind}
    (h : (phase.refusal t).found? = some k) : k = t.kind := by
  unfold refusal at h
  split at h
  case h_4 => split at h <;> cases h; rfl
  all_goals cases h; rfl

/-- A factor is due. -/
def AtFactor (phase : Phase) : Prop :=
  ∃ target level outer, phase = .factor target level outer

/-- One class of tokens would fit, and the refusal of any other token names it. -/
structure Expects (phase : Phase) (c : Token.Class) : Prop where
  refusal : ∀ t, phase.refusal t = .unexpectedToken c.name t.kind t.location
  step : ∀ (done : List Statement) (t : Token), t.kind.toClass = c →
    ∃ r, Reader.step ⟨done, phase⟩ t = .ok r

theorem AtFactor.refusal {phase : Phase} (h : phase.AtFactor) (t : Token) :
    phase.refusal t = if t.kind = .lparen then .nestingTooDeep maxNesting t.location
      else .invalidFactor t.kind t.location := by
  obtain ⟨target, level, outer, rfl⟩ := h
  rfl

theorem Expects.not_atFactor {phase : Phase} {c : Token.Class} (h : phase.Expects c) :
    ¬phase.AtFactor := by
  intro hfactor
  have hsame := (h.refusal ⟨.eof, .start⟩).symm.trans (hfactor.refusal ⟨.eof, .start⟩)
  cases hsame

theorem atFactor_or_expects (phase : Phase) : phase.AtFactor ∨ ∃ c, phase.Expects c := by
  cases phase with
  | start =>
    refine .inr ⟨.identifier, fun _ => rfl, ?_⟩
    rintro done ⟨kind, l⟩ h
    cases kind <;> cases h
    exact ⟨_, rfl⟩
  | declaring =>
    refine .inr ⟨.identifier, fun _ => rfl, ?_⟩
    rintro done ⟨kind, l⟩ h
    cases kind <;> cases h
    exact ⟨_, rfl⟩
  | named target =>
    refine .inr ⟨.assign, fun _ => rfl, ?_⟩
    rintro done ⟨kind, l⟩ h
    cases kind <;> cases h
    exact ⟨_, rfl⟩
  | factor target level outer => exact .inl ⟨target, level, outer, rfl⟩
  | operator target sum product outer =>
    cases outer with
    | nil =>
      refine .inr ⟨.semicolon, fun _ => rfl, ?_⟩
      rintro done ⟨kind, l⟩ h
      cases kind <;> cases h
      exact ⟨_, rfl⟩
    | cons level outer =>
      refine .inr ⟨.rparen, fun _ => rfl, ?_⟩
      rintro done ⟨kind, l⟩ h
      cases kind <;> cases h
      exact ⟨_, rfl⟩

end Phase

namespace Reader

theorem step_eq_error {r : Reader} {t : Token} {e : GrammarError} (h : r.step t = .error e) :
    e = r.phase.refusal t := by
  unfold step at h
  split at h
  case h_7 =>
    split at h
    next => cases h
    next => cases h; rfl
  all_goals cases h
  rfl

/-- The token is no end and does not fit, or it is an end in the middle of a statement. -/
structure Refuses (r : Reader) (t : Token) (e : GrammarError) : Prop where
  error : e = r.phase.refusal t
  stuck : if t.isEof then r.phase ≠ .start else r.step t = .error e

theorem refuses_of_finish {r : Reader} {t : Token} {e : GrammarError} (ht : t.isEof = true)
    (h : r.finish t = .error e) : r.Refuses t e := by
  unfold finish at h
  split at h
  next => cases h
  next hphase => exact ⟨(Except.error.inj h).symm, by rwa [if_pos ht]⟩

/-- A run that fails has taken every token before the one it stops at, and passed no end. -/
theorem run_eq_error {stop : Location} {r : Reader} {ts ahead : List Token} {e : GrammarError}
    (h : r.run stop ts = (.error e, ahead)) :
    ∃ u r', ts = u ++ ahead ∧ (∀ t ∈ u, t.isEof = false) ∧ r.steps u = .ok r' ∧
      r'.Refuses (TokenStream.current ⟨ahead, stop⟩) e := by
  induction ts generalizing r with
  | nil =>
    obtain ⟨hr, rfl⟩ := Prod.mk.inj h
    exact ⟨[], r, rfl, by simp, rfl, refuses_of_finish rfl hr⟩
  | cons t ts ih =>
    rw [run] at h
    cases ht : t.isEof with
    | true =>
      rw [if_pos ht] at h
      obtain ⟨hr, rfl⟩ := Prod.mk.inj h
      exact ⟨[], r, rfl, by simp, rfl, refuses_of_finish ht hr⟩
    | false =>
      rw [ht, if_neg Bool.false_ne_true] at h
      cases hstep : r.step t with
      | error e' =>
        rw [hstep] at h
        obtain ⟨he, rfl⟩ := Prod.mk.inj h
        cases he
        refine ⟨[], r, rfl, by simp, rfl, step_eq_error hstep, ?_⟩
        simpa [TokenStream.current, ht] using hstep
      | ok r₁ =>
        rw [hstep] at h
        obtain ⟨u, r', rfl, hu, hsteps, hrefuses⟩ := ih h
        exact ⟨t :: u, r', rfl, List.forall_mem_cons.2 ⟨ht, hu⟩,
          by rw [steps_cons_of_ok hstep, hsteps], hrefuses⟩

theorem steps_concat_eq_ok {r r' : Reader} {u : List Token} {t : Token}
    (h : r.steps (u ++ [t]) = .ok r') : ∃ r₁, r.steps u = .ok r₁ ∧ r₁.step t = .ok r' := by
  rw [steps_append] at h
  cases hu : r.steps u with
  | error e => rw [hu] at h; cases h
  | ok r₁ =>
    rw [hu] at h
    change r₁.steps [t] = .ok r' at h
    cases ht : r₁.step t with
    | error e => simp [steps, ht] at h
    | ok r₂ =>
      rw [steps_cons_of_ok ht] at h
      exact ⟨r₁, rfl, ht.trans h⟩

/-- A reader takes every token that goes on with a sentence. -/
theorem exists_step_of_viable {u : List Token} {r : Reader} {t : Token}
    (hr : init.steps u = .ok r) (h : Viable maxNesting (u ++ [t])) : ∃ r', r.step t = .ok r' := by
  obtain ⟨v, p, hp⟩ := h
  have hsteps : init.steps (u ++ [t] ++ v) = _ := steps_program hp []
  rw [List.append_assoc, steps_append_of_ok hr, List.singleton_append, steps] at hsteps
  cases hstep : r.step t with
  | ok r' => exact ⟨r', rfl⟩
  | error e => simp [hstep] at hsteps

/-- And only such tokens. -/
theorem viable_of_step {u : List Token} {r r' : Reader} {t : Token}
    (hr : init.steps u = .ok r) (h : r.step t = .ok r') : Viable maxNesting (u ++ [t]) :=
  ((covers_init.steps hr).move (move_of_step h)).viable

theorem Move.atFactor {done : List Statement} {phase : Phase} {t : Token} {r : Reader}
    (h : Move done phase t r) (ht : AwaitsFactor t) : r.phase.AtFactor := by
  cases h with
  | equals target l => exact ⟨target, _, _, rfl⟩
  | opening target level outer l hlt => exact ⟨target, _, _, rfl⟩
  | operator target sum product outer op l =>
    unfold Phase.applied
    split
    next => exact ⟨target, _, _, rfl⟩
    next => exact ⟨target, _, _, rfl⟩
  | _ => simp [AwaitsFactor] at ht

/-- Where a parenthesis opens in some sentence, however deep, the reader is before a factor. -/
theorem atFactor_of_viable_lparen {d : Nat} {u : List Token} {l : Location} {r : Reader}
    (hr : init.steps u = .ok r) (h : Viable d (u ++ [⟨.lparen, l⟩])) : r.phase.AtFactor := by
  obtain ⟨v, t, rfl, ht⟩ := h.awaitsFactor
  obtain ⟨r₁, -, hstep⟩ := steps_concat_eq_ok hr
  exact (move_of_step hstep).atFactor ht

theorem viable_integer_iff {u : List Token} {r : Reader} (hr : init.steps u = .ok r) (n : Int64)
    (l : Location) : Viable maxNesting (u ++ [⟨.integer n, l⟩]) ↔ r.phase.AtFactor := by
  obtain ⟨done, phase⟩ := r
  constructor
  · intro h
    obtain ⟨r', hstep⟩ := exists_step_of_viable hr h
    cases move_of_step hstep with
    | number target level outer => exact ⟨target, level, outer, rfl⟩
  · intro h
    obtain ⟨target, level, outer, rfl⟩ := h
    exact viable_of_step hr rfl

theorem refusal_eq_nesting_iff {u : List Token} {r : Reader} (hr : init.steps u = .ok r)
    (t : Token) : r.phase.refusal t = .nestingTooDeep maxNesting t.location ↔
      t.kind = .lparen ∧ ∃ d, Viable d (u ++ [t]) := by
  have hfactor : t.kind = .lparen → (r.phase.AtFactor ↔ ∃ d, Viable d (u ++ [t])) := by
    obtain ⟨kind, l⟩ := t
    rintro rfl
    constructor
    · intro h
      have hcovers := covers_init.steps hr
      obtain ⟨done, phase⟩ := r
      obtain ⟨target, level, outer, rfl⟩ := h
      exact ⟨_, hcovers.viable_lparen l⟩
    · rintro ⟨d, h⟩
      exact atFactor_of_viable_lparen hr h
  obtain h | ⟨c, h⟩ := r.phase.atFactor_or_expects
  · rw [h.refusal]
    by_cases ht : t.kind = .lparen
    · simp [ht, (hfactor ht).1 h]
    · simp [ht]
  · rw [h.refusal]
    simp only [reduceCtorEq, false_iff, not_and]
    intro ht hviable
    exact h.not_atFactor ((hfactor ht).2 hviable)

/-- A reader that refuses a token says why. -/
theorem Refuses.misfit {u : List Token} {r : Reader} {t : Token} {e : GrammarError}
    (h : r.Refuses t e) (hr : init.steps u = .ok r) : Misfit u t e := by
  obtain ⟨rfl, hstuck⟩ := h
  refine ⟨r.phase.location_refusal t, fun _ => Phase.found?_refusal, (covers_init.steps hr).viable,
    ?stuck, refusal_eq_nesting_iff hr t, ?factor, ?expected⟩
  case stuck =>
    split
    next ht =>
      rw [if_pos ht] at hstuck
      rintro ⟨p, hp⟩
      have hsteps : init.steps u = _ := steps_program hp []
      cases hr.symm.trans hsteps
      exact hstuck rfl
    next ht =>
      rw [if_neg ht] at hstuck
      intro hviable
      obtain ⟨r', hr'⟩ := exists_step_of_viable hr hviable
      cases hstuck.symm.trans hr'
  case factor =>
    intro hnesting n l
    rw [viable_integer_iff hr]
    obtain h | ⟨c, h⟩ := r.phase.atFactor_or_expects
    · have ht : t.kind ≠ .lparen := fun ht => hnesting (by rw [h.refusal, if_pos ht])
      simp [h, h.refusal, ht]
    · simp [h.not_atFactor, h.refusal]
  case expected =>
    intro hnesting hinvalid
    obtain h | ⟨c, h⟩ := r.phase.atFactor_or_expects
    · rw [h.refusal] at hnesting hinvalid
      by_cases ht : t.kind = .lparen
      · exact absurd (if_pos ht) hnesting
      · exact absurd (if_neg ht) hinvalid
    · refine ⟨c, h.refusal t, ?_⟩
      intro t' ht'
      obtain ⟨r', hstep⟩ := h.step r.done t' ht'
      exact viable_of_step hr hstep

end Reader

/-- Reading a list of tokens fails at the first of them that no sentence goes on with, or at an end
that comes too early, and the error is about that token. -/
theorem TokenStream.misfit_of_parse_eq_error {ts : List Token} {e : GrammarError}
    {s : TokenStream} (h : (TokenStream.ofTokens ts).parse = (.error e, s)) :
    ∃ u, ts = u ++ s.ahead ∧ Misfit u s.current e := by
  obtain ⟨hrun, rfl⟩ := Prod.mk.inj h
  obtain ⟨u, r, hts, -, hr, hrefuses⟩ := Reader.run_eq_error (Prod.ext hrun rfl)
  exact ⟨u, hts, hrefuses.misfit hr⟩

/-- In `x = (1 ;` the parenthesis is still open where the statement stops. -/
theorem TokenStream.misfit_at_open_parenthesis :
    ∃ u, [Token.mk (.identifier "x") ⟨1, 1⟩, ⟨.assign, ⟨1, 3⟩⟩, ⟨.lparen, ⟨1, 5⟩⟩,
        ⟨.integer 1, ⟨1, 6⟩⟩, ⟨.semicolon, ⟨1, 8⟩⟩] = u ++ [⟨.semicolon, ⟨1, 8⟩⟩] ∧
      Misfit u ⟨.semicolon, ⟨1, 8⟩⟩ (.unexpectedToken "RPAREN" .semicolon ⟨1, 8⟩) :=
  TokenStream.misfit_of_parse_eq_error (s := ⟨[⟨.semicolon, ⟨1, 8⟩⟩], ⟨1, 8⟩⟩) rfl

end StraightLine
