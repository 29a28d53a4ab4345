import Mathlib.Data.List.Basic
import StraightLine.Proofs.Program.Descent

/-! One stream under any number of calls. Each call goes on at the token where the last one stopped,
with no parenthesis open, and so reads what a new stream of the tokens from there on would. No call
passes an end. -/
namespace StraightLine

def Phase.depth : Phase → Nat
  | .start | .declaring | .named _ => 0
  | .factor _ _ outer => outer.length
  | .operator _ _ _ outer => outer.length

theorem Phase.depth_applied (target : Target) (sum : Option Pending) (product : Expr)
    (outer : List Level) (op : Operator) (l : Location) :
    (applied target sum product outer op l).depth = outer.length := by
  unfold applied
  split <;> rfl

namespace Reader

theorem Move.depth {done : List Statement} {phase : Phase} {t : Token} {r : Reader}
    (h : Move done phase t r) :
    (t.kind = .lparen ∧ phase.depth < maxNesting ∧ r.phase.depth = phase.depth + 1) ∨
    (t.kind = .rparen ∧ phase.depth = r.phase.depth + 1) ∨
    (t.kind ≠ .lparen ∧ t.kind ≠ .rparen ∧ r.phase.depth = phase.depth) := by
  cases h with
  | opening target level outer l hlt => exact .inl ⟨rfl, hlt, rfl⟩
  | closing target sum product level outer l => exact .inr (.inl ⟨rfl, rfl⟩)
  | operator target sum product outer op l =>
    exact .inr (.inr ⟨nofun, nofun, Phase.depth_applied ..⟩)
  | _ => exact .inr (.inr ⟨nofun, nofun, rfl⟩)

/-- A reader that has taken the tokens `u`: as many parentheses are open as these have opened and not
closed, and never too many. -/
structure Nested (u : List Token) (r : Reader) : Prop where
  depth_le : r.phase.depth ≤ maxNesting
  balance : (u.map Token.kind).count .lparen = r.phase.depth + (u.map Token.kind).count .rparen

theorem nested_init : Nested [] init := ⟨Nat.zero_le _, rfl⟩

theorem Nested.step {u : List Token} {r r' : Reader} {t : Token} (h : Nested u r)
    (hstep : r.step t = .ok r') : Nested (u ++ [t]) r' := by
  obtain ⟨hle, hbalance⟩ := h
  have hcount (k : Token.Kind) : ((u ++ [t]).map Token.kind).count k =
      (u.map Token.kind).count k + if t.kind = k then 1 else 0 := by
    simp [List.count_singleton]
  obtain ⟨hkind, hlt, hdepth⟩ | ⟨hkind, hdepth⟩ | ⟨hleft, hright, hdepth⟩ :=
    (move_of_step hstep).depth
  · refine ⟨by omega, ?_⟩
    rw [hcount, hcount, hkind, if_pos rfl, if_neg nofun]
    omega
  · refine ⟨by omega, ?_⟩
    rw [hcount, hcount, hkind, if_pos rfl, if_neg nofun]
    omega
  · refine ⟨by omega, ?_⟩
    rw [hcount, hcount, if_neg hleft, if_neg hright]
    omega

theorem Nested.steps {u w : List Token} {r r' : Reader} (h : Nested u r)
    (hsteps : r.steps w = .ok r') : Nested (u ++ w) r' := by
  induction w generalizing u r with
  | nil =>
    cases hsteps
    simpa using h
  | cons t w ih =>
    cases ht : r.step t with
    | error e => simp [Reader.steps, ht] at hsteps
    | ok r₁ =>
      rw [steps_cons_of_ok ht] at hsteps
      simpa using ih (h.step ht) hsteps

theorem run_eq_ok {stop : Location} {r : Reader} {ts ahead : List Token} {p : Program}
    (h : r.run stop ts = (.ok p, ahead)) :
    ∃ u done, ts = u ++ ahead ∧ (∀ t ∈ u, t.isEof = false) ∧ r.steps u = .ok ⟨done, .start⟩ ∧
      (TokenStream.current ⟨ahead, stop⟩).isEof = true := by
  have hfinish {r : Reader} {t : Token} (hr : r.finish t = .ok p) :
      r.steps [] = .ok ⟨r.done, .start⟩ := by
    obtain ⟨done, phase⟩ := r
    cases phase with
    | start => rfl
    | _ => cases hr
  induction ts generalizing r with
  | nil =>
    obtain ⟨hr, rfl⟩ := Prod.mk.inj h
    exact ⟨[], r.done, rfl, by simp, hfinish hr, rfl⟩
  | cons t ts ih =>
    rw [run] at h
    cases ht : t.isEof with
    | true =>
      rw [if_pos ht] at h
      obtain ⟨hr, rfl⟩ := Prod.mk.inj h
      exact ⟨[], r.done, rfl, by simp, hfinish hr, ht⟩
    | false =>
      rw [ht, if_neg Bool.false_ne_true] at h
      cases hstep : r.step t with
      | error e =>
        rw [hstep] at h
        cases h
      | ok r₁ =>
        rw [hstep] at h
        obtain ⟨u, done, rfl, hu, hsteps, hend⟩ := ih h
        exact ⟨t :: u, done, rfl, List.forall_mem_cons.2 ⟨ht, hu⟩,
          by rw [steps_cons_of_ok hstep, hsteps], hend⟩

theorem exists_steps_of_append {r r' : Reader} {u v : List Token}
    (h : r.steps (u ++ v) = .ok r') : ∃ r₁, r.steps u = .ok r₁ := by
  rw [steps_append] at h
  cases hu : r.steps u with
  | error e =>
    rw [hu] at h
    cases h
  | ok r₁ => exact ⟨r₁, rfl⟩

end Reader

namespace TokenStream

def after (s : TokenStream) : Nat → TokenStream
  | 0 => s
  | n + 1 => (s.after n).parse.2

/-- How many tokens `n` calls have taken. -/
def position (s : TokenStream) (n : Nat) : Nat := s.tokens.length - (s.after n).tokens.length

theorem tokens_cons {t : Token} (ht : t.isEof = false) (ts : List Token) (stop : Location) :
    tokens ⟨t :: ts, stop⟩ = t :: tokens ⟨ts, stop⟩ := by
  unfold tokens
  cases ts with
  | nil => simp [ht]
  | cons t' ts =>
    simp only [List.getLast?_cons_cons]
    split <;> rfl

theorem tokens_append {u : List Token} (hu : ∀ t ∈ u, t.isEof = false) (ts : List Token)
    (stop : Location) : tokens ⟨u ++ ts, stop⟩ = u ++ tokens ⟨ts, stop⟩ := by
  induction u with
  | nil => rfl
  | cons t u ih =>
    rw [List.forall_mem_cons] at hu
    rw [List.cons_append, tokens_cons hu.1, ih hu.2, List.cons_append]

theorem ended_tokens (s : TokenStream) : Ended s.tokens := by
  unfold tokens
  split
  next h => exact h
  next => simp [Ended, Token.isEof]

theorem tokens_tokens (s : TokenStream) (stop : Location) : tokens ⟨s.tokens, stop⟩ = s.tokens :=
  if_pos s.ended_tokens

/-- It does not matter whether the end is supplied or stands among the tokens. -/
theorem run_tokens (r : Reader) (ts : List Token) (stop stop' : Location) :
    r.run stop' (tokens ⟨ts, stop⟩) =
      ((r.run stop ts).1, tokens ⟨(r.run stop ts).2, stop⟩) := by
  induction ts generalizing r with
  | nil => rfl
  | cons t ts ih =>
    cases ht : t.isEof with
    | true =>
      obtain ⟨v, hv⟩ : ∃ v, tokens ⟨t :: ts, stop⟩ = t :: v := by
        unfold tokens
        split
        · exact ⟨_, rfl⟩
        · exact ⟨_, rfl⟩
      have hrun : r.run stop (t :: ts) = (r.finish t, t :: ts) := by rw [Reader.run, if_pos ht]
      rw [hrun, hv, Reader.run, if_pos ht]
    | false =>
      rw [tokens_cons ht, Reader.run, Reader.run, ht, if_neg Bool.false_ne_true,
        if_neg Bool.false_ne_true]
      cases r.step t with
      | ok r' => exact ih r'
      | error e => rw [tokens_cons ht]

theorem parse_ofTokens_tokens (s : TokenStream) : (ofTokens s.tokens).parse =
    (s.parse.1, ⟨s.parse.2.tokens, (ofTokens s.tokens).stop⟩) := by
  have hrun : Reader.init.run (ofTokens s.tokens).stop (ofTokens s.tokens).ahead =
      (s.parse.1, s.parse.2.tokens) := run_tokens Reader.init s.ahead s.stop _
  rw [parse, hrun]

theorem exists_taken (s : TokenStream) :
    ∃ u r, s.tokens = u ++ s.parse.2.tokens ∧ (∀ t ∈ u, t.isEof = false) ∧
      Reader.init.steps u = .ok r := by
  have hrun : Reader.init.run s.stop s.ahead = (s.parse.1, s.parse.2.ahead) := rfl
  cases hs : s.parse.1 with
  | error e =>
    rw [hs] at hrun
    obtain ⟨u, r, hahead, hu, hsteps, -⟩ := Reader.run_eq_error hrun
    refine ⟨u, r, ?_, hu, hsteps⟩
    rw [← tokens_append hu, ← hahead]
    rfl
  | ok p =>
    rw [hs] at hrun
    obtain ⟨u, done, hahead, hu, hsteps, -⟩ := Reader.run_eq_ok hrun
    refine ⟨u, _, ?_, hu, hsteps⟩
    rw [← tokens_append hu, ← hahead]
    rfl

theorem exists_passed (s : TokenStream) (n : Nat) :
    ∃ u, s.tokens = u ++ (s.after n).tokens ∧ ∀ t ∈ u, t.isEof = false := by
  induction n with
  | zero => exact ⟨[], rfl, by simp⟩
  | succ n ih =>
    obtain ⟨u, hu, hpassed⟩ := ih
    obtain ⟨v, r, hv, htaken, -⟩ := (s.after n).exists_taken
    refine ⟨u ++ v, ?_, List.forall_mem_append.2 ⟨hpassed, htaken⟩⟩
    rw [hu, hv, List.append_assoc]
    rfl

theorem position_eq {s : TokenStream} {n : Nat} {u : List Token}
    (h : s.tokens = u ++ (s.after n).tokens) : s.position n = u.length := by
  rw [position, h, List.length_append]
  omega

theorem parse_of_isEof_current {s : TokenStream} (h : s.current.isEof = true) :
    s.parse = (.ok [], s) := by
  obtain ⟨ahead, stop⟩ := s
  cases ahead with
  | nil => rfl
  | cons t ts =>
    have ht : t.isEof = true := h
    have hrun : Reader.init.run stop (t :: ts) = (.ok [], t :: ts) := by
      rw [Reader.run, if_pos ht]
      rfl
    rw [parse, hrun]

theorem current_parse_of_ok {s : TokenStream} {p : Program} (h : s.parse.1 = .ok p) :
    s.parse.2.current.isEof = true := by
  have hrun : Reader.init.run s.stop s.ahead = (.ok p, s.parse.2.ahead) := Prod.ext h rfl
  obtain ⟨-, -, -, -, -, hend⟩ := Reader.run_eq_ok hrun
  exact hend

/-- Once a call has read a program, the stream stays where it is. -/
theorem after_of_ok {s : TokenStream} {n m : Nat} {p : Program}
    (h : (s.after n).parse.1 = .ok p) (hnm : n < m) :
    s.after m = s.after (n + 1) ∧ (s.after m).parse.1 = .ok [] := by
  have hend : (s.after (n + 1)).parse = (.ok [], s.after (n + 1)) :=
    parse_of_isEof_current (current_parse_of_ok h)
  have hsame : s.after m = s.after (n + 1) := by
    induction m, hnm using Nat.le_induction with
    | base => rfl
    | succ m _ ih => rw [after, ih, hend]
  exact ⟨hsame, by rw [hsame, hend]⟩

theorem tokens_after (s : TokenStream) (n : Nat) :
    (s.after n).tokens = s.tokens.drop (s.position n) := by
  obtain ⟨u, hu, -⟩ := s.exists_passed n
  rw [position_eq hu, hu, List.drop_left]

theorem isEof_of_mem_passed (s : TokenStream) (n : Nat) :
    ∀ t ∈ s.tokens.take (s.position n), t.isEof = false := by
  obtain ⟨u, hu, hpassed⟩ := s.exists_passed n
  rwa [position_eq hu, hu, List.take_left]

theorem position_lt (s : TokenStream) (n : Nat) : s.position n < s.tokens.length := by
  obtain ⟨u, hu, -⟩ := s.exists_passed n
  obtain ⟨t, ts, hts⟩ := (s.after n).ended_tokens.exists_cons
  rw [position_eq hu, hu, hts, List.length_append, List.length_cons]
  omega

theorem exists_position_succ (s : TokenStream) (n : Nat) :
    ∃ v r, (s.after n).tokens = v ++ (s.after (n + 1)).tokens ∧
      s.position (n + 1) = s.position n + v.length ∧ Reader.init.steps v = .ok r := by
  obtain ⟨u, hu, -⟩ := s.exists_passed n
  obtain ⟨v, r, hv, -, hsteps⟩ := (s.after n).exists_taken
  have hnext : s.tokens = u ++ v ++ (s.after (n + 1)).tokens := by
    rw [hu, hv, List.append_assoc]
    rfl
  exact ⟨v, r, hv, by rw [position_eq hnext, position_eq hu, List.length_append], hsteps⟩

theorem position_ofTokens_tokens {s : TokenStream} {v : List Token}
    (hv : s.tokens = v ++ s.parse.2.tokens) : (ofTokens s.tokens).position 1 = v.length := by
  refine position_eq ?_
  rw [after, after, parse_ofTokens_tokens, tokens_tokens]
  exact (tokens_tokens s _).trans hv

/-- Recursive descent, at the place where `n` calls have come to and with no parenthesis open, does
what the next call does, and no parenthesis is open when it returns. -/
theorem program_position (s : TokenStream) (n : Nat) :
    Descent.program ⟨s.tokens, s.position n, 0⟩ =
      some ((s.after n).parse.1, ⟨s.tokens, s.position (n + 1), 0⟩) := by
  obtain ⟨u, hu, -⟩ := s.exists_passed n
  obtain ⟨w, hw, hprogram⟩ := Descent.program_between s.stop u (s.after n).ended_tokens
  have hrun : Reader.init.run s.stop (s.after n).tokens =
      ((s.after n).parse.1, (s.after (n + 1)).tokens) := run_tokens Reader.init _ _ _
  rw [hrun] at hw hprogram
  have hnext : s.tokens = u ++ w ++ (s.after (n + 1)).tokens := by
    rw [hu, hw, List.append_assoc]
  calc Descent.program ⟨s.tokens, s.position n, 0⟩
    _ = Descent.program (.between u (s.after n).tokens 0) := by
      rw [Descent.between, position_eq hu, ← hu]
    _ = some ((s.after n).parse.1, .between (u ++ w) (s.after (n + 1)).tokens 0) := hprogram
    _ = some ((s.after n).parse.1, ⟨s.tokens, s.position (n + 1), 0⟩) := by
      rw [Descent.between, position_eq hnext, ← hnext]

theorem program_start (s : TokenStream) :
    Descent.program (.start s) = some (s.parse.1, ⟨s.tokens, s.position 1, 0⟩) := by
  have h := s.program_position 0
  rw [position, after, Nat.sub_self] at h
  exact h

theorem exists_tokens_eq_current (s : TokenStream) : ∃ v, s.tokens = s.current :: v := by
  obtain ⟨ahead, stop⟩ := s
  cases ahead with
  | nil => exact ⟨[], rfl⟩
  | cons t ts =>
    unfold tokens
    split
    · exact ⟨ts, rfl⟩
    · exact ⟨ts ++ [⟨.eof, stop⟩], rfl⟩

theorem calls_start (s : TokenStream) (n : Nat) :
    Descent.calls n (.start s) =
      some ((List.range n).map fun i => (s.after i).parse.1, ⟨s.tokens, s.position n, 0⟩) := by
  induction n with
  | zero =>
    rw [position, after, Nat.sub_self, Descent.calls, List.range_zero, List.map_nil, Descent.start]
  | succ n ih =>
    simp only [Descent.calls, ih, Option.bind_eq_bind, Option.bind_some, program_position,
      Option.pure_def, List.range_succ, List.map_append, List.map_singleton]

theorem program_eq_ok_iff (ts : List Token) (p : Program) :
    (∃ d, Descent.program (.start (ofTokens ts)) = some (.ok p, d)) ↔
      Grammar.Program maxNesting (ts.takeWhile fun t => !t.isEof) p := by
  rw [program_start, ← Program.ofTokens_eq_ok_iff_sentence]
  constructor
  · rintro ⟨d, h⟩
    exact congrArg Prod.fst (Option.some.inj h)
  · intro h
    exact ⟨_, congrArg (fun result => some (result, _)) h⟩

/-- Where recursive descent fails, it is at the first token that no sentence goes on with, and no
parenthesis is left open. -/
theorem misfit_of_program_eq_error {ts : List Token} {e : GrammarError} {d : Descent}
    (h : Descent.program (.start (ofTokens ts)) = some (.error e, d)) :
    d.depth = 0 ∧ ∃ u t v, d.tokens = u ++ t :: v ∧ d.position = u.length ∧ Misfit u t e := by
  rw [program_start] at h
  obtain ⟨hparse, rfl⟩ := Prod.mk.inj (Option.some.inj h)
  generalize ofTokens ts = s at hparse ⊢
  have hrun : Reader.init.run s.stop s.ahead = (.error e, (s.after 1).ahead) := Prod.ext hparse rfl
  obtain ⟨u, r, hahead, hu, hsteps, hrefuses⟩ := Reader.run_eq_error hrun
  have htokens : s.tokens = u ++ (s.after 1).tokens := by
    rw [← tokens_append hu, ← hahead]
    rfl
  obtain ⟨v, hv⟩ := (s.after 1).exists_tokens_eq_current
  exact ⟨rfl, u, _, v, htokens.trans (by rw [hv]; rfl), position_eq htokens, hrefuses.misfit hsteps⟩

/-- What is to hold of the call that comes after `n` others. -/
structure Resumes (s : TokenStream) (n : Nat) : Prop where
  /-- The others have come to this place by recursive descent, with no parenthesis left open. -/
  before : Descent.calls n (.start s) =
    some ((List.range n).map fun i => (s.after i).parse.1, ⟨s.tokens, s.position n, 0⟩)
  call : Descent.program ⟨s.tokens, s.position n, 0⟩ =
    some ((s.after n).parse.1, ⟨s.tokens, s.position (n + 1), 0⟩)
  inside : s.position n < s.tokens.length
  ahead : (s.after n).tokens = s.tokens.drop (s.position n)
  passed : ∀ t ∈ s.tokens.take (s.position n), t.isEof = false
  forward : s.position n ≤ s.position (n + 1)
  /-- A new stream of the tokens to come gives the same answer and takes as many tokens. -/
  fresh : (ofTokens (s.after n).tokens).parse.1 = (s.after n).parse.1 ∧
    s.position n + (ofTokens (s.after n).tokens).position 1 = s.position (n + 1)
  /-- Behind each of the tokens it takes, the parentheses open are within bounds. -/
  nested : ∀ k, s.position n + k ≤ s.position (n + 1) →
    ∃ r, Reader.init.steps ((s.after n).tokens.take k) = .ok r ∧
      r.Nested ((s.after n).tokens.take k)
  /-- If it succeeds, no later call reads anything or moves. -/
  settled : ∀ p, (s.after n).parse.1 = .ok p → ∀ m, n < m →
    (s.after m).parse.1 = .ok [] ∧ s.position m = s.position (n + 1)

/-- Each call on a stream goes on where the last one stopped as if the stream began there. -/
theorem calls_resume (ts : List Token) (n : Nat) : (ofTokens ts).Resumes n := by
  generalize ofTokens ts = s
  obtain ⟨v, r, hv, hnext, hsteps⟩ := s.exists_position_succ n
  refine ⟨s.calls_start n, s.program_position n, s.position_lt n, s.tokens_after n,
    s.isEof_of_mem_passed n, by omega, ?fresh, ?nested, ?settled⟩
  case fresh =>
    rw [position_ofTokens_tokens hv, hnext, parse_ofTokens_tokens]
    exact ⟨rfl, rfl⟩
  case nested =>
    intro k hk
    rw [hv, List.take_append_of_le_length (by omega)]
    rw [← List.take_append_drop k v] at hsteps
    obtain ⟨r', hr'⟩ := Reader.exists_steps_of_append hsteps
    exact ⟨r', hr', Reader.nested_init.steps hr'⟩
  case settled =>
    intro p hp m hm
    obtain ⟨hsame, hempty⟩ := after_of_ok hp hm
    exact ⟨hempty, by rw [position, hsame, position]⟩

end TokenStream

end StraightLine
