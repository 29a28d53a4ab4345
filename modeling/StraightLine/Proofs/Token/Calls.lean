import Mathlib.Data.Stream.Init
import StraightLine.Proofs.Token.Lexemes

/-! One cursor under any sequence of calls. A text has a stream of items: those of its lexemes, and
then its end again and again. Each call takes items off the front of the stream and leaves the rest
to the next call, also where it meets an error. -/
namespace StraightLine

inductive Call where
  | next
  | tokens

inductive Answer where
  | item (x : Item)
  | tokens (result : Except LexicalError (List Token))
  deriving DecidableEq

namespace Cursor

def answer (k : Cursor) : Call → Answer × Cursor
  | .next => (.item k.next.1, k.next.2)
  | .tokens => (.tokens k.tokens.1, k.tokens.2)

def answers (k : Cursor) : List Call → List Answer
  | [] => []
  | call :: calls => (k.answer call).1 :: (k.answer call).2.answers calls

end Cursor

/-- The items at which a call for all tokens stops. -/
def Item.stops : Item → Bool
  | .ok t => t.isEof
  | .error _ => true

/-- What a call takes off a stream of items and what it leaves. All tokens are those up to the first
end, which is one of them, or else an error takes their place. -/
inductive Serves : Stream' Item → Call → Answer → Stream' Item → Prop
  | next (x : Item) (s : Stream' Item) : Serves (.cons x s) .next (.item x) s
  | tokens {ts : List Token} {x : Item} (s : Stream' Item) : (∀ t ∈ ts, t.isEof = false) →
    x.stops = true →
      Serves (ts.map .ok ++ₛ .cons x s) .tokens (.tokens (x.map (ts ++ [·]))) s

/-- Each call goes on where the one before it stopped. -/
inductive ServesAll : Stream' Item → List Call → List Answer → Prop
  | nil (s : Stream' Item) : ServesAll s [] []
  | cons {s s' : Stream' Item} {call : Call} {calls : List Call} {a : Answer}
    {answers : List Answer} : Serves s call a s' → ServesAll s' calls answers →
      ServesAll s (call :: calls) (a :: answers)

namespace Serves

theorem tokens_unique {ts ts' : List Token} {x x' : Item} {s s' : Stream' Item}
    (hts : ∀ t ∈ ts, t.isEof = false) (hx : x.stops = true)
    (hts' : ∀ t ∈ ts', t.isEof = false) (hx' : x'.stops = true)
    (h : ts.map .ok ++ₛ .cons x s = ts'.map .ok ++ₛ .cons x' s') :
    ts = ts' ∧ x = x' ∧ s = s' := by
  induction ts generalizing ts' with
  | nil =>
    cases ts' with
    | nil => exact ⟨rfl, Stream'.cons_injective2 h⟩
    | cons t' ts' =>
      -- A token that is no end does not stop a call.
      obtain ⟨rfl, -⟩ := Stream'.cons_injective2 h
      cases hx.symm.trans (hts' t' List.mem_cons_self)
  | cons t ts ih =>
    rw [List.forall_mem_cons] at hts
    cases ts' with
    | nil =>
      obtain ⟨rfl, -⟩ := Stream'.cons_injective2 h
      cases hx'.symm.trans hts.1
    | cons t' ts' =>
      rw [List.forall_mem_cons] at hts'
      obtain ⟨ht, hrest⟩ := Stream'.cons_injective2 h
      obtain ⟨rfl, hsame⟩ := ih hts.2 hts'.2 hrest
      cases ht
      exact ⟨rfl, hsame⟩

theorem unique {s s₁ s₂ : Stream' Item} {call : Call} {a b : Answer} (h₁ : Serves s call a s₁)
    (h₂ : Serves s call b s₂) : a = b ∧ s₁ = s₂ := by
  generalize hs : s = s' at h₂
  cases h₁ with
  | next x s₁ =>
    cases h₂ with
    | next y s₂ =>
      obtain ⟨rfl, rfl⟩ := Stream'.cons_injective2 hs
      exact ⟨rfl, rfl⟩
  | tokens s₁ hts hx =>
    cases h₂ with
    | tokens s₂ hts' hx' =>
      obtain ⟨rfl, rfl, rfl⟩ := tokens_unique hts hx hts' hx' hs
      exact ⟨rfl, rfl⟩

/-- One token more in front of a stream is one token more in the answer. -/
theorem tokens_cons {s s' : Stream' Item} {result : Except LexicalError (List Token)} {t : Token}
    (h : Serves s .tokens (.tokens result) s') (ht : t.isEof = false) :
    Serves (.cons (.ok t) s) .tokens (.tokens (result.map (t :: ·))) s' := by
  cases h with
  | @tokens ts x _ hts hx =>
    have hserves : Serves ((t :: ts).map .ok ++ₛ .cons x s') .tokens
        (.tokens (x.map (t :: ts ++ [·]))) s' :=
      .tokens s' (List.forall_mem_cons.2 ⟨ht, hts⟩) hx
    cases x with
    | error e => exact hserves
    | ok t' => exact hserves

theorem tokens_nil {x : Item} (s : Stream' Item) (hx : x.stops = true) :
    Serves (.cons x s) .tokens (.tokens (x.map ([·]))) s := by
  have hserves : Serves (([] : List Token).map .ok ++ₛ .cons x s) .tokens
      (.tokens (x.map ([] ++ [·]))) s := .tokens s (by simp) hx
  exact hserves

end Serves

theorem ServesAll.unique {s : Stream' Item} {calls : List Call} {answers answers' : List Answer}
    (h : ServesAll s calls answers) (h' : ServesAll s calls answers') : answers = answers' := by
  induction h generalizing answers' with
  | nil =>
    cases h'
    rfl
  | cons hserves _ ih =>
    cases h' with
    | cons hserves' hall' =>
      obtain ⟨rfl, rfl⟩ := hserves.unique hserves'
      rw [ih hall']

/-- The items of a text with these lexemes. -/
def Lexeme.stream (source : List Char) (lexemes : List Lexeme) : Stream' Item :=
  lexemes.map Lexeme.item ++ₛ Stream'.const (.ok ⟨.eof, .behind source⟩)

namespace Cursor

/-- A cursor somewhere in a text, with the items of the text that are still to come. -/
def Awaits (source : List Char) (k : Cursor) (s : Stream' Item) : Prop :=
  ∃ read lexemes, source = read ++ k.rest ∧ k.location = .behind read ∧
    Scan read k.rest lexemes ∧ s = Lexeme.stream source lexemes

variable {source : List Char} {k : Cursor} {s : Stream' Item}

/-- One reading takes one item. -/
theorem Awaits.next (h : k.Awaits source s) :
    ∃ s', s = .cons k.next.1 s' ∧ k.next.2.Awaits source s' := by
  obtain ⟨read, lexemes, hsource, hlocation, hscan, rfl⟩ := h
  obtain ⟨rest, l⟩ := k
  simp only at hsource hlocation hscan
  subst hlocation
  cases hscan with
  | nil hblanks =>
    rw [next_blanks hblanks, ← hsource]
    refine ⟨Lexeme.stream source [], Stream'.const_eq _, source, [], by simp, rfl, ?_, rfl⟩
    exact .nil (by simp)
  | @cons _ blanks text rest x lexemes hblanks hlexeme hscan =>
    rw [next_lexeme hblanks hlexeme]
    have hread : source = read ++ blanks ++ text ++ rest := by simpa using hsource
    exact ⟨Lexeme.stream source lexemes, rfl, _, lexemes, hread, rfl, hscan, rfl⟩

theorem Awaits.tokens {k : Cursor} {s : Stream' Item} (h : k.Awaits source s) :
    ∃ s', Serves s .tokens (.tokens k.tokens.1) s' ∧ k.tokens.2.Awaits source s' := by
  obtain ⟨s₁, rfl, hnext⟩ := h.next
  cases hk : k.next.1 with
  | error e =>
    rw [Cursor.tokens, tokensAfter_of_error hk]
    exact ⟨s₁, Serves.tokens_nil s₁ rfl, hnext⟩
  | ok t =>
    cases ht : t.isEof with
    | true =>
      rw [Cursor.tokens, tokensAfter_of_eof hk ht]
      exact ⟨s₁, Serves.tokens_nil s₁ ht, hnext⟩
    | false =>
      obtain ⟨s', hserves, hrest⟩ := hnext.tokens
      rw [tokens_of_token hk ht]
      exact ⟨s', hserves.tokens_cons ht, hrest⟩
termination_by k.rest.length
decreasing_by exact length_rest_next_lt hk ht

theorem Awaits.answer (h : k.Awaits source s) (call : Call) :
    ∃ s', Serves s call (k.answer call).1 s' ∧ (k.answer call).2.Awaits source s' := by
  cases call with
  | next =>
    obtain ⟨s', rfl, hnext⟩ := h.next
    exact ⟨s', .next _ s', hnext⟩
  | tokens => exact h.tokens

/-- Whatever the calls, they take the items in turn. -/
theorem Awaits.answers (h : k.Awaits source s) (calls : List Call) :
    ServesAll s calls (k.answers calls) := by
  induction calls generalizing k s with
  | nil => exact .nil s
  | cons call calls ih =>
    obtain ⟨s', hserves, hrest⟩ := h.answer call
    exact .cons hserves (ih hrest)

end Cursor

/-- A text has one cut into lexemes. They and the blanks between them are the text; each stands where
its first character does, one behind the other. Any calls on one cursor take their items in turn, and
behind them the end of the text for ever. -/
theorem cursor_serves_lexemes (source : String) :
    ∃ lexemes, Scan [] source.toList lexemes ∧
      (∀ lexemes', Scan [] source.toList lexemes' → lexemes' = lexemes) ∧
      (∃ blanks, (∀ c ∈ blanks, Text.isBlank c = true) ∧
        source.toList = lexemes.flatMap Lexeme.whole ++ blanks) ∧
      (∀ before x after, lexemes = before ++ x :: after →
        x.location = .behind (before.flatMap Lexeme.whole ++ x.blanks)) ∧
      (lexemes.map Lexeme.location ++ [Location.behind source.toList]).Pairwise (· < ·) ∧
      ∀ calls answers, ServesAll (Lexeme.stream source.toList lexemes) calls answers ↔
        answers = (Cursor.ofString source).answers calls := by
  obtain ⟨lexemes, hscan⟩ := Scan.exists_of_text [] source.toList
  refine ⟨lexemes, hscan, fun _ h => h.unique hscan, hscan.partition, ?_, hscan.increasing, ?_⟩
  · rintro before x after rfl
    exact hscan.position
  · intro calls answers
    have hstart : (Cursor.ofString source).Awaits source.toList
        (Lexeme.stream source.toList lexemes) := ⟨[], lexemes, rfl, rfl, hscan, rfl⟩
    have hserves := hstart.answers calls
    constructor
    · intro h
      exact h.unique hserves
    · rintro rfl
      exact hserves

example : (Cursor.ofString "1 @\n2").answers [.tokens, .next, .tokens, .next] =
    [.tokens (.error (.unexpectedCharacter '@' ⟨1, 3⟩)), .item (.ok ⟨.integer 2, ⟨2, 1⟩⟩),
      .tokens (.ok [⟨.eof, ⟨2, 2⟩⟩]), .item (.ok ⟨.eof, ⟨2, 2⟩⟩)] := by
  decide +kernel

end StraightLine
