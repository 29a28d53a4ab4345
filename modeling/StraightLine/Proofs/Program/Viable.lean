import Mathlib.Data.List.Chain
import StraightLine.Proofs.Program.Derivation

/-! Tokens that can still become a sentence. A derivation half read can always be brought to an end:
a factor goes where one is missing, what is open is closed, and the statement stops. -/
namespace StraightLine

open Token (Kind)

namespace Grammar

/-- Some more tokens make a sentence of these, with at most `d` parentheses open at once. -/
def Viable (d : Nat) (w : List Token) : Prop := ∃ v p, Program d (w ++ v) p

mutual

theorem Factor.mono {d : Nat} {w : List Token} {e : Expr} (k : Nat) :
    Factor d w e → Factor (d + k) w e
  | .number d n l => .number (d + k) n l
  | .var d x l => .var (d + k) x l
  | .paren (d := d) opening closing h => by
    rw [Nat.add_right_comm]
    exact .paren opening closing (h.mono k)

theorem Product.mono {d : Nat} {w : List Token} {e : Expr} (k : Nat) :
    Product d w e → Product (d + k) w e
  | .factor h => .factor (h.mono k)
  | .apply op l hop ha hb => .apply op l hop (ha.mono k) (hb.mono k)

theorem Sum.mono {d : Nat} {w : List Token} {e : Expr} (k : Nat) :
    Sum d w e → Sum (d + k) w e
  | .product h => .product (h.mono k)
  | .apply op l hop ha hb => .apply op l hop (ha.mono k) (hb.mono k)

end

theorem Statement.mono {d : Nat} {w : List Token} {s : StraightLine.Statement} (k : Nat)
    (h : Statement d w s) : Statement (d + k) w s := by
  cases h with
  | declaration x keyword name equals stop hsum =>
    exact .declaration x keyword name equals stop (hsum.mono k)
  | assignment x name equals stop hsum => exact .assignment x name equals stop (hsum.mono k)

theorem Program.mono {d : Nat} {w : List Token} {p : StraightLine.Program} (k : Nat)
    (h : Program d w p) : Program (d + k) w p := by
  induction h with
  | nil => exact .nil _
  | cons hs hp ih => exact .cons (hs.mono k) ih

theorem Program.append {d : Nat} {u v : List Token} {p q : StraightLine.Program}
    (hp : Program d u p) (hq : Program d v q) : Program d (u ++ v) (p ++ q) := by
  induction hp with
  | nil => exact hq
  | cons hs _ ih => simpa using Program.cons hs ih

/-- The tokens after which a factor has to follow. -/
def AwaitsFactor (t : Token) : Prop :=
  t.kind = .assign ∨ t.kind = .lparen ∨ ∃ op, t.kind = .operator op

/-- Two neighbours of which the second is no parenthesis, or opens one where a factor is due. -/
def Adjacent (t t' : Token) : Prop := t'.kind = .lparen → AwaitsFactor t

/-- Two chains of neighbours join where the second starts with a token that opens nothing. -/
theorem isChain_append_cons {u v : List Token} {t : Token} (ht : t.kind ≠ .lparen)
    (hu : u.IsChain Adjacent) (hv : (t :: v).IsChain Adjacent) :
    (u ++ t :: v).IsChain Adjacent := by
  refine hu.append hv ?_
  intro x _ y hy
  cases hy
  exact fun h => absurd h ht

/-- Behind a token that awaits a factor, a parenthesis is opened only where a factor is due. -/
theorem Sum.isChain {d : Nat} {w : List Token} {e : Expr} (h : Sum d w e) :
    ∀ t, AwaitsFactor t → (t :: w).IsChain Adjacent := by
  refine h.closed (M := fun w _ => ∀ t, AwaitsFactor t → (t :: w).IsChain Adjacent) ?_ ?_ ?_ ?_
  · intro n l t _
    simp [Adjacent]
  · intro x l t _
    simp [Adjacent]
  · intro w e opening closing ih t ht
    have hinner := ih ⟨.lparen, opening⟩ (.inr (.inl rfl))
    have hclosed := isChain_append_cons (t := ⟨.rparen, closing⟩) (v := []) (by simp) hinner
      (List.isChain_singleton _)
    exact .cons_cons (fun _ => ht) hclosed
  · intro u v a b op l iha ihb t ht
    exact isChain_append_cons (by simp) (iha t ht) (ihb _ (.inr (.inr ⟨op, rfl⟩)))

theorem Sum.isChain_value {d : Nat} {w : List Token} {e : Expr} (h : Sum d w e)
    (equals stop : Location) :
    (Token.mk .assign equals :: w ++ [Token.mk .semicolon stop]).IsChain Adjacent :=
  isChain_append_cons (by simp) (h.isChain _ (.inl rfl)) (List.isChain_singleton _)

theorem Statement.isChain {d : Nat} {w : List Token} {s : StraightLine.Statement}
    (h : Statement d w s) (t : Token) : (t :: w).IsChain Adjacent := by
  cases h with
  | declaration x keyword name equals stop hsum =>
    simpa [Adjacent] using hsum.isChain_value equals stop
  | assignment x name equals stop hsum =>
    simpa [Adjacent] using hsum.isChain_value equals stop

theorem Program.isChain {d : Nat} {w : List Token} {p : StraightLine.Program}
    (h : Program d w p) (t : Token) : (t :: w).IsChain Adjacent := by
  induction h generalizing t with
  | nil => exact List.isChain_singleton t
  | @cons u v s p hs hp ih =>
    rw [← List.cons_append]
    refine (hs.isChain t).append (ih t).tail ?_
    intro x _ y hy
    exact (ih x).rel_head? hy

/-- In a sentence a parenthesis is opened only behind a token that awaits a factor. -/
theorem Viable.awaitsFactor {d : Nat} {u : List Token} {l : Location}
    (h : Viable d (u ++ [⟨.lparen, l⟩])) : ∃ v t, u = v ++ [t] ∧ AwaitsFactor t := by
  obtain ⟨v, p, hp⟩ := h
  -- Any token may stand before a sentence, also one that awaits nothing.
  have hchain := hp.isChain ⟨.semicolon, l⟩
  obtain rfl | ⟨u, t, rfl⟩ := u.eq_nil_or_concat'
  · have hfirst := (List.isChain_cons_cons.1 hchain).1 rfl
    simp [AwaitsFactor] at hfirst
  · refine ⟨u, t, rfl, ?_⟩
    have hpair : (Token.mk .semicolon l :: u ++ t :: ⟨.lparen, l⟩ :: v).IsChain Adjacent := by
      simpa using hchain
    exact (List.isChain_append_cons_cons.1 hpair).2.1 rfl

end Grammar

open Grammar (Factor Product Sum Viable)

theorem Pending.Covers.mono {tight : Bool} {L L' : List Token → Expr → Prop}
    {pending : Option Pending} {w : List Token} (h : Covers tight L pending w)
    (hL : ∀ w e, L w e → L' w e) : Covers tight L' pending w := by
  cases h with
  | none => exact .none
  | some op l hop ha => exact .some op l hop (hL _ _ ha)

namespace Level

theorem Covers.mono {d : Nat} {level : Level} {w : List Token} (h : level.Covers d w) (k : Nat) :
    level.Covers (d + k) w := by
  cases h with
  | mk hsum hproduct =>
    exact .mk (hsum.mono fun _ _ h => h.mono k) (hproduct.mono fun _ _ h => h.mono k)

/-- A factor completes what waits at its level. -/
theorem Covers.exists_sum {d : Nat} {level : Level} {u v : List Token} {e : Expr}
    (h : level.Covers d u) (he : Factor d v e) : ∃ e', Sum d (u ++ v) e' := by
  cases h with
  | mk hsum hproduct =>
    have hclosed := hsum.close_sum (hproduct.close_product he)
    exact ⟨_, by simpa using hclosed⟩

end Level

/-- Every open parenthesis can be closed. Here `k` more may be open at once than a reader allows. -/
theorem Opened.exists_closed {d : Nat} {outer : List Level} {v : List Token}
    (h : Opened d outer v) {k : Nat} {w : List Token} {e : Expr} (he : Sum (d + k) w e) :
    ∃ closing e', Sum (maxNesting + k) (v ++ w ++ closing) e' := by
  induction h generalizing w e with
  | nil => exact ⟨[], e, by simpa using he⟩
  | @cons d level outer u v l _ hlevel ih =>
    have hfactor := Factor.paren l .start he
    rw [Nat.add_right_comm] at hfactor
    obtain ⟨e₁, hsum⟩ := (hlevel.mono k).exists_sum hfactor
    obtain ⟨closing, e₂, hclosed⟩ := ih hsum
    exact ⟨⟨.rparen, .start⟩ :: closing, e₂, by simpa using hclosed⟩

namespace Phase

/-- Where a factor is due, one that has room completes the statement. -/
theorem Covers.exists_statement {target : Target} {level : Level} {outer : List Level}
    {w : List Token} (h : Covers (.factor target level outer) w) {d k : Nat}
    (hd : outer.length + d = maxNesting) {f : List Token} {e : Expr} (hf : Factor (d + k) f e) :
    ∃ v s, Grammar.Statement (maxNesting + k) (w ++ (f ++ v)) s := by
  cases h with
  | @factor d' _ _ _ u v w equals htarget hopened hlevel =>
    have hlen := hopened.length_add
    obtain rfl : d' = d := by omega
    obtain ⟨e₁, hsum⟩ := (hlevel.mono k).exists_sum hf
    obtain ⟨closing, e₂, hclosed⟩ := hopened.exists_closed hsum
    refine ⟨closing ++ [⟨.semicolon, .start⟩], ⟨target, e₂⟩, ?_⟩
    simpa using htarget.statement equals .start hclosed

/-- A statement in the middle can be brought to its end. -/
theorem Covers.exists_program {phase : Phase} {w : List Token} (h : phase.Covers w) :
    ∃ v p, Grammar.Program maxNesting (w ++ v) p := by
  have hone : Sum maxNesting [⟨.integer 1, .start⟩] (.number 1 .start) :=
    .product (.factor (.number _ 1 .start))
  have hstatement : ∀ {v : List Token} {s : Statement},
      Grammar.Statement maxNesting (w ++ v) s → ∃ v p, Grammar.Program maxNesting (w ++ v) p := by
    intro v s hs
    exact ⟨v, [s], by simpa using Grammar.Program.cons hs (.nil _)⟩
  cases h with
  | start => exact ⟨[], [], .nil _⟩
  | declaring l =>
    exact hstatement (v := ⟨.identifier "x", .start⟩ :: ⟨.assign, .start⟩ :: _)
      (.declaration "x" l .start .start .start hone)
  | named htarget => exact hstatement (htarget.statement .start .start hone)
  | @factor d target level outer u v w equals htarget hopened hlevel =>
    have h := Covers.factor equals htarget hopened hlevel
    obtain ⟨v, s, hs⟩ := h.exists_statement (k := 0) hopened.length_add (.number d 1 .start)
    exact hstatement hs
  | operator equals htarget hopened hsum hproduct =>
    obtain ⟨closing, e, hclosed⟩ := hopened.exists_closed (k := 0) (hsum.close_sum hproduct)
    have hs := htarget.statement equals .start hclosed
    exact hstatement (v := closing ++ [⟨.semicolon, .start⟩]) (by simpa using hs)

end Phase

/-- What a reader has taken is the beginning of a sentence. -/
theorem Reader.Covers.viable {r : Reader} {w : List Token} (h : r.Covers w) :
    Viable maxNesting w := by
  cases h with
  | mk hdone hphase =>
    obtain ⟨v, p, hp⟩ := hphase.exists_program
    exact ⟨v, _, by simpa using hdone.append hp⟩

/-- Before a factor one more parenthesis opens in some sentence, if only one of deeper nesting. -/
theorem Reader.Covers.viable_lparen {done : List Statement} {target : Target} {level : Level}
    {outer : List Level} {w : List Token} (h : Reader.Covers ⟨done, .factor target level outer⟩ w)
    (l : Location) : Viable (maxNesting + 1) (w ++ [⟨.lparen, l⟩]) := by
  cases h with
  | @mk _ _ u v hdone hphase =>
    cases hphase with
    | @factor d _ _ _ _ _ _ equals htarget hopened hlevel =>
      have hone : Sum d [⟨.integer 1, .start⟩] (.number 1 .start) :=
        .product (.factor (.number d 1 .start))
      have hparen := Factor.paren l .start hone
      have hphase := Phase.Covers.factor equals htarget hopened hlevel
      obtain ⟨v, s, hs⟩ := hphase.exists_statement hopened.length_add hparen
      have hp := (hdone.mono 1).append (.cons hs (.nil _))
      exact ⟨_, _, by simpa using hp⟩

end StraightLine
