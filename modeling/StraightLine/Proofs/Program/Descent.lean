import StraightLine.Program.Descent
import StraightLine.Proofs.Program.Misfit

/-! Recursive descent and the reader read alike. At tokens that have an end, each rule comes to an end
itself, with as many parentheses open as before, and the reader, taking the same tokens, gets from the
phase in which the rule is due to the phase in which what it reads has been read. -/
namespace StraightLine

/-- The last of the tokens is an end. -/
def Ended (v : List Token) : Prop := v.getLast?.any Token.isEof = true

theorem Ended.exists_cons {v : List Token} (h : Ended v) : ∃ t ts, v = t :: ts := by
  cases v with
  | nil => cases h
  | cons t ts => exact ⟨t, ts, rfl⟩

theorem Ended.tail {t : Token} {v : List Token} (h : Ended (t :: v)) (ht : t.isEof = false) :
    Ended v := by
  cases v with
  | nil => simp [Ended, ht] at h
  | cons t' v => rwa [Ended, List.getLast?_cons_cons] at h

namespace Reader

theorem isEof_of_step_eq_ok {r r' : Reader} {t : Token} (h : r.step t = .ok r') :
    t.isEof = false := by
  obtain ⟨done, phase⟩ := r
  cases move_of_step h <;> rfl

theorem run_cons_of_ok {r r' : Reader} {t : Token} (h : r.step t = .ok r') (stop : Location)
    (v : List Token) : r.run stop (t :: v) = r'.run stop v := by
  rw [run, isEof_of_step_eq_ok h, if_neg Bool.false_ne_true, h]

/-- A token that does not fit stops the run, an end in the middle of a statement too. -/
theorem run_cons_of_error {r : Reader} {t : Token} {e : GrammarError} (h : r.step t = .error e)
    (hphase : t.isEof = true → r.phase ≠ .start) (stop : Location) (v : List Token) :
    r.run stop (t :: v) = (.error e, t :: v) := by
  rw [run]
  split
  next ht =>
    rw [step_eq_error h, finish]
    split
    next hstart => exact absurd hstart (hphase ht)
    next => rfl
  next => rw [h]

end Reader

namespace Descent

/-- Between the tokens `u`, which are passed, and `v`, with `k` parentheses open. -/
def between (u v : List Token) (k : Nat) : Descent := ⟨u ++ v, u.length, k⟩

section Rules

variable {α β : Type} {x : Rule α} {f : α → Rule β} {d d' : Descent}

theorem bind_of_ok {a : α} (h : x d = some (.ok a, d')) : (x >>= f) d = f a d' := by
  change (x d >>= _) = _
  rw [h]
  rfl

theorem bind_of_error {e : GrammarError} (h : x d = some (.error e, d')) :
    (x >>= f) d = some (.error e, d') := by
  change (x d >>= _) = _
  rw [h]
  rfl

end Rules

theorem peek_between (u : List Token) (t : Token) (v : List Token) (k : Nat) :
    peek (between u (t :: v) k) = some (.ok t, between u (t :: v) k) := by
  simp [peek, look, between]

theorem advance_between {t : Token} (ht : t.isEof = false) (u v : List Token) (k : Nat) :
    advance (between u (t :: v) k) = some (.ok t, between (u ++ [t]) v k) := by
  rw [advance, bind_of_ok (peek_between u t v k), ht, if_neg Bool.false_ne_true]
  have hmodify : (modify fun d => { d with position := d.position + 1 } : Rule Unit)
      (between u (t :: v) k) = some (.ok (), between (u ++ [t]) v k) := by
    simp [between]
    rfl
  rw [bind_of_ok hmodify]
  simp [previous, look, between]

theorem enter_between {k : Nat} (h : k < maxNesting) (u v : List Token) :
    (between u v k).enter = some (between u v (k + 1)) := if_pos h

theorem leave_between (u v : List Token) (k : Nat) :
    (between u v (k + 1)).leave = some (between u v k) := if_pos (Nat.succ_pos k)

section Follows

variable {α β : Type} {stop : Location} {r r' : Reader} {u v : List Token} {k : Nat}
variable {x : Rule α} {Q : α → List Token → Reader → Prop}

/-- Where a rule has stopped, at `v'`, so has the reader `r` on its way through `v`: with the same
error, or ready to go on, in the way that `Q` says for what the rule has read. -/
def Agrees (stop : Location) (r : Reader) (v : List Token) (Q : α → List Token → Reader → Prop)
    (v' : List Token) : Except GrammarError α → Prop
  | .ok a => ∃ r', r.run stop v = r'.run stop v' ∧ Q a v' r'
  | .error e => r.run stop v = (.error e, v')

/-- What a rule does at the tokens `v`: it comes to an end, as deep in parentheses as before and with
an end still ahead, and the reader agrees with it. -/
def Follows (stop : Location) (r : Reader) (u v : List Token) (k : Nat) (x : Rule α)
    (Q : α → List Token → Reader → Prop) : Prop :=
  ∃ w v' result, v = w ++ v' ∧ Ended v' ∧
    x (between u v k) = some (result, between (u ++ w) v' k) ∧ Agrees stop r v Q v' result

theorem Agrees.of_run_eq {v₁ v' : List Token} {result : Except GrammarError α}
    (h : Agrees stop r' v₁ Q v' result) (hrun : r.run stop v = r'.run stop v₁) :
    Agrees stop r v Q v' result := by
  cases result with
  | ok a =>
    obtain ⟨r₁, hrest, ha⟩ := h
    exact ⟨r₁, hrun.trans hrest, ha⟩
  | error e => exact hrun.trans h

theorem follows_pure {a : α} (hv : Ended v) (ha : Q a v r) :
    Follows stop r u v k (pure a) Q :=
  ⟨[], v, .ok a, rfl, hv, by rw [List.append_nil]; rfl, r, rfl, ha⟩

theorem follows_throw {e : GrammarError} (hv : Ended v) (hrun : r.run stop v = (.error e, v)) :
    Follows stop r u v k (throw e) Q :=
  ⟨[], v, .error e, rfl, hv, by rw [List.append_nil]; rfl, hrun⟩

theorem Follows.congr {y : Rule α} (hx : x (between u v k) = y (between u v k))
    (h : Follows stop r u v k y Q) : Follows stop r u v k x Q := by
  obtain ⟨w, v', result, hv, hend, hy, hagrees⟩ := h
  exact ⟨w, v', result, hv, hend, hx.trans hy, hagrees⟩

theorem Follows.mono {Q' : α → List Token → Reader → Prop} (h : Follows stop r u v k x Q)
    (hQ : ∀ a v' r', Q a v' r' → Q' a v' r') : Follows stop r u v k x Q' := by
  obtain ⟨w, v', result, hv, hend, hx, hagrees⟩ := h
  refine ⟨w, v', result, hv, hend, hx, ?_⟩
  cases result with
  | ok a =>
    obtain ⟨r', hrun, ha⟩ := hagrees
    exact ⟨r', hrun, hQ a v' r' ha⟩
  | error e => exact hagrees

/-- A token that fits is taken. -/
theorem Follows.cons {y : Rule α} {t : Token} (hstep : r.step t = .ok r')
    (hx : x (between u (t :: v) k) = y (between (u ++ [t]) v k))
    (h : Follows stop r' (u ++ [t]) v k y Q) : Follows stop r u (t :: v) k x Q := by
  obtain ⟨w, v', result, hv, hend, hy, hagrees⟩ := h
  refine ⟨t :: w, v', result, by rw [hv, List.cons_append], hend, ?_,
    hagrees.of_run_eq (Reader.run_cons_of_ok hstep stop v)⟩
  rw [hx, hy, List.append_assoc, List.singleton_append]

theorem Follows.bind {f : α → Rule β} {Q' : β → List Token → Reader → Prop}
    (h : Follows stop r u v k x Q)
    (hf : ∀ a w v' r', v = w ++ v' → Ended v' → Q a v' r' →
      Follows stop r' (u ++ w) v' k (f a) Q') :
    Follows stop r u v k (x >>= f) Q' := by
  obtain ⟨w, v₁, result, hv, hend, hx, hagrees⟩ := h
  cases result with
  | ok a =>
    obtain ⟨r₁, hrun, ha⟩ := hagrees
    obtain ⟨w', v₂, result, hv₁, hend₂, hy, hagrees⟩ := hf a w v₁ r₁ hv hend ha
    refine ⟨w ++ w', v₂, result, by rw [hv, hv₁, List.append_assoc], hend₂, ?_,
      hagrees.of_run_eq hrun⟩
    rw [bind_of_ok hx, hy, List.append_assoc]
  | error e => exact ⟨w, v₁, .error e, hv, hend, bind_of_error hx, hagrees⟩

/-- A parenthesis that is entered is left again, also where what is inside it fails. -/
theorem Follows.inside (hk : k < maxNesting) (h : Follows stop r u v (k + 1) x Q) :
    Follows stop r u v k
      (fun d => do
        let inside ← x (← d.enter)
        return (inside.1, ← inside.2.leave)) Q := by
  obtain ⟨w, v', result, hv, hend, hx, hagrees⟩ := h
  refine ⟨w, v', result, hv, hend, ?_, hagrees⟩
  simp only [enter_between hk, hx, leave_between, Option.bind_eq_bind, Option.bind_some,
    Option.pure_def]

/-- The one token of a class that fits. -/
theorem follows_expect {c : Token.Class} (r' : Reader) (hv : Ended v) (hphase : r.phase ≠ .start)
    (hfit : ∀ t ∈ v.head?, t.kind.toClass = c → r.step t = .ok r')
    (hmisfit : ∀ t ∈ v.head?, t.kind.toClass ≠ c →
      r.step t = .error (.unexpectedToken c.name t.kind t.location)) :
    Follows stop r u v k (expect c) fun _ v' q => q = r' ∧ v'.length < v.length := by
  obtain ⟨t, v, rfl⟩ := hv.exists_cons
  by_cases ht : t.kind.toClass = c
  · have hstep := hfit t rfl ht
    have heof := Reader.isEof_of_step_eq_ok hstep
    refine .cons (y := pure ()) hstep ?_ (follows_pure (hv.tail heof) ⟨rfl, Nat.lt_succ_self _⟩)
    rw [expect, bind_of_ok (peek_between u t v k), if_pos ht,
      bind_of_ok (advance_between heof u v k)]
  · refine .congr (y := throw _) ?_
      (follows_throw hv (Reader.run_cons_of_error (hmisfit t rfl ht) (fun _ => hphase) stop v))
    rw [expect, bind_of_ok (peek_between u t v k), if_neg ht]

end Follows

/-- The operator that comes next, if one does. -/
def due : List Token → Option Operator
  | ⟨.operator op, _⟩ :: _ => some op
  | _ => none

theorem mem_due_cons {t : Token} {v : List Token} {op : Operator} :
    op ∈ due (t :: v) ↔ t.kind = .operator op := by
  obtain ⟨kind, l⟩ := t
  cases kind <;> simp [due]

/-- No operator binds less tightly than one of a sum. -/
theorem kind_ne_operator {t : Token} {v : List Token} (h : ∀ op ∈ due v, op.isProduct < false)
    (ht : t ∈ v.head?) (op : Operator) : t.kind ≠ .operator op := by
  intro hkind
  cases v with
  | nil => cases ht
  | cons t' v =>
    cases ht
    exact absurd (h op (mem_due_cons.2 hkind)) (by cases op <;> decide)

theorem operator?_of_due {tight : Bool} {u : List Token} {t : Token} {v : List Token} {k : Nat}
    {op : Operator} (h : t.kind = .operator op) (hop : op.isProduct = tight) :
    operator? tight (between u (t :: v) k) =
      some (.ok (some (op, t.location)), between (u ++ [t]) v k) := by
  have heof : t.isEof = false := by simp [Token.isEof, h]
  rw [operator?, bind_of_ok (peek_between u t v k)]
  simp only [h, if_pos hop]
  rw [bind_of_ok (advance_between heof u v k)]
  rfl

theorem operator?_of_not_due {tight : Bool} {u v : List Token} {k : Nat} (hv : Ended v)
    (h : ∀ op ∈ due v, op.isProduct ≠ tight) :
    operator? tight (between u v k) = some (.ok none, between u v k) := by
  obtain ⟨⟨kind, l⟩, v, rfl⟩ := hv.exists_cons
  rw [operator?, bind_of_ok (peek_between u _ v k)]
  cases kind with
  | operator op => simp only [if_neg (h op rfl)]; rfl
  | _ => rfl

/-- The readers that have read an operand, of a product if `tight`, and with it the chain `left`. The
operators of a product leave alone what waits for the whole of it. -/
inductive Holds (done : List Statement) (target : Target) (waiting : Option Pending)
    (outer : List Level) : Bool → Expr → Reader → Prop
  | product (left : Expr) :
    Holds done target waiting outer true left ⟨done, .operator target waiting left outer⟩
  | sum (sum : Option Pending) (product : Expr) :
    Holds done target waiting outer false (Pending.close sum product)
      ⟨done, .operator target sum product outer⟩

section Chains

variable {stop : Location} {n : Nat} {tight : Bool} {v : List Token} {done : List Statement}
variable {target : Target} {waiting : Option Pending} {outer : List Level}

/-- An operator of the chain puts the reader before the next operand. -/
theorem Holds.applied {left : Expr} {r : Reader} {t : Token} {op : Operator}
    (h : Holds done target waiting outer tight left r) (ht : t.kind = .operator op)
    (hop : op.isProduct = tight) :
    ∃ level : Level, r.step t = .ok ⟨done, .factor target level outer⟩ ∧
      (tight = false → level.product = none) ∧
      ∀ e, Holds done target waiting outer tight (.binary op left e t.location)
        ⟨done, .read target level outer e⟩ := by
  obtain ⟨kind, l⟩ := t
  cases ht
  cases h with
  | product =>
    refine ⟨⟨waiting, some ⟨left, op, l⟩⟩, ?_, nofun, fun e => .product _⟩
    simp [Reader.step, Phase.applied, hop]
  | sum sum product =>
    refine ⟨⟨some ⟨Pending.close sum product, op, l⟩, none⟩, ?_, fun _ => rfl,
      fun e => .sum (some ⟨Pending.close sum product, op, l⟩) e⟩
    simp [Reader.step, Phase.applied, hop]

def FactorFollows (stop : Location) (n : Nat) (v : List Token) : Prop :=
  ∀ (done : List Statement) (target : Target) (level : Level) (outer : List Level) (u : List Token),
    Follows stop ⟨done, .factor target level outer⟩ u v outer.length (factor n)
      fun e _ r => r = ⟨done, .read target level outer e⟩

/-- Behind an operand no operator comes that binds more tightly than those of the chain. -/
def OperandFollows (stop : Location) (n : Nat) (tight : Bool) (v : List Token) : Prop :=
  ∀ (done : List Statement) (target : Target) (level : Level) (outer : List Level) (u : List Token),
    (tight = false → level.product = none) →
    Follows stop ⟨done, .factor target level outer⟩ u v outer.length (operand n tight)
      fun e v' r => r = ⟨done, .read target level outer e⟩ ∧ ∀ op ∈ due v', op.isProduct ≤ tight

def ExtendFollows (stop : Location) (n : Nat) (tight : Bool) (v : List Token) : Prop :=
  ∀ (done : List Statement) (target : Target) (waiting : Option Pending) (outer : List Level)
    (left : Expr) (r : Reader) (u : List Token), Holds done target waiting outer tight left r →
    (∀ op ∈ due v, op.isProduct ≤ tight) →
    Follows stop r u v outer.length (extend n tight left)
      fun e v' r => Holds done target waiting outer tight e r ∧ ∀ op ∈ due v', op.isProduct < tight

def ChainFollows (stop : Location) (n : Nat) (tight : Bool) (v : List Token) : Prop :=
  ∀ (done : List Statement) (target : Target) (waiting : Option Pending) (outer : List Level)
    (u : List Token), (tight = false → waiting = none) →
    Follows stop ⟨done, .factor target ⟨waiting, none⟩ outer⟩ u v outer.length (chain n tight)
      fun e v' r => Holds done target waiting outer tight e r ∧ ∀ op ∈ due v', op.isProduct < tight

theorem follows_chain (hoperand : OperandFollows stop n tight v)
    (hextend : ∀ v', Ended v' → v'.length ≤ v.length → ExtendFollows stop n tight v') :
    ChainFollows stop (n + 1) tight v := by
  intro done target waiting outer u hwaiting
  rw [chain]
  refine (hoperand done target ⟨waiting, none⟩ outer u (fun _ => rfl)).bind ?_
  rintro e w v' r hsplit hv' ⟨rfl, hdue⟩
  have hlength : v.length = w.length + v'.length := by rw [hsplit, List.length_append]
  refine hextend v' hv' (by omega) done target waiting outer e _ _ ?_ hdue
  cases tight with
  | true => exact .product e
  | false =>
    rw [hwaiting rfl]
    exact .sum none e

theorem follows_extend (hv : Ended v)
    (hoperand : ∀ v', Ended v' → v'.length < v.length → OperandFollows stop n tight v')
    (hextend : ∀ v', Ended v' → v'.length < v.length → ExtendFollows stop n tight v') :
    ExtendFollows stop (n + 1) tight v := by
  intro done target waiting outer left r u hr hdue
  rw [extend]
  obtain ⟨t, v, rfl⟩ := hv.exists_cons
  rw [List.length_cons] at hoperand hextend
  by_cases hoperator : ∃ op, t.kind = .operator op ∧ op.isProduct = tight
  · obtain ⟨op, ht, hop⟩ := hoperator
    obtain ⟨level, hstep, hlevel, hnext⟩ := hr.applied ht hop
    have hrest : Ended v := hv.tail (Reader.isEof_of_step_eq_ok hstep)
    refine .cons hstep (bind_of_ok (operator?_of_due ht hop))
      ((hoperand v hrest (by omega) done target level outer _ hlevel).bind ?_)
    rintro e w v' r hsplit hv' ⟨rfl, hdue'⟩
    have hlength : v.length = w.length + v'.length := by rw [hsplit, List.length_append]
    exact hextend v' hv' (by omega) done target waiting outer _ _ _ (hnext e) hdue'
  · have hnone : ∀ op ∈ due (t :: v), op.isProduct ≠ tight :=
      fun op hop htight => hoperator ⟨op, mem_due_cons.1 hop, htight⟩
    exact .congr (bind_of_ok (operator?_of_not_due hv hnone)) (follows_pure hv
      ⟨hr, fun op hop => Bool.lt_of_le_of_ne (hdue op hop) (hnone op hop)⟩)

theorem follows_operand_factor (h : FactorFollows stop n v) :
    OperandFollows stop (n + 1) true v := by
  intro done target level outer u _
  rw [operand, if_pos rfl]
  exact (h done target level outer u).mono fun e v' r hr => ⟨hr, fun op _ => Bool.le_true _⟩

theorem follows_operand_product (h : ChainFollows stop n true v) :
    OperandFollows stop (n + 1) false v := by
  rintro done target ⟨sum, product⟩ outer u hproduct
  cases hproduct rfl
  rw [operand, if_neg Bool.false_ne_true]
  refine (h done target sum outer u nofun).mono ?_
  rintro e v' r ⟨⟨⟩, hdue⟩
  have hle : ∀ b : Bool, b < true → b ≤ false := by decide
  exact ⟨rfl, fun op hop => hle _ (hdue op hop)⟩

theorem follows_factor (hv : Ended v)
    (hsum : ∀ v', Ended v' → v'.length < v.length → ChainFollows stop n false v') :
    FactorFollows stop (n + 1) v := by
  intro done target level outer u
  rw [factor]
  obtain ⟨⟨kind, l⟩, v, rfl⟩ := hv.exists_cons
  have hpeek := peek_between u ⟨kind, l⟩ v outer.length
  cases kind with
  | integer i =>
    refine .cons (y := pure _) rfl ?_ (follows_pure (hv.tail rfl) rfl)
    rw [bind_of_ok hpeek]
    exact bind_of_ok (advance_between (t := ⟨.integer i, l⟩) rfl u v outer.length)
  | identifier x =>
    refine .cons (y := pure _) rfl ?_ (follows_pure (hv.tail rfl) rfl)
    rw [bind_of_ok hpeek]
    exact bind_of_ok (advance_between (t := ⟨.identifier x, l⟩) rfl u v outer.length)
  | lparen =>
    have hget : (get : Rule Descent) (between u (⟨.lparen, l⟩ :: v) outer.length) =
        some (.ok (between u (⟨.lparen, l⟩ :: v) outer.length), _) := rfl
    by_cases hlt : outer.length < maxNesting
    · have hstep : Reader.step ⟨done, .factor target level outer⟩ ⟨.lparen, l⟩ =
          .ok ⟨done, .factor target Phase.fresh (level :: outer)⟩ := if_pos hlt
      have hinside := hsum v (hv.tail rfl) (Nat.lt_succ_self _) done target none (level :: outer)
        (u ++ [⟨.lparen, l⟩]) (fun _ => rfl)
      refine .cons hstep ?_
        ((hinside.inside hlt).bind (f := fun e => do expect .rparen; return e) ?_)
      · rw [bind_of_ok hpeek]
        exact (bind_of_ok hget).trans ((congrFun (if_pos hlt) _).trans
          (bind_of_ok (advance_between (t := ⟨.lparen, l⟩) rfl u v outer.length)))
      · rintro e w v' r - hv' ⟨hholds, hdue⟩
        cases hholds with
        | sum sum product =>
          refine (follows_expect ⟨done, .read target level outer (Pending.close sum product)⟩
            hv' (by simp) ?_ ?_).bind ?_
          · rintro ⟨kind, l⟩ - hkind
            cases kind <;> cases hkind
            rfl
          · rintro ⟨kind, l⟩ hhead hkind
            cases kind with
            | operator op => exact absurd rfl (kind_ne_operator hdue hhead op)
            | rparen => exact absurd rfl hkind
            | _ => rfl
          · rintro - w v'' r - hv'' ⟨rfl, -⟩
            exact follows_pure hv'' rfl
    · have hstep : Reader.step ⟨done, .factor target level outer⟩ ⟨.lparen, l⟩ =
          .error (.nestingTooDeep maxNesting l) := if_neg hlt
      refine .congr (y := throw _) ?_
        (follows_throw hv (Reader.run_cons_of_error hstep (by simp) stop v))
      rw [bind_of_ok hpeek]
      exact (bind_of_ok hget).trans (congrFun (if_neg hlt) _)
  | _ =>
    refine .congr (y := throw _) (bind_of_ok hpeek) ?_
    exact follows_throw hv (Reader.run_cons_of_error rfl (by simp) stop v)

/-- With `n` rules allowed inside one another, each does what the reader does, at few enough
tokens. -/
structure RulesFollow (stop : Location) (n : Nat) : Prop where
  factor : ∀ v, Ended v → 5 * v.length < n → FactorFollows stop n v
  factors : ∀ v, Ended v → 5 * v.length + 1 < n → OperandFollows stop n true v
  extend : ∀ tight v, Ended v → 5 * v.length + 1 < n → ExtendFollows stop n tight v
  product : ∀ v, Ended v → 5 * v.length + 2 < n → ChainFollows stop n true v
  products : ∀ v, Ended v → 5 * v.length + 3 < n → OperandFollows stop n false v
  sum : ∀ v, Ended v → 5 * v.length + 4 < n → ChainFollows stop n false v

theorem rulesFollow (stop : Location) (n : Nat) : RulesFollow stop n := by
  induction n with
  | zero => exact ⟨nofun, nofun, nofun, nofun, nofun, nofun⟩
  | succ n ih =>
    have hoperand (tight : Bool) (v : List Token) (hv : Ended v) (hn : 5 * v.length + 3 < n) :
        OperandFollows stop n tight v := by
      cases tight with
      | true => exact ih.factors v hv (by omega)
      | false => exact ih.products v hv hn
    constructor
    case factor =>
      intro v hv hn
      exact follows_factor hv fun v' hv' _ => ih.sum v' hv' (by omega)
    case factors =>
      intro v hv hn
      exact follows_operand_factor (ih.factor v hv (by omega))
    case extend =>
      intro tight v hv hn
      exact follows_extend hv (fun v' hv' _ => hoperand tight v' hv' (by omega))
        fun v' hv' _ => ih.extend tight v' hv' (by omega)
    case product =>
      intro v hv hn
      exact follows_chain (ih.factors v hv (by omega))
        fun v' hv' _ => ih.extend true v' hv' (by omega)
    case products =>
      intro v hv hn
      exact follows_operand_product (ih.product v hv (by omega))
    case sum =>
      intro v hv hn
      exact follows_chain (ih.products v hv (by omega))
        fun v' hv' _ => ih.extend false v' hv' (by omega)

end Chains

section Statements

variable {stop : Location} {u v : List Token} {k : Nat} {done : List Statement}

/-- The readers that take a name as a target. -/
inductive AwaitsName (done : List Statement) (v : List Token) : Form → Reader → Prop
  | declaring : AwaitsName done v .declaration ⟨done, .declaring⟩
  | start : (∀ t ∈ v.head?, t.kind ≠ .var ∧ t.isEof = false) →
    AwaitsName done v .assignment ⟨done, .start⟩

theorem follows_form (hv : Ended v) (heof : ∀ t ∈ v.head?, t.isEof = false) :
    Follows stop ⟨done, .start⟩ u v k form fun f v' r => AwaitsName done v' f r := by
  obtain ⟨⟨kind, l⟩, v, rfl⟩ := hv.exists_cons
  have hpeek := peek_between u ⟨kind, l⟩ v k
  by_cases hkind : kind = .var
  · cases hkind
    refine .cons (y := pure _) rfl ?_ (follows_pure (hv.tail rfl) .declaring)
    rw [form, bind_of_ok hpeek]
    exact bind_of_ok (advance_between (t := ⟨.var, l⟩) rfl u v k)
  · refine .congr (y := pure _) ?_ (follows_pure hv (.start ?_))
    · rw [form, bind_of_ok hpeek]
      exact congrFun (if_neg hkind) _
    · rintro t ⟨⟩
      exact ⟨hkind, heof _ rfl⟩

theorem follows_name {f : Form} {r : Reader} (hv : Ended v) (hr : AwaitsName done v f r) :
    Follows stop r u v k name fun x _ q => q = ⟨done, .named ⟨f, x.1, x.2⟩⟩ := by
  obtain ⟨⟨kind, l⟩, v, rfl⟩ := hv.exists_cons
  have hpeek := peek_between u ⟨kind, l⟩ v k
  by_cases hkind : ∃ x, kind = .identifier x
  · obtain ⟨x, rfl⟩ := hkind
    have hstep : r.step ⟨.identifier x, l⟩ = .ok ⟨done, .named ⟨f, x, l⟩⟩ := by cases hr <;> rfl
    refine .cons (y := pure (x, l)) hstep ?_ (follows_pure (hv.tail rfl) rfl)
    rw [name, bind_of_ok hpeek]
    exact bind_of_ok (advance_between (t := ⟨.identifier x, l⟩) rfl u v k)
  · have hstep : r.step ⟨kind, l⟩ =
        .error (.unexpectedToken Token.Class.identifier.name kind l) := by
      cases hr with
      | declaring => cases kind <;> simp_all [Reader.step, Phase.refusal]
      | start h => cases kind <;> simp_all [Reader.step, Phase.refusal]
    have hphase : Token.isEof ⟨kind, l⟩ = true → r.phase ≠ .start := by
      cases hr with
      | declaring => simp
      | start h => simp [(h _ rfl).2]
    refine .congr (y := throw _) ?_
      (follows_throw hv (Reader.run_cons_of_error hstep hphase stop v))
    rw [name, bind_of_ok hpeek]
    cases kind with
    | identifier x => exact absurd ⟨x, rfl⟩ hkind
    | _ => rfl

theorem follows_statement (stop : Location) (done : List Statement) (u : List Token) (hv : Ended v)
    (heof : ∀ t ∈ v.head?, t.isEof = false) {n : Nat} (hn : 5 * v.length + 4 < n) :
    Follows stop ⟨done, .start⟩ u v 0 (statement n)
      fun s v' r => r = ⟨s :: done, .start⟩ ∧ v'.length < v.length := by
  refine (follows_form hv heof).bind ?_
  intro f w₁ v₁ r₁ h₁ hv₁ hawaits
  refine (follows_name hv₁ hawaits).bind ?_
  rintro x w₂ v₂ r₂ h₂ hv₂ rfl
  refine (follows_expect ⟨done, .factor ⟨f, x.1, x.2⟩ Phase.fresh []⟩ hv₂ (by simp)
    ?_ ?_).bind ?_
  · rintro ⟨kind, l⟩ - hkind
    cases kind <;> cases hkind
    rfl
  · rintro ⟨kind, l⟩ - hkind
    cases kind with
    | assign => exact absurd rfl hkind
    | _ => rfl
  rintro - w₃ v₃ r₃ h₃ hv₃ ⟨rfl, -⟩
  have hlength : v.length = w₁.length + (w₂.length + (w₃.length + v₃.length)) := by
    simp only [h₁, h₂, h₃, List.length_append]
  refine ((rulesFollow stop n).sum v₃ hv₃ (by omega) done ⟨f, x.1, x.2⟩ none [] _
    (fun _ => rfl)).bind ?_
  rintro e w₄ v₄ r₄ h₄ hv₄ ⟨hholds, hdue⟩
  cases hholds with
  | sum sum product =>
    refine (follows_expect ⟨⟨⟨f, x.1, x.2⟩, Pending.close sum product⟩ :: done, .start⟩
      hv₄ (by simp) ?_ ?_).bind ?_
    · rintro ⟨kind, l⟩ - hkind
      cases kind <;> cases hkind
      rfl
    · rintro ⟨kind, l⟩ hhead hkind
      cases kind with
      | operator op => exact absurd rfl (kind_ne_operator hdue hhead op)
      | semicolon => exact absurd rfl hkind
      | _ => rfl
    rintro - w₅ v₅ r₅ - hv₅ ⟨rfl, hlt⟩
    refine follows_pure hv₅ ⟨rfl, ?_⟩
    rw [hlength, h₄, List.length_append]
    omega

/-- The statements that recursive descent reads, and where it stops, are the reader's. -/
theorem statements_between (hv : Ended v) {n : Nat} (hn : 5 * v.length + 5 < n) :
    ∃ w, v = w ++ (Reader.run stop ⟨done, .start⟩ v).2 ∧
      statements n done (between u v 0) = some ((Reader.run stop ⟨done, .start⟩ v).1,
        between (u ++ w) (Reader.run stop ⟨done, .start⟩ v).2 0) := by
  induction n generalizing v u done with
  | zero => cases hn
  | succ n ih =>
    obtain ⟨t, ts, rfl⟩ := hv.exists_cons
    rw [statements, bind_of_ok (peek_between u t ts 0)]
    cases ht : t.isEof with
    | true =>
      have hrun : Reader.run stop ⟨done, .start⟩ (t :: ts) = (.ok done.reverse, t :: ts) := by
        rw [Reader.run, if_pos ht]
        rfl
      rw [hrun, if_pos rfl]
      exact ⟨[], rfl, by rw [List.append_nil]; rfl⟩
    | false =>
      rw [if_neg Bool.false_ne_true]
      obtain ⟨w, v', result, hsplit, hv', hx, hagrees⟩ :=
        follows_statement stop done u hv (by rintro _ ⟨⟩; exact ht) (n := n) (by omega)
      cases result with
      | ok s =>
        obtain ⟨r, hrun, rfl, hlt⟩ := hagrees
        obtain ⟨w', hw', hrest⟩ := ih hv' (by omega)
        refine ⟨w ++ w', ?_, ?_⟩
        · rw [hrun, List.append_assoc, ← hw', hsplit]
        · rw [bind_of_ok hx, hrest, hrun, List.append_assoc]
      | error e =>
        have hrun : Reader.run stop ⟨done, .start⟩ (t :: ts) = (.error e, v') := hagrees
        rw [hrun]
        exact ⟨w, hsplit, bind_of_error hx⟩

theorem program_between (stop : Location) (u : List Token) (hv : Ended v) :
    ∃ w, v = w ++ (Reader.init.run stop v).2 ∧
      program (between u v 0) = some ((Reader.init.run stop v).1,
        between (u ++ w) (Reader.init.run stop v).2 0) := by
  refine statements_between hv ?_
  simp only [between, List.length_append]
  omega

end Statements

end Descent

end StraightLine
