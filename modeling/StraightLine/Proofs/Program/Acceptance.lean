import StraightLine.Proofs.Program.Derivation

/-! The reader accepts the sentences of the grammar and no others, and gives each its tree. One way,
a derivation tells the reader how to move; the other way, a reader between statements covers a
derivation of all it has taken. -/
namespace StraightLine

open Grammar (Factor Product Sum)

namespace Reader

/-- How a reader takes the tokens of a factor, if there is room for `d` more parentheses. -/
def TakesFactor (d : Nat) (w : List Token) (e : Expr) : Prop :=
  ∀ (done : List Statement) (target : Target) (level : Level) (outer : List Level),
    outer.length + d ≤ maxNesting →
      steps ⟨done, .factor target level outer⟩ w = .ok ⟨done, .read target level outer e⟩

def TakesProduct (d : Nat) (w : List Token) (e : Expr) : Prop :=
  ∀ (done : List Statement) (target : Target) (sum : Option Pending) (outer : List Level),
    outer.length + d ≤ maxNesting →
      steps ⟨done, .factor target ⟨sum, none⟩ outer⟩ w = .ok ⟨done, .operator target sum e outer⟩

/-- The last product of a sum is not yet taken into it. -/
def TakesSum (d : Nat) (w : List Token) (e : Expr) : Prop :=
  ∀ (done : List Statement) (target : Target) (outer : List Level),
    outer.length + d ≤ maxNesting → ∃ sum product,
      steps ⟨done, .factor target Phase.fresh outer⟩ w =
        .ok ⟨done, .operator target sum product outer⟩ ∧ Pending.close sum product = e

theorem takesFactor_paren {d : Nat} {w : List Token} {e : Expr} (opening closing : Location)
    (h : TakesSum d w e) :
    TakesFactor (d + 1) (⟨.lparen, opening⟩ :: w ++ [⟨.rparen, closing⟩]) e := by
  intro done target level outer hd
  have hlt : outer.length < maxNesting := by omega
  have hopen : step ⟨done, .factor target level outer⟩ ⟨.lparen, opening⟩ =
      .ok ⟨done, .factor target Phase.fresh (level :: outer)⟩ := by
    simp [step, hlt]
  obtain ⟨sum, product, hsteps, rfl⟩ :=
    h done target (level :: outer) (by rw [List.length_cons]; omega)
  rw [List.cons_append, steps_cons_of_ok hopen, steps_append_of_ok hsteps]
  rfl

theorem takesProduct_apply {d : Nat} {u v : List Token} {a b : Expr} (op : Operator)
    (l : Location) (hop : op.isProduct = true) (ha : TakesProduct d u a) (hb : TakesFactor d v b) :
    TakesProduct d (u ++ ⟨.operator op, l⟩ :: v) (.binary op a b l) := by
  intro done target sum outer hd
  have happly : step ⟨done, .operator target sum a outer⟩ ⟨.operator op, l⟩ =
      .ok ⟨done, .factor target ⟨sum, some ⟨a, op, l⟩⟩ outer⟩ := by
    simp [step, Phase.applied, hop]
  rw [steps_append_of_ok (ha done target sum outer hd), steps_cons_of_ok happly,
    hb done target ⟨sum, some ⟨a, op, l⟩⟩ outer hd]
  rfl

theorem takesSum_apply {d : Nat} {u v : List Token} {a b : Expr} (op : Operator) (l : Location)
    (hop : op.isProduct = false) (ha : TakesSum d u a) (hb : TakesProduct d v b) :
    TakesSum d (u ++ ⟨.operator op, l⟩ :: v) (.binary op a b l) := by
  intro done target outer hd
  obtain ⟨sum, product, hsteps, rfl⟩ := ha done target outer hd
  have happly : step ⟨done, .operator target sum product outer⟩ ⟨.operator op, l⟩ =
      .ok ⟨done, .factor target ⟨some ⟨Pending.close sum product, op, l⟩, none⟩ outer⟩ := by
    simp [step, Phase.applied, hop]
  refine ⟨some ⟨Pending.close sum product, op, l⟩, b, ?_, rfl⟩
  rw [steps_append_of_ok hsteps, steps_cons_of_ok happly, hb done target _ outer hd]

theorem takesSum {d : Nat} {w : List Token} {e : Expr} (h : Sum d w e) : TakesSum d w e := by
  refine @Grammar.Sum.rec (fun d w e _ => TakesFactor d w e) (fun d w e _ => TakesProduct d w e)
    (fun d w e _ => TakesSum d w e) ?number ?var ?paren ?factor ?mul ?product ?add d w e h
  case number =>
    intro d n l done target level outer hd
    rfl
  case var =>
    intro d x l done target level outer hd
    rfl
  case paren =>
    intro d w e opening closing _ ih
    exact takesFactor_paren opening closing ih
  case factor =>
    intro d w e _ ih done target sum outer hd
    exact ih done target ⟨sum, none⟩ outer hd
  case mul =>
    intro d u v a b op l hop _ _ iha ihb
    exact takesProduct_apply op l hop iha ihb
  case product =>
    intro d w e _ ih done target outer hd
    exact ⟨none, e, ih done target none outer hd, rfl⟩
  case add =>
    intro d u v a b op l hop _ _ iha ihb
    exact takesSum_apply op l hop iha ihb

theorem steps_statement {w : List Token} {s : Statement}
    (h : Grammar.Statement maxNesting w s) (done : List Statement) :
    steps ⟨done, .start⟩ w = .ok ⟨s :: done, .start⟩ := by
  cases h with
  | @declaration w e x keyword name equals stop hsum =>
    obtain ⟨sum, product, hsteps, rfl⟩ :=
      takesSum hsum done ⟨.declaration, x, name⟩ [] (by simp)
    change steps ⟨done, .factor ⟨.declaration, x, name⟩ Phase.fresh []⟩ (w ++ _) = _
    rw [steps_append_of_ok hsteps]
    rfl
  | @assignment w e x name equals stop hsum =>
    obtain ⟨sum, product, hsteps, rfl⟩ :=
      takesSum hsum done ⟨.assignment, x, name⟩ [] (by simp)
    change steps ⟨done, .factor ⟨.assignment, x, name⟩ Phase.fresh []⟩ (w ++ _) = _
    rw [steps_append_of_ok hsteps]
    rfl

theorem steps_program {w : List Token} {p : Program} (h : Grammar.Program maxNesting w p)
    (done : List Statement) : steps ⟨done, .start⟩ w = .ok ⟨p.reverse ++ done, .start⟩ := by
  induction h generalizing done with
  | nil => rfl
  | cons hs hp ih =>
    rw [steps_append_of_ok (steps_statement hs done), ih]
    simp

/-- A reader is between statements just after the sentences, with their trees. -/
theorem steps_init_eq_start_iff (w : List Token) (done : List Statement) :
    init.steps w = .ok ⟨done, .start⟩ ↔ Grammar.Program maxNesting w done.reverse := by
  constructor
  · intro h
    cases covers_init.steps h with
    | mk hdone hphase =>
      cases hphase
      simpa using hdone
  · intro h
    have hsteps := steps_program h []
    rw [List.reverse_reverse, List.append_nil] at hsteps
    exact hsteps

end Reader

/-- Only the tokens before the first end matter, and they are read as a program whose sentence they
are. -/
theorem Program.ofTokens_eq_ok_iff_sentence (ts : List Token) (p : Program) :
    Program.ofTokens ts = .ok p ↔
      Grammar.Program maxNesting (ts.takeWhile fun t => !t.isEof) p := by
  rw [Program.ofTokens_eq_ok_iff_steps]
  constructor
  · intro h
    obtain ⟨done, hsteps, rfl⟩ := h
    exact (Reader.steps_init_eq_start_iff _ done).1 hsteps
  · intro h
    refine ⟨p.reverse, (Reader.steps_init_eq_start_iff _ _).2 ?_, by simp⟩
    simpa using h

theorem takeWhile_concat_eof {w : List Token} {t : Token} (hw : ∀ t ∈ w, t.isEof = false)
    (ht : t.isEof = true) : (w ++ [t]).takeWhile (fun t => !t.isEof) = w := by
  rw [List.takeWhile_append_of_pos]
  · simp [ht]
  · simpa using hw

/-- A list of tokens is read as the program `p` exactly if what stands before its first end is a
sentence with at most `maxNesting` parentheses open at once and `p` is its tree. Such a sentence has
one tree only. -/
theorem Program.ofTokens_eq_ok_iff (ts : List Token) (p : Program) :
    (Program.ofTokens ts = .ok p ↔
      Grammar.Program maxNesting (ts.takeWhile fun t => !t.isEof) p) ∧
    (Grammar.Program maxNesting (ts.takeWhile fun t => !t.isEof) p →
      ∀ q, Grammar.Program maxNesting (ts.takeWhile fun t => !t.isEof) q → q = p) := by
  refine ⟨Program.ofTokens_eq_ok_iff_sentence ts p, ?_⟩
  intro hp q hq
  have h := (Program.ofTokens_eq_ok_iff_sentence ts p).2 hp
  rw [(Program.ofTokens_eq_ok_iff_sentence ts q).2 hq] at h
  exact Except.ok.inj h

end StraightLine
