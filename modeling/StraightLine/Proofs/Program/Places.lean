import StraightLine.Proofs.Code.Lowering
import StraightLine.Proofs.Scope.Discipline
import StraightLine.Semantics

/-! Programs up to the places of their parts. Neither the meaning of a program nor its code nor the
discipline of its names depends on a place. -/
namespace StraightLine

namespace Expr

/-- The same expression with every part at the start of the text. -/
def unplaced : Expr → Expr
  | .number n _ => .number n .start
  | .var x _ => .var x .start
  | .binary op a b _ => .binary op a.unplaced b.unplaced .start

@[simp] theorem operatorCount_unplaced (e : Expr) : e.unplaced.operatorCount = e.operatorCount := by
  induction e with
  | number n l => simp [unplaced]
  | var x l => simp [unplaced]
  | binary op a b l iha ihb => simp [unplaced, iha, ihb]

@[simp] theorem eval_unplaced (arith : Arithmetic) (σ : Store) (e : Expr) :
    e.unplaced.eval arith σ = e.eval arith σ := by
  induction e with
  | number n l => rfl
  | var x l => rfl
  | binary op a b l iha ihb => simp only [unplaced, eval, iha, ihb]

@[simp] theorem operandAfter_unplaced (k : Nat) (e : Expr) :
    e.unplaced.operandAfter k = e.operandAfter k := by
  cases e with
  | number n l => rfl
  | var x l => rfl
  | binary op a b l => simp [unplaced, operandAfter]

@[simp] theorem codeAfter_unplaced (k : Nat) (e : Expr) :
    e.unplaced.codeAfter k = e.codeAfter k := by
  induction e generalizing k with
  | number n l => rfl
  | var x l => rfl
  | binary op a b l iha ihb => simp [unplaced, codeAfter, iha, ihb]

theorem mentions_unplaced (x : String) (e : Expr) : e.unplaced.Mentions x ↔ e.Mentions x := by
  simp only [mentions_iff_mem_uses]
  induction e with
  | number n l => simp [unplaced]
  | var y l => simp [unplaced]
  | binary op a b l iha ihb => simp [unplaced, exists_or, iha, ihb]

end Expr

namespace Statement

def unplaced (s : Statement) : Statement := ⟨⟨s.form, s.name, .start⟩, s.value.unplaced⟩

theorem declaredNames_unplaced (s : Statement) :
    Program.declaredNames [s.unplaced] = Program.declaredNames [s] := by
  by_cases hs : s.form = .declaration
  · simp [Program.declaredNames, Program.declarations, unplaced, hs, Symbol.declared]
  · simp [Program.declaredNames, Program.declarations, unplaced, hs]

theorem admitted_unplaced (known : List String) (s : Statement) :
    s.unplaced.Admitted known ↔ s.Admitted known := by
  have huses : ∀ x, s.unplaced.value.Mentions x ↔ s.value.Mentions x := fun x =>
    s.value.mentions_unplaced x
  constructor
  · intro h
    refine ⟨?_, h.target, ?_⟩
    · rw [← declaredNames_unplaced]
      exact h.fresh
    · intro x hx
      rw [← declaredNames_unplaced]
      exact h.uses x ((huses x).2 hx)
  · intro h
    refine ⟨?_, h.target, ?_⟩
    · rw [declaredNames_unplaced]
      exact h.fresh
    · intro x hx
      rw [declaredNames_unplaced]
      exact h.uses x ((huses x).1 hx)

end Statement

namespace Program

def unplaced (p : Program) : Program := p.map Statement.unplaced

theorem exec_unplaced (arith : Arithmetic) (p : Program) (σ : Store) :
    p.unplaced.exec arith σ = p.exec arith σ := by
  induction p generalizing σ with
  | nil => rfl
  | cons s p ih =>
    change Program.exec arith (s.unplaced :: Program.unplaced p) σ = _
    simp only [exec, Statement.unplaced, Expr.eval_unplaced, ih]

theorem codeAfter_unplaced (k : Nat) (p : Program) :
    Program.codeAfter k p.unplaced = Program.codeAfter k p := by
  induction p generalizing k with
  | nil => rfl
  | cons s p ih =>
    change Program.codeAfter k (s.unplaced :: Program.unplaced p) = _
    simp only [codeAfter, Statement.codeAfter, Statement.unplaced, Expr.codeAfter_unplaced,
      Expr.operandAfter_unplaced, Expr.operatorCount_unplaced, ih]

theorem declaredNames_unplaced (p : Program) : p.unplaced.declaredNames = p.declaredNames := by
  induction p with
  | nil => rfl
  | cons s p ih =>
    change Program.declaredNames (s.unplaced :: Program.unplaced p) = _
    rw [declaredNames_cons, declaredNames_cons s, Statement.declaredNames_unplaced, ih]

theorem disciplined_unplaced (known : List String) (p : Program) :
    p.unplaced.Disciplined known ↔ p.Disciplined known := by
  induction p generalizing known with
  | nil => exact Iff.rfl
  | cons s p ih =>
    change Program.Disciplined known (s.unplaced :: Program.unplaced p) ↔ _
    rw [disciplined_cons, disciplined_cons, Statement.admitted_unplaced,
      Statement.declaredNames_unplaced, ih]

end Program

end StraightLine
