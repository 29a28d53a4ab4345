import StraightLine.Proofs.Code.Lowering
import StraightLine.Semantics

/-! Running the code of a program does what the program says. The code of an expression leaves the
variables and the temporaries taken before it alone, so a left operand is still there when the code
of the right one has run. -/
namespace StraightLine

namespace Machine

/-- The variables and the first `k` temporaries are as they were. -/
structure Keeps (k : Nat) (m m' : Machine) : Prop where
  vars : m'.vars = m.vars
  temps : ∀ n ≤ k, m'.temps n = m.temps n

theorem Keeps.refl (k : Nat) (m : Machine) : Keeps k m m := ⟨rfl, fun _ _ => rfl⟩

theorem Keeps.trans {j k : Nat} {m m' m'' : Machine} (h : Keeps j m m') (g : Keeps k m' m'')
    (hjk : j ≤ k) : Keeps j m m'' := by
  refine ⟨g.vars.trans h.vars, ?_⟩
  intro n hn
  exact (g.temps n (by omega)).trans (h.temps n hn)

theorem keeps_setTemp {k n : Nat} (m : Machine) (v : Int64) (h : k < n) :
    Keeps k m (m.setTemp n v) := by
  refine ⟨rfl, ?_⟩
  intro i hi
  have hne : i ≠ n := by omega
  simp [setTemp, hne]

theorem read_setTemp (m : Machine) (n : Nat) (v : Int64) :
    (m.setTemp n v).read (.temp n) = .ok v := by
  simp [read, setTemp]

/-- An operand outlives what keeps the temporaries taken up to its expression. -/
theorem Keeps.read_operandAfter {k : Nat} {e : Expr} {m m' : Machine}
    (h : Keeps (k + e.operatorCount) m m') :
    m'.read (e.operandAfter k) = m.read (e.operandAfter k) := by
  cases e with
  | number n l => rfl
  | var x l => simp [Expr.operandAfter, read, h.vars]
  | binary op a b l =>
    have ht := h.temps _ (Nat.le_refl _)
    simp only [Expr.operandAfter, read, ht]

/-- Code that ends with a value in the operand `x`, or stops where the value fails. Either way the
variables are as they were, and on the way no temporary is read before it is set. -/
def Computes (arith : Arithmetic) (k : Nat) (m : Machine) (code : List Instruction) (x : Operand) :
    Except Application Int64 → Prop
  | .ok v => ∃ m', runAll (step arith) m code = .ok m' ∧ Keeps k m m' ∧ m'.read x = .ok v
  | .error fault => ∃ m', runAll (step arith) m code = .error (.failed fault, m') ∧ m'.vars = m.vars

theorem run_binary (arith : Arithmetic) {m : Machine} {a b : Operand} {x y : Int64} (n : Nat)
    (op : Operator) (ha : m.read a = .ok x) (hb : m.read b = .ok y) :
    runAll (step arith) m [.binary n a op b] =
      match arith.apply op x y with
      | .ok v => .ok (m.setTemp n v)
      | .error fault => .error (.failed fault, m) := by
  simp only [runAll, step, ha, hb]
  cases arith.apply op x y <;> rfl

theorem computes_codeAfter (arith : Arithmetic) (e : Expr) (k : Nat) (m : Machine) :
    m.Computes arith k (e.codeAfter k) (e.operandAfter k) (e.eval arith m.vars) := by
  induction e generalizing k m with
  | number n l => exact ⟨m, rfl, .refl k m, rfl⟩
  | var x l => exact ⟨m, rfl, .refl k m, rfl⟩
  | binary op a b l iha ihb =>
    have hleft := iha k m
    simp only [Expr.eval, Expr.codeAfter, List.append_assoc]
    cases ha : a.eval arith m.vars with
    | error fault =>
      rw [ha] at hleft
      obtain ⟨m₁, hrun₁, hvars⟩ := hleft
      exact ⟨m₁, runAll_append_of_error hrun₁ _, hvars⟩
    | ok x =>
      rw [ha] at hleft
      obtain ⟨m₁, hrun₁, hkeep₁, hx⟩ := hleft
      have hright := ihb (k + a.operatorCount) m₁
      rw [hkeep₁.vars] at hright
      cases hb : b.eval arith m.vars with
      | error fault =>
        rw [hb] at hright
        obtain ⟨m₂, hrun₂, hvars⟩ := hright
        refine ⟨m₂, ?_, hvars.trans hkeep₁.vars⟩
        rw [runAll_append_of_ok hrun₁, runAll_append_of_error hrun₂]
      | ok y =>
        rw [hb] at hright
        obtain ⟨m₂, hrun₂, hkeep₂, hy⟩ := hright
        have hx₂ : m₂.read (a.operandAfter k) = .ok x := hkeep₂.read_operandAfter.trans hx
        have hkeep : Keeps k m m₂ := hkeep₁.trans hkeep₂ (by omega)
        have hrun := run_binary arith (k + (Expr.binary op a b l).operatorCount) op hx₂ hy
        change Computes arith k m _ _ (arith.apply op x y)
        cases hv : arith.apply op x y with
        | error fault =>
          rw [hv] at hrun
          refine ⟨m₂, ?_, hkeep.vars⟩
          rw [runAll_append_of_ok hrun₁, runAll_append_of_ok hrun₂, hrun]
        | ok v =>
          rw [hv] at hrun
          refine ⟨_, ?_, hkeep.trans (keeps_setTemp m₂ v ?_) (Nat.le_refl k), read_setTemp m₂ _ v⟩
          · rw [runAll_append_of_ok hrun₁, runAll_append_of_ok hrun₂, hrun]
          · simp only [Expr.operatorCount_binary]
            omega

/-- One statement: its value, then its target. -/
theorem run_statement (arith : Arithmetic) (s : Statement) (k : Nat) (m : Machine) :
    match s.value.eval arith m.vars with
    | .ok v => ∃ temps, runAll (step arith) m (s.codeAfter k) = .ok ⟨m.vars.set s.name v, temps⟩
    | .error fault =>
      ∃ temps, runAll (step arith) m (s.codeAfter k) = .error (.failed fault, ⟨m.vars, temps⟩) := by
  have hvalue := computes_codeAfter arith s.value k m
  cases hv : s.value.eval arith m.vars with
  | error fault =>
    rw [hv] at hvalue
    obtain ⟨m', hrun, hvars⟩ := hvalue
    refine ⟨m'.temps, ?_⟩
    rw [Statement.codeAfter, runAll_append_of_error hrun, ← hvars]
  | ok v =>
    rw [hv] at hvalue
    obtain ⟨m', hrun, hkeep, hread⟩ := hvalue
    refine ⟨m'.temps, ?_⟩
    rw [Statement.codeAfter, runAll_append_of_ok hrun]
    simp only [runAll, step, hread, hkeep.vars]

theorem run_codeAfter (arith : Arithmetic) (p : Program) (k : Nat) (m : Machine) :
    match p.exec arith m.vars with
    | .ok τ => ∃ temps, runAll (step arith) m (Program.codeAfter k p) = .ok ⟨τ, temps⟩
    | .error (fault, τ) =>
      ∃ temps, runAll (step arith) m (Program.codeAfter k p) =
        .error (.failed fault, ⟨τ, temps⟩) := by
  induction p generalizing k m with
  | nil => exact ⟨m.temps, rfl⟩
  | cons s rest ih =>
    have hs := run_statement arith s k m
    simp only [Program.exec, Program.codeAfter]
    cases hv : s.value.eval arith m.vars with
    | error fault =>
      rw [hv] at hs
      obtain ⟨temps, hrun⟩ := hs
      exact ⟨temps, runAll_append_of_error hrun _⟩
    | ok v =>
      rw [hv] at hs
      obtain ⟨temps, hrun⟩ := hs
      have hrest := ih (k + s.value.operatorCount) ⟨m.vars.set s.name v, temps⟩
      simp only [runAll_append_of_ok hrun]
      exact hrest

end Machine

/-- Running the code of a program from a store, with no temporary set, ends as the program does:
with the same store, or at the same use of an operator with the store the program had there. It
never stops at a temporary that is not set. -/
theorem Program.run_code (arith : Arithmetic) (p : Program) (σ : Store) :
    match p.exec arith σ with
    | .ok τ => ∃ temps, runAll (Machine.step arith) (.init σ) p.code = .ok ⟨τ, temps⟩
    | .error (fault, τ) =>
      ∃ temps, runAll (Machine.step arith) (.init σ) p.code =
        .error (.failed fault, ⟨τ, temps⟩) := by
  rw [Program.code_eq]
  exact Machine.run_codeAfter arith p 0 (.init σ)

end StraightLine
