import StraightLine.Proofs.Code.Lowering

/-! Tasks in place of recursion. Lowering an expression by tasks never runs out of operands, and what
it writes depends on the emitter only by the number of temporaries taken before: it is the code
written from scratch, with every temporary numbered higher. -/
namespace StraightLine

/-- The operand with its temporary numbered `k` higher. -/
def Operand.shift (k : Nat) : Operand → Operand
  | .literal n => .literal n
  | .var x => .var x
  | .temp n => .temp (k + n)

def Instruction.shift (k : Nat) : Instruction → Instruction
  | .copy dest x => .copy dest (x.shift k)
  | .binary n x op y => .binary (k + n) (x.shift k) op (y.shift k)

namespace Expr

theorem operandAfter_add (e : Expr) (k j : Nat) :
    e.operandAfter (k + j) = (e.operandAfter j).shift k := by
  cases e with
  | number n l => rfl
  | var x l => rfl
  | binary op a b l => simp only [operandAfter, Operand.shift, Nat.add_assoc]

theorem codeAfter_add (e : Expr) (k j : Nat) :
    e.codeAfter (k + j) = (e.codeAfter j).map (Instruction.shift k) := by
  induction e generalizing j with
  | number n l => rfl
  | var x l => rfl
  | binary op a b l iha ihb =>
    -- The right operand comes after the temporaries of the left one, on both sides.
    have hb : k + j + a.operatorCount = k + (j + a.operatorCount) := Nat.add_assoc ..
    simp only [codeAfter, List.map_append, List.map_cons, List.map_nil, Instruction.shift, hb, iha,
      ihb, operandAfter_add, Nat.add_assoc]

end Expr

namespace Emitter

theorem code_emit (m : Emitter) (e : Expr) :
    (m.emit e).2.code.toList = m.code.toList ++ e.codeAfter m.temps := by
  rw [emit_eq_lower, lower_eq, Array.toList_append]

theorem temps_emit (m : Emitter) (e : Expr) : (m.emit e).2.temps = m.temps + e.operatorCount := by
  rw [emit_eq_lower, lower_eq]

theorem operand_emit (m : Emitter) (e : Expr) : (m.emit e).1 = e.operandAfter m.temps := by
  rw [emit_eq_lower, lower_eq]

/-- The tasks of an expression are done without want of an operand, whatever is to be done after
them, and do what the recursion does. The code is added at the end, and it, the operand and the count
are those of an empty emitter moved on by the temporaries already taken. -/
theorem tasks_eq_recursion (m : Emitter) (e : Expr) :
    (∀ (tasks : List Task) (xs : List Operand),
      m.run (.lower e :: tasks) xs = (m.lower e).2.run tasks ((m.lower e).1 :: xs)) ∧
    m.run [.lower e] [] = some (m.lower e) ∧
    m.emit e = m.lower e ∧
    (m.emit e).1 = (empty.emit e).1.shift m.temps ∧
    (m.emit e).2.temps = m.temps + (empty.emit e).2.temps ∧
    (m.emit e).2.code.toList =
      m.code.toList ++ (empty.emit e).2.code.toList.map (Instruction.shift m.temps) := by
  have hoperand : (m.emit e).1 = (empty.emit e).1.shift m.temps := by
    rw [operand_emit, operand_emit, ← Expr.operandAfter_add]
    rfl
  have htemps : (m.emit e).2.temps = m.temps + (empty.emit e).2.temps := by
    rw [temps_emit, temps_emit, empty, Nat.zero_add]
  have hcode : (m.emit e).2.code.toList =
      m.code.toList ++ (empty.emit e).2.code.toList.map (Instruction.shift m.temps) := by
    rw [code_emit, code_emit, empty, List.nil_append, ← Expr.codeAfter_add, Nat.add_zero]
  exact ⟨m.run_lower e, m.run_eq_lower e, m.emit_eq_lower e, hoperand, htemps, hcode⟩

end Emitter

end StraightLine
