import StraightLine.Proofs.Code.Lowering
import StraightLine.Proofs.Program.Rewording

/-! Code in other words. Which temporaries an expression takes depends on its operators alone. -/
namespace StraightLine

variable (φ : Rewording) (place : Location → Location)

def Operand.reword : Operand → Operand
  | .literal n => .literal (φ.value n)
  | .var x => .var (φ.name x)
  | .temp k => .temp k

def Instruction.reword : Instruction → Instruction
  | .copy dest source => .copy (φ.name dest) (source.reword φ)
  | .binary temp left op right => .binary temp (left.reword φ) op (right.reword φ)

namespace Expr

@[simp] theorem operatorCount_reword (e : Expr) :
    (e.reword φ place).operatorCount = e.operatorCount := by
  induction e with
  | number n l => simp [reword]
  | var x l => simp [reword]
  | binary op a b l iha ihb => simp [reword, iha, ihb]

@[simp] theorem operandAfter_reword (k : Nat) (e : Expr) :
    (e.reword φ place).operandAfter k = (e.operandAfter k).reword φ := by
  cases e with
  | number n l => rfl
  | var x l => rfl
  | binary op a b l => simp [reword, operandAfter, Operand.reword]

theorem codeAfter_reword (k : Nat) (e : Expr) :
    (e.reword φ place).codeAfter k = (e.codeAfter k).map (Instruction.reword φ) := by
  induction e generalizing k with
  | number n l => rfl
  | var x l => rfl
  | binary op a b l iha ihb => simp [reword, codeAfter, iha, ihb, Instruction.reword]

end Expr

namespace Program

theorem codeAfter_reword (k : Nat) (p : Program) :
    Program.codeAfter k (p.reword φ place) =
      (Program.codeAfter k p).map (Instruction.reword φ) := by
  induction p generalizing k with
  | nil => rfl
  | cons s p ih =>
    change Program.codeAfter k (s.reword φ place :: Program.reword φ place p) = _
    simp only [codeAfter, Statement.codeAfter, Statement.reword, Target.reword,
      Expr.codeAfter_reword, Expr.operandAfter_reword, Expr.operatorCount_reword, ih,
      List.map_append, List.map_cons, List.map_nil, Instruction.reword]

theorem code_reword (p : Program) :
    (p.reword φ place).code = p.code.map (Instruction.reword φ) := by
  rw [code_eq, code_eq, codeAfter_reword]

end Program

end StraightLine
