import StraightLine.Code.Emitter

/-! The code of an expression as a function of the number of temporaries taken before it, and the
emitter as nothing but that function: it adds the code at the end of its buffer and moves its count
on by the number of operators. -/
namespace StraightLine

namespace Expr

/-- The operand that holds the value of an expression lowered after `k` temporaries. An operator's
own temporary is the last one its expression takes. -/
def operandAfter (k : Nat) : Expr → Operand
  | .number n _ => .literal n
  | .var x _ => .var x
  | .binary op a b l => .temp (k + (binary op a b l).operatorCount)

def codeAfter (k : Nat) : Expr → List Instruction
  | .number _ _ => []
  | .var _ _ => []
  | .binary op a b l =>
    a.codeAfter k ++ b.codeAfter (k + a.operatorCount) ++
      [.binary (k + (binary op a b l).operatorCount) (a.operandAfter k) op
        (b.operandAfter (k + a.operatorCount))]

end Expr

namespace Statement

def codeAfter (k : Nat) (s : Statement) : List Instruction :=
  s.value.codeAfter k ++ [.copy s.name (s.value.operandAfter k)]

end Statement

namespace Program

def codeAfter (k : Nat) : Program → List Instruction
  | [] => []
  | s :: rest => s.codeAfter k ++ Program.codeAfter (k + s.value.operatorCount) rest

@[simp] theorem operatorCount_nil : Program.operatorCount [] = 0 := rfl

@[simp] theorem operatorCount_cons (s : Statement) (p : Program) :
    Program.operatorCount (s :: p) = s.value.operatorCount + Program.operatorCount p := rfl

/-- The second part of a program goes on after the temporaries of the first. -/
theorem codeAfter_append (k : Nat) (p q : Program) :
    Program.codeAfter k (p ++ q) =
      Program.codeAfter k p ++ Program.codeAfter (k + p.operatorCount) q := by
  induction p generalizing k with
  | nil => rfl
  | cons s p ih =>
    simp only [List.cons_append, codeAfter, ih, operatorCount_cons, List.append_assoc,
      Nat.add_assoc]

end Program

namespace Emitter

theorem lower_eq (m : Emitter) (e : Expr) :
    m.lower e = (e.operandAfter m.temps,
      ⟨m.code ++ (e.codeAfter m.temps).toArray, m.temps + e.operatorCount⟩) := by
  induction e generalizing m with
  | number n l => simp [lower, Expr.operandAfter, Expr.codeAfter]
  | var x l => simp [lower, Expr.operandAfter, Expr.codeAfter]
  | binary op a b l iha ihb =>
    simp [lower, iha, ihb, Expr.operandAfter, Expr.codeAfter, Nat.add_assoc]

theorem emitStatement_eq (m : Emitter) (s : Statement) :
    m.emitStatement s =
      ⟨m.code ++ (s.codeAfter m.temps).toArray, m.temps + s.value.operatorCount⟩ := by
  simp [emitStatement, emit_eq_lower, lower_eq, write, Statement.codeAfter]

theorem emitProgram_eq (m : Emitter) (p : Program) :
    m.emitProgram p =
      ⟨m.code ++ (Program.codeAfter m.temps p).toArray, m.temps + p.operatorCount⟩ := by
  unfold emitProgram
  induction p generalizing m with
  | nil => simp [Program.codeAfter]
  | cons s rest ih =>
    rw [List.foldl_cons, ih, emitStatement_eq]
    simp [Program.codeAfter, Nat.add_assoc]

end Emitter

theorem Program.code_eq (p : Program) : p.code = Program.codeAfter 0 p := by
  simp [Program.code, Emitter.emitProgram_eq, Emitter.empty]

end StraightLine
