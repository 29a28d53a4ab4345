import StraightLine.Proofs.Code.Lowering
import StraightLine.Proofs.Scope.Discipline

/-! The names and the temporaries that stand in the code of a program. -/
namespace StraightLine

def Operand.vars : Operand → List String
  | .var x => [x]
  | _ => []

/-- The variables of an instruction, the one it sets included. -/
def Instruction.vars : Instruction → List String
  | .copy dest source => dest :: source.vars
  | .binary _ left _ right => left.vars ++ right.vars

/-- The temporary that an instruction sets. -/
def Instruction.temp? : Instruction → Option Nat
  | .copy _ _ => none
  | .binary temp _ _ _ => some temp

/-- The variable that an instruction sets. -/
def Instruction.dest? : Instruction → Option String
  | .copy dest _ => some dest
  | .binary _ _ _ _ => none

/-- What an instruction reads, from left to right. -/
def Instruction.operands : Instruction → List Operand
  | .copy _ source => [source]
  | .binary _ left _ right => [left, right]

namespace Expr

theorem mentions_of_mem_operandAfter {e : Expr} {k : Nat} {x : String}
    (h : x ∈ (e.operandAfter k).vars) : e.Mentions x := by
  cases e with
  | number n l => cases h
  | var y l =>
    cases List.mem_singleton.1 h
    exact .var l
  | binary op a b l => cases h

theorem mentions_of_mem_codeAfter {e : Expr} {k : Nat} {i : Instruction} {x : String}
    (hi : i ∈ e.codeAfter k) (hx : x ∈ i.vars) : e.Mentions x := by
  induction e generalizing k with
  | number n l => cases hi
  | var y l => cases hi
  | binary op a b l iha ihb =>
    simp only [codeAfter, List.mem_append, List.mem_singleton] at hi
    obtain (ha | hb) | hlast := hi
    · exact .left op b l (iha ha)
    · exact .right op a l (ihb hb)
    · rw [hlast, Instruction.vars, List.mem_append] at hx
      obtain hleft | hright := hx
      · exact .left op b l (mentions_of_mem_operandAfter hleft)
      · exact .right op a l (mentions_of_mem_operandAfter hright)

/-- An expression takes the temporaries after the first `k`, one for each operator, in order. -/
theorem temps_codeAfter (e : Expr) (k : Nat) :
    (e.codeAfter k).filterMap Instruction.temp? = List.range' (k + 1) e.operatorCount := by
  induction e generalizing k with
  | number n l =>
    rw [operatorCount_number]
    rfl
  | var x l =>
    rw [operatorCount_var]
    rfl
  | binary op a b l iha ihb =>
    have hlast : [Instruction.binary (k + (binary op a b l).operatorCount) (a.operandAfter k) op
        (b.operandAfter (k + a.operatorCount))].filterMap Instruction.temp? =
          List.range' (k + 1 + (a.operatorCount + b.operatorCount)) 1 := by
      rw [operatorCount_binary, List.range'_one]
      simp only [List.filterMap_cons, Instruction.temp?, List.filterMap_nil]
      congr 1
      omega
    have hb := ihb (k + a.operatorCount)
    rw [show k + a.operatorCount + 1 = k + 1 + a.operatorCount by omega] at hb
    rw [codeAfter, List.filterMap_append, List.filterMap_append, iha, hb, hlast,
      List.range'_append_1, List.range'_append_1, operatorCount_binary]

end Expr

namespace Program

theorem mentions_of_mem_codeAfter {p : Program} {k : Nat} {i : Instruction} {x : String}
    (hi : i ∈ Program.codeAfter k p) (hx : x ∈ i.vars) : p.Mentions x := by
  induction p generalizing k with
  | nil => cases hi
  | cons s p ih =>
    simp only [codeAfter, Statement.codeAfter, List.mem_append, List.mem_singleton] at hi
    obtain (hvalue | hcopy) | hrest := hi
    · exact ⟨s, by simp, .inr (Expr.mentions_of_mem_codeAfter hvalue hx)⟩
    · rw [hcopy, Instruction.vars, List.mem_cons] at hx
      obtain hdest | hsource := hx
      · exact ⟨s, by simp, .inl hdest.symm⟩
      · exact ⟨s, by simp, .inr (Expr.mentions_of_mem_operandAfter hsource)⟩
    · obtain ⟨s', hs', h⟩ := ih hrest
      exact ⟨s', List.mem_cons_of_mem s hs', h⟩

theorem temps_codeAfter (p : Program) (k : Nat) :
    (Program.codeAfter k p).filterMap Instruction.temp? =
      List.range' (k + 1) p.operatorCount := by
  induction p generalizing k with
  | nil => rfl
  | cons s p ih =>
    have hp := ih (k + s.value.operatorCount)
    rw [show k + s.value.operatorCount + 1 = k + 1 + s.value.operatorCount by omega] at hp
    simp only [codeAfter, Statement.codeAfter, List.filterMap_append, Expr.temps_codeAfter, hp,
      List.filterMap_cons, Instruction.temp?, List.filterMap_nil, List.append_nil,
      List.range'_append_1, operatorCount_cons]

end Program

end StraightLine
