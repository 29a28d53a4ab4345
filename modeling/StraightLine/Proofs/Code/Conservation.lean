import Mathlib.Data.List.Perm.Basic
import StraightLine.Program.Printer
import StraightLine.Proofs.Code.Occurrences

/-! Code holds what its program is written with, each piece as often. An operator, a number or a name
of a program goes into one instruction, and so do the equals sign and the semicolon of a statement.
Parentheses and the keyword leave nothing in the code, and temporaries come from nothing. -/
namespace StraightLine

open Token (Kind)

/-- The kinds of tokens that leave something in the code. -/
def Token.Kind.isCoded : Kind → Bool
  | .var | .lparen | .rparen | .eof => false
  | _ => true

/-- The token that an operand comes from; a temporary comes from none. -/
def Operand.kinds : Operand → List Kind
  | .literal n => [.integer n]
  | .var x => [.identifier x]
  | .temp _ => []

/-- The tokens that an instruction comes from. A copy stands for its whole statement, which has one
equals sign and one semicolon. -/
def Instruction.kinds : Instruction → List Kind
  | .copy dest source => .identifier dest :: .assign :: (source.kinds ++ [.semicolon])
  | .binary _ left op right => left.kinds ++ .operator op :: right.kinds

namespace Expr

theorem filter_parenthesized (needed : Bool) (ks : List Kind) :
    (parenthesized needed ks).filter Kind.isCoded = ks.filter Kind.isCoded := by
  cases needed with
  | false => rfl
  | true => simp [parenthesized, Kind.isCoded]

/-- The code of an expression and the operand that holds its value come from its tokens. -/
theorem perm_kinds_codeAfter (e : Expr) (k : Nat) :
    ((e.codeAfter k).flatMap Instruction.kinds ++ (e.operandAfter k).kinds).Perm
      (e.kinds.filter Kind.isCoded) := by
  induction e generalizing k with
  | number n l => exact .refl _
  | var x l => exact .refl _
  | binary op a b l iha ihb =>
    have hb := ihb (k + a.operatorCount)
    have hkinds : (binary op a b l).kinds.filter Kind.isCoded =
        a.kinds.filter Kind.isCoded ++ .operator op :: b.kinds.filter Kind.isCoded := by
      simp [kinds, filter_parenthesized, List.filter_cons, Kind.isCoded]
    simp only [codeAfter, operandAfter, Operand.kinds, List.flatMap_append, List.flatMap_singleton,
      Instruction.kinds, List.append_nil, List.append_assoc, hkinds]
    -- The instruction comes behind the code of both operands, its tokens stand between them.
    refine .trans (.append_left _ (List.perm_append_comm_assoc _ _ _)) ?_
    rw [← List.append_assoc]
    exact (iha k).append (List.perm_middle.trans (hb.cons _))

end Expr

theorem Statement.perm_kinds_codeAfter (s : Statement) (k : Nat) :
    ((s.codeAfter k).flatMap Instruction.kinds).Perm (s.kinds.filter Kind.isCoded) := by
  have hkinds : s.kinds.filter Kind.isCoded =
      .identifier s.name :: .assign :: (s.value.kinds.filter Kind.isCoded ++ [.semicolon]) := by
    unfold Statement.kinds
    cases s.form <;> simp [List.filter_cons, Kind.isCoded]
  have hvalue := (s.value.perm_kinds_codeAfter k).append_right [Kind.semicolon]
  rw [List.append_assoc] at hvalue
  rw [Statement.codeAfter, List.flatMap_append, List.flatMap_singleton, Instruction.kinds, hkinds]
  exact List.perm_middle.trans ((List.perm_middle.trans (hvalue.cons _)).cons _)

/-- The code of a program comes from all its tokens but parentheses and keywords. -/
theorem Program.perm_kinds_codeAfter (p : Program) (k : Nat) :
    ((Program.codeAfter k p).flatMap Instruction.kinds).Perm (p.kinds.filter Kind.isCoded) := by
  induction p generalizing k with
  | nil => exact .nil
  | cons s p ih =>
    rw [codeAfter, List.flatMap_append, Program.kinds, List.flatMap_cons, List.filter_append]
    exact (s.perm_kinds_codeAfter k).append (ih _)

/-! What the tokens of code are, sorted by their kinds. -/

def Instruction.operator? : Instruction → Option Operator
  | .copy _ _ => none
  | .binary _ _ op _ => some op

def Operand.literal? : Operand → Option Int64
  | .literal n => some n
  | _ => none

def Operand.var? : Operand → Option String
  | .var x => some x
  | _ => none

namespace Token.Kind

def value? : Kind → Option Int64
  | .integer n => some n
  | _ => none

def name? : Kind → Option String
  | .identifier x => some x
  | _ => none

/-- What is said of coded tokens only can be said of all. -/
theorem filterMap_isCoded {α : Type} {f : Kind → Option α} (h : ∀ k, k.isCoded = false → f k = none)
    (ks : List Kind) : (ks.filter isCoded).filterMap f = ks.filterMap f := by
  rw [List.filterMap_filter]
  congr 1
  funext k
  cases hk : k.isCoded with
  | true => rfl
  | false => exact (h k hk).symm

end Token.Kind

namespace Instruction

/-- A token that an instruction has once or not at all is counted by counting instructions. -/
theorem count_kinds {k : Kind} {q : Instruction → Bool}
    (h : ∀ i : Instruction, i.kinds.count k = if q i then 1 else 0) (code : List Instruction) :
    (code.flatMap kinds).count k = code.countP q := by
  induction code with
  | nil => rfl
  | cons i code ih =>
    rw [List.flatMap_cons, List.count_append, h, ih, List.countP_cons, Nat.add_comm]

theorem count_operator_kinds (code : List Instruction) (op : Operator) :
    (code.flatMap kinds).count (.operator op) = code.countP fun i => i.operator? = some op := by
  have hoperand : ∀ x : Operand, x.kinds.count (.operator op) = 0 := by
    intro x
    cases x <;> rfl
  refine count_kinds ?_ code
  intro i
  cases i with
  | copy dest source => simp [kinds, operator?, hoperand]
  | binary n a op' b => simp [kinds, operator?, hoperand, List.count_cons]

theorem count_semicolon_kinds (code : List Instruction) :
    (code.flatMap kinds).count .semicolon = code.countP fun i => i.dest?.isSome := by
  have hoperand : ∀ x : Operand, x.kinds.count .semicolon = 0 := by
    intro x
    cases x <;> rfl
  refine count_kinds ?_ code
  intro i
  cases i with
  | copy dest source => simp [kinds, dest?, hoperand]
  | binary n a op b => simp [kinds, dest?, hoperand]

theorem filterMap_value_kinds (code : List Instruction) :
    (code.flatMap kinds).filterMap Kind.value? =
      (code.flatMap operands).filterMap Operand.literal? := by
  have hinstruction : ∀ i : Instruction,
      i.kinds.filterMap Kind.value? = i.operands.filterMap Operand.literal? := by
    intro i
    cases i with
    | copy dest source => cases source <;> rfl
    | binary n a op b => cases a <;> cases b <;> rfl
  rw [List.filterMap_flatMap, List.filterMap_flatMap, funext hinstruction]

/-- The names of code are those that it sets and those that it reads. -/
theorem perm_name_kinds (code : List Instruction) :
    ((code.flatMap kinds).filterMap Kind.name?).Perm
      (code.filterMap dest? ++ (code.flatMap operands).filterMap Operand.var?) := by
  have hinstruction : ∀ i : Instruction,
      i.kinds.filterMap Kind.name? = i.dest?.toList ++ i.operands.filterMap Operand.var? := by
    intro i
    cases i with
    | copy dest source => cases source <;> rfl
    | binary n a op b => cases a <;> cases b <;> rfl
  rw [List.filterMap_flatMap, List.filterMap_flatMap, funext hinstruction,
    List.filterMap_eq_flatMap_toList]
  exact (List.flatMap_append_perm code _ _).symm

end Instruction

end StraightLine
