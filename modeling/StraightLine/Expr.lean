import StraightLine.Location
import StraightLine.Operator

/-! Arithmetic expressions, and their nodes in the order in which they are worked out: left operand,
right operand, operator. A node carries the place of its token, an operator that of its sign. -/
namespace StraightLine

inductive Expr where
  | number (value : Int64) (location : Location)
  | var (name : String) (location : Location)
  | binary (op : Operator) (left right : Expr) (location : Location)
  deriving DecidableEq

inductive Expr.Node where
  | number (value : Int64) (location : Location)
  | var (name : String) (location : Location)
  | operator (op : Operator) (location : Location)
  deriving DecidableEq

namespace Expr

namespace Node

def isOperator : Node → Bool
  | .operator _ _ => true
  | _ => false

def use? : Node → Option (String × Location)
  | .var name l => some (name, l)
  | _ => none

end Node

/-- The nodes of an expression, then those of `tail`. The call on the left operand comes last, so
only nesting to the right takes stack. -/
def nodesThen : Expr → List Node → List Node
  | .number n l, tail => .number n l :: tail
  | .var x l, tail => .var x l :: tail
  | .binary op a b l, tail => a.nodesThen (b.nodesThen (.operator op l :: tail))

def nodes (e : Expr) : List Node := e.nodesThen []

theorem nodesThen_eq (e : Expr) (tail : List Node) : e.nodesThen tail = e.nodes ++ tail := by
  induction e generalizing tail with
  | number n l => rfl
  | var x l => rfl
  | binary op a b l iha ihb =>
    simp only [nodes, nodesThen]
    rw [iha, ihb, iha (b.nodesThen [.operator op l]), ihb [.operator op l]]
    simp

@[simp] theorem nodes_number (n : Int64) (l : Location) :
    (number n l).nodes = [.number n l] := rfl

@[simp] theorem nodes_var (x : String) (l : Location) : (var x l).nodes = [.var x l] := rfl

@[simp] theorem nodes_binary (op : Operator) (a b : Expr) (l : Location) :
    (binary op a b l).nodes = a.nodes ++ b.nodes ++ [.operator op l] := by
  rw [nodes, nodesThen, nodesThen_eq, nodesThen_eq, List.append_assoc]

/-- A measure that leaves room for an operator to be replaced by its operands and one task more. -/
def weight : Expr → Nat
  | .number _ _ | .var _ _ => 1
  | .binary _ a b _ => a.weight + b.weight + 2

def weights : List Expr → Nat
  | [] => 0
  | e :: rest => e.weight + weights rest

/-- Adds to a count the operators of the expressions still to be looked into. The operands of an
operator take its place in the list, right one first, so a long chain of operators takes no stack. -/
def countOperators (count : Nat) : List Expr → Nat
  | [] => count
  | .number _ _ :: pending => countOperators count pending
  | .var _ _ :: pending => countOperators count pending
  | .binary _ a b _ :: pending => countOperators (count + 1) (b :: a :: pending)
termination_by pending => weights pending
decreasing_by all_goals simp only [weights, weight]; omega

def operatorCount (e : Expr) : Nat := countOperators 0 [e]

/-- Whatever the order in which the list is worked off, each operator counts once. -/
theorem countOperators_eq (count : Nat) (pending : List Expr) :
    countOperators count pending = count + (pending.flatMap nodes).countP Node.isOperator := by
  induction count, pending using countOperators.induct with
  | case1 count => simp [countOperators]
  | case2 count n l pending ih =>
    rw [countOperators, ih]
    simp [Node.isOperator]
  | case3 count x l pending ih =>
    rw [countOperators, ih]
    simp [Node.isOperator]
  | case4 count op a b l pending ih =>
    rw [countOperators, ih]
    simp only [List.flatMap_cons, nodes_binary, List.countP_append, List.countP_cons,
      List.countP_nil, Node.isOperator, if_true]
    omega

theorem operatorCount_eq_countP (e : Expr) :
    e.operatorCount = e.nodes.countP Node.isOperator := by
  simp [operatorCount, countOperators_eq]

@[simp] theorem operatorCount_number (n : Int64) (l : Location) :
    (number n l).operatorCount = 0 := by
  rw [operatorCount_eq_countP]
  rfl

@[simp] theorem operatorCount_var (x : String) (l : Location) : (var x l).operatorCount = 0 := by
  rw [operatorCount_eq_countP]
  rfl

@[simp] theorem operatorCount_binary (op : Operator) (a b : Expr) (l : Location) :
    (binary op a b l).operatorCount = a.operatorCount + b.operatorCount + 1 := by
  simp [operatorCount_eq_countP, Node.isOperator, Nat.add_assoc]

/-- The variables of an expression from left to right, each with the place of its use. -/
def uses (e : Expr) : List (String × Location) := e.nodes.filterMap Node.use?

@[simp] theorem uses_number (n : Int64) (l : Location) : (number n l).uses = [] := rfl

@[simp] theorem uses_var (x : String) (l : Location) : (var x l).uses = [(x, l)] := rfl

@[simp] theorem uses_binary (op : Operator) (a b : Expr) (l : Location) :
    (binary op a b l).uses = a.uses ++ b.uses := by
  simp [uses, Node.use?]

end Expr

end StraightLine
