import StraightLine.Program
import StraightLine.SymbolTable

/-! The discipline of names: no name is declared twice, and none is used before its declaration. A
declaration's own value may use the name, which is in scope as soon as it has been read. -/
namespace StraightLine.SymbolTable

/-- Every variable of the expressions has to be declared; the leftmost one that is not is at fault.
The operands of an operator take its place in the list, so a long chain of operators takes no
stack. -/
def checkExprs (t : SymbolTable) : List Expr → Except NamingError Unit
  | [] => .ok ()
  | .number _ _ :: rest => t.checkExprs rest
  | .var x l :: rest =>
    match t.require x l with
    | .ok _ => t.checkExprs rest
    | .error e => .error e
  | .binary _ a b _ :: rest => t.checkExprs (a :: b :: rest)
termination_by es => Expr.weights es
decreasing_by all_goals simp only [Expr.weights, Expr.weight]; omega

def checkExpr (t : SymbolTable) (e : Expr) : Except NamingError Unit := t.checkExprs [e]

/-- The table after a statement. The name comes before the value, so a declaration whose value is at
fault stays in the table. -/
def checkStatement (t : SymbolTable) (s : Statement) : Except NamingError Unit × SymbolTable :=
  match s.form with
  | .declaration =>
    match t.declare s.name s.location with
    | (.ok _, t) => (t.checkExpr s.value, t)
    | (.error e, t) => (.error e, t)
  | .assignment =>
    match t.require s.name s.location with
    | .ok _ => (t.checkExpr s.value, t)
    | .error e => (.error e, t)

/-- The table after a program, or at the first statement that breaks the discipline. -/
def check (t : SymbolTable) : Program → Except NamingError Unit × SymbolTable
  | [] => (.ok (), t)
  | s :: rest =>
    match t.checkStatement s with
    | (.ok _, t) => t.check rest
    | (.error e, t) => (.error e, t)

end StraightLine.SymbolTable
