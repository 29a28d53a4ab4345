import StraightLine.Code
import StraightLine.Program

/-! Code from programs. Operands come before their operator and left ones first; each operator takes
the next temporary:

    5, x       no code, the operand is the literal or the variable
    a + b      code of a; code of b; tN = a' + b'     where a', b' are their operands
    x = a;     code of a; x = a'

`lower` says so by recursion on the expression. `emit` does it with a list of tasks and a list of
operands in place of the recursion, so that a long chain of operators takes no stack. -/
namespace StraightLine

/-- The code written so far and the number of its last temporary. -/
structure Emitter where
  code : Array Instruction
  temps : Nat

namespace Emitter

def empty : Emitter := ⟨#[], 0⟩

def write (m : Emitter) (i : Instruction) : Emitter := ⟨m.code.push i, m.temps⟩

/-- Writes one operator; its result is a temporary not used before. -/
def apply (m : Emitter) (a : Operand) (op : Operator) (b : Operand) : Operand × Emitter :=
  (.temp (m.temps + 1), ⟨m.code.push (.binary (m.temps + 1) a op b), m.temps + 1⟩)

def lower (m : Emitter) : Expr → Operand × Emitter
  | .number n _ => (.literal n, m)
  | .var x _ => (.var x, m)
  | .binary op a b _ =>
    let (x, m) := m.lower a
    let (y, m) := m.lower b
    let n := m.temps + 1
    (.temp n, ⟨m.code.push (.binary n x op y), n⟩)

/-- What is still to be done: an expression to be lowered, or an operator to be applied to the two
operands that were found last. -/
inductive Task where
  | lower (e : Expr)
  | apply (op : Operator)

def Task.weight : Task → Nat
  | .lower e => e.weight
  | .apply _ => 1

def Task.weights : List Task → Nat
  | [] => 0
  | task :: tasks => task.weight + weights tasks

/-- Does the tasks in turn, with the operands found so far, last one first; `apply` is how an operator
is written. Every task that is done makes the rest lighter. There is no result if an operator finds
fewer than two operands or if none is left at the end. -/
def Task.run {σ : Type} (apply : σ → Operand → Operator → Operand → Operand × σ) (m : σ) :
    List Task → List Operand → Option (Operand × σ)
  | [], [] => none
  | [], x :: _ => some (x, m)
  | .lower (.number n _) :: tasks, xs => run apply m tasks (.literal n :: xs)
  | .lower (.var x _) :: tasks, xs => run apply m tasks (.var x :: xs)
  | .lower (.binary op a b _) :: tasks, xs =>
    run apply m (.lower a :: .lower b :: .apply op :: tasks) xs
  | .apply op :: tasks, y :: x :: xs =>
    let (z, m) := apply m x op y
    run apply m tasks (z :: xs)
  | .apply _ :: _, _ => none
termination_by tasks => Task.weights tasks
decreasing_by all_goals simp only [Task.weights, Task.weight, Expr.weight]; omega

/-- What stands in for the emitter may carry more along, as long as it writes operators alike. -/
theorem Task.run_map {σ τ : Type} {f : σ → τ}
    {apply : σ → Operand → Operator → Operand → Operand × σ}
    {apply' : τ → Operand → Operator → Operand → Operand × τ}
    (h : ∀ m x op y, apply' (f m) x op y = (apply m x op y).map id f) (m : σ) (tasks : List Task)
    (xs : List Operand) :
    (Task.run apply m tasks xs).map (Prod.map id f) = Task.run apply' (f m) tasks xs := by
  induction m, tasks, xs using Task.run.induct apply with
  | case1 m => rw [Task.run, Task.run]; rfl
  | case2 m x xs => rw [Task.run, Task.run]; rfl
  | case3 m n l tasks xs ih => rw [Task.run, Task.run, ih]
  | case4 m x l tasks xs ih => rw [Task.run, Task.run, ih]
  | case5 m op a b l tasks xs ih => rw [Task.run, Task.run, ih]
  | case6 m op tasks y x xs z m' hz ih => rw [Task.run, Task.run, h, hz, ih]; rfl
  | case7 m op tasks xs hxs =>
    rw [Task.run, Task.run]
    · rfl
    · exact hxs
    · exact hxs

def run (m : Emitter) (tasks : List Task) (xs : List Operand) : Option (Operand × Emitter) :=
  Task.run apply m tasks xs

/-- Whatever is to be done after it, an expression leaves one operand and the code of its lowering. -/
theorem run_lower (e : Expr) (m : Emitter) (tasks : List Task) (xs : List Operand) :
    m.run (.lower e :: tasks) xs = (m.lower e).2.run tasks ((m.lower e).1 :: xs) := by
  induction e generalizing m tasks xs with
  | number n l => rw [run, Task.run]; rfl
  | var x l => rw [run, Task.run]; rfl
  | binary op a b l iha ihb =>
    unfold run at *
    rw [Task.run, iha, ihb, Task.run]
    rfl

theorem run_eq_lower (m : Emitter) (e : Expr) : m.run [.lower e] [] = some (m.lower e) := by
  rw [run_lower, run, Task.run]

/-- The operand that holds the value of an expression once its code has run. -/
def emit (m : Emitter) (e : Expr) : Operand × Emitter :=
  (m.run [.lower e] []).get (by rw [run_eq_lower]; rfl)

theorem emit_eq_lower (m : Emitter) (e : Expr) : m.emit e = m.lower e := by
  simp only [emit, run_eq_lower, Option.get_some]

def emitStatement (m : Emitter) (s : Statement) : Emitter :=
  let (x, m) := m.emit s.value
  m.write (.copy s.name x)

def emitProgram (m : Emitter) (p : Program) : Emitter := p.foldl emitStatement m

end Emitter

/-- The code of a program, whose names need not be declared. -/
def Program.code (p : Program) : List Instruction := (Emitter.empty.emitProgram p).code.toList

end StraightLine
