import StraightLine.Code
import StraightLine.Program

/-! What a program means and what code does, under any reading of the four operators. Both end in
the store of the variables, also where an operator fails half-way. The temporaries of the code are a
store of their own, in which nothing is set at first. -/
namespace StraightLine

/-- A reading of the operators; without a result the operator fails. -/
abbrev Arithmetic := Operator → Int64 → Int64 → Option Int64

/-- One use of an operator. -/
structure Application where
  op : Operator
  left : Int64
  right : Int64
  deriving DecidableEq

def Arithmetic.apply (arith : Arithmetic) (op : Operator) (x y : Int64) :
    Except Application Int64 :=
  match arith op x y with
  | some v => .ok v
  | none => .error ⟨op, x, y⟩

abbrev Store := String → Int64

def Store.set (σ : Store) (x : String) (v : Int64) : Store := fun y => if y = x then v else σ y

/-- The value of an expression, left operand first, or the first use of an operator that failed. -/
def Expr.eval (arith : Arithmetic) (σ : Store) : Expr → Except Application Int64
  | .number n _ => .ok n
  | .var x _ => .ok (σ x)
  | .binary op a b _ => do
    let x ← a.eval arith σ
    let y ← b.eval arith σ
    arith.apply op x y

/-- The store after the program, or, as an error, what failed and the store in which it did. -/
def Program.exec (arith : Arithmetic) : Program → Store → Except (Application × Store) Store
  | [], σ => .ok σ
  | s :: rest, σ =>
    match s.value.eval arith σ with
    | .ok v => Program.exec arith rest (σ.set s.name v)
    | .error fault => .error (fault, σ)

/-- Steps one after the other, up to the first that fails. An error comes with the state in which
it arose. -/
def runAll {α ε σ : Type} (step : σ → α → Except ε σ) (s : σ) : List α → Except (ε × σ) σ
  | [] => .ok s
  | a :: rest =>
    match step s a with
    | .ok s => runAll step s rest
    | .error e => .error (e, s)

theorem runAll_append {α ε σ : Type} (step : σ → α → Except ε σ) (s : σ) (u v : List α) :
    runAll step s (u ++ v) = runAll step s u >>= fun s' => runAll step s' v := by
  induction u generalizing s with
  | nil => rfl
  | cons a u ih =>
    simp only [List.cons_append, runAll]
    cases step s a with
    | ok s' => exact ih s'
    | error e => rfl

theorem runAll_append_of_ok {α ε σ : Type} {step : σ → α → Except ε σ} {s s' : σ} {u : List α}
    (h : runAll step s u = .ok s') (v : List α) :
    runAll step s (u ++ v) = runAll step s' v := by
  rw [runAll_append, h]
  rfl

theorem runAll_append_of_error {α ε σ : Type} {step : σ → α → Except ε σ} {s : σ} {u : List α}
    {e : ε × σ} (h : runAll step s u = .error e) (v : List α) :
    runAll step s (u ++ v) = .error e := by
  rw [runAll_append, h]
  rfl

structure Machine where
  vars : Store
  temps : Nat → Option Int64

/-- Why a machine stops short. -/
inductive Stop where
  | failed (fault : Application)
  | unset (temp : Nat)
  deriving DecidableEq

namespace Machine

def init (σ : Store) : Machine := ⟨σ, fun _ => none⟩

def read (m : Machine) : Operand → Except Stop Int64
  | .literal n => .ok n
  | .var x => .ok (m.vars x)
  | .temp n =>
    match m.temps n with
    | some v => .ok v
    | none => .error (.unset n)

def setTemp (m : Machine) (n : Nat) (v : Int64) : Machine :=
  ⟨m.vars, fun k => if k = n then some v else m.temps k⟩

def step (arith : Arithmetic) (m : Machine) : Instruction → Except Stop Machine
  | .copy dest source =>
    match m.read source with
    | .ok v => .ok ⟨m.vars.set dest v, m.temps⟩
    | .error stop => .error stop
  | .binary temp left op right =>
    match m.read left, m.read right with
    | .ok x, .ok y =>
      match arith.apply op x y with
      | .ok v => .ok (m.setTemp temp v)
      | .error fault => .error (.failed fault)
    | .error stop, _ => .error stop
    | .ok _, .error stop => .error stop

end Machine

end StraightLine
