import StraightLine.Program
import StraightLine.Token

/-! The language as a relation between token lists and the trees they stand for. The number counts
the parentheses that may still be opened, one inside the other. -/
namespace StraightLine.Grammar

mutual

/-- One number, one name, or a sum in parentheses, which leave no node. -/
inductive Factor : Nat → List Token → Expr → Prop
  | number (d : Nat) (n : Int64) (l : Location) : Factor d [⟨.integer n, l⟩] (.number n l)
  | var (d : Nat) (x : String) (l : Location) : Factor d [⟨.identifier x, l⟩] (.var x l)
  | paren {d : Nat} {w : List Token} {e : Expr} (opening closing : Location) :
    Sum d w e → Factor (d + 1) (⟨.lparen, opening⟩ :: w ++ [⟨.rparen, closing⟩]) e

/-- Factors with `*` and `/` between them, grouped to the left. -/
inductive Product : Nat → List Token → Expr → Prop
  | factor {d : Nat} {w : List Token} {e : Expr} : Factor d w e → Product d w e
  | apply {d : Nat} {u v : List Token} {a b : Expr} (op : Operator) (l : Location) :
    op.isProduct = true → Product d u a → Factor d v b →
      Product d (u ++ ⟨.operator op, l⟩ :: v) (.binary op a b l)

/-- Products with `+` and `-` between them, grouped to the left. -/
inductive Sum : Nat → List Token → Expr → Prop
  | product {d : Nat} {w : List Token} {e : Expr} : Product d w e → Sum d w e
  | apply {d : Nat} {u v : List Token} {a b : Expr} (op : Operator) (l : Location) :
    op.isProduct = false → Sum d u a → Product d v b →
      Sum d (u ++ ⟨.operator op, l⟩ :: v) (.binary op a b l)

end

/-- What holds of numbers and names, and goes through parentheses and operators, holds of sums. -/
theorem Sum.closed {M : List Token → Expr → Prop}
    (number : ∀ (n : Int64) (l : Location), M [⟨.integer n, l⟩] (.number n l))
    (var : ∀ (x : String) (l : Location), M [⟨.identifier x, l⟩] (.var x l))
    (paren : ∀ (w : List Token) (e : Expr) (opening closing : Location), M w e →
      M (⟨.lparen, opening⟩ :: w ++ [⟨.rparen, closing⟩]) e)
    (binary : ∀ (u v : List Token) (a b : Expr) (op : Operator) (l : Location), M u a → M v b →
      M (u ++ ⟨.operator op, l⟩ :: v) (.binary op a b l))
    {d : Nat} {w : List Token} {e : Expr} (h : Sum d w e) : M w e := by
  refine @Sum.rec (fun _ w e _ => M w e) (fun _ w e _ => M w e) (fun _ w e _ => M w e)
    (fun _ => number) (fun _ => var) ?paren ?factor ?mul ?product ?add d w e h
  case paren =>
    intro d w e opening closing _ ih
    exact paren w e opening closing ih
  case factor =>
    intro d w e _ ih
    exact ih
  case mul =>
    intro d u v a b op l _ _ _ iha ihb
    exact binary u v a b op l iha ihb
  case product =>
    intro d w e _ ih
    exact ih
  case add =>
    intro d u v a b op l _ _ _ iha ihb
    exact binary u v a b op l iha ihb

inductive Statement : Nat → List Token → StraightLine.Statement → Prop
  | declaration {d : Nat} {w : List Token} {e : Expr} (x : String)
      (keyword name equals stop : Location) :
    Sum d w e → Statement d
      (⟨.var, keyword⟩ :: ⟨.identifier x, name⟩ :: ⟨.assign, equals⟩ :: w ++ [⟨.semicolon, stop⟩])
      ⟨⟨.declaration, x, name⟩, e⟩
  | assignment {d : Nat} {w : List Token} {e : Expr} (x : String) (name equals stop : Location) :
    Sum d w e → Statement d
      (⟨.identifier x, name⟩ :: ⟨.assign, equals⟩ :: w ++ [⟨.semicolon, stop⟩])
      ⟨⟨.assignment, x, name⟩, e⟩

inductive Program : Nat → List Token → StraightLine.Program → Prop
  | nil (d : Nat) : Program d [] []
  | cons {d : Nat} {u v : List Token} {s : StraightLine.Statement} {p : StraightLine.Program} :
    Statement d u s → Program d v p → Program d (u ++ v) (s :: p)

end StraightLine.Grammar
