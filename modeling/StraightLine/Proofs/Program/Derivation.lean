import StraightLine.Program.Grammar
import StraightLine.Proofs.Program.Reading

/-! Derivations half read. Each part of a phase stands for tokens already taken: a waiting operator
for its left operand and itself, a level for what waits in it, the outer levels for everything up to
the last open parenthesis. Every move of the reader takes one more token into what its phase stands
for. -/
namespace StraightLine

open Grammar (Factor Product Sum)

theorem Grammar.Program.concat {d : Nat} {u v : List Token} {p : StraightLine.Program}
    {s : StraightLine.Statement} (hp : Grammar.Program d u p) (hs : Grammar.Statement d v s) :
    Grammar.Program d (u ++ v) (p ++ [s]) := by
  induction hp with
  | nil => simpa using Grammar.Program.cons hs (.nil d)
  | cons hs' hp ih => simpa using Grammar.Program.cons hs' ih

/-- The tokens of a waiting operator and its left operand; none if nothing waits. -/
inductive Pending.Covers (tight : Bool) (Left : List Token → Expr → Prop) :
    Option Pending → List Token → Prop
  | none : Covers tight Left none []
  | some {w : List Token} {a : Expr} (op : Operator) (l : Location) :
    op.isProduct = tight → Left w a →
      Covers tight Left (some ⟨a, op, l⟩) (w ++ [⟨.operator op, l⟩])

namespace Pending

theorem Covers.close_product {d : Nat} {pending : Option Pending} {u v : List Token} {e : Expr}
    (h : Covers true (Product d) pending u) (he : Factor d v e) :
    Product d (u ++ v) (close pending e) := by
  cases h with
  | none => exact .factor he
  | some op l hop ha => simpa [close] using Product.apply op l hop ha he

theorem Covers.close_sum {d : Nat} {pending : Option Pending} {u v : List Token} {e : Expr}
    (h : Covers false (Sum d) pending u) (he : Product d v e) :
    Sum d (u ++ v) (close pending e) := by
  cases h with
  | none => exact .product he
  | some op l hop ha => simpa [close] using Sum.apply op l hop ha he

end Pending

inductive Level.Covers (d : Nat) : Level → List Token → Prop
  | mk {sum product : Option Pending} {u v : List Token} :
    Pending.Covers false (Sum d) sum u → Pending.Covers true (Product d) product v →
      Covers d ⟨sum, product⟩ (u ++ v)

theorem Level.covers_fresh (d : Nat) : Level.Covers d Phase.fresh [] := .mk .none .none

/-- The tokens up to the innermost open parenthesis. After it, `d` more may be opened. -/
inductive Opened : Nat → List Level → List Token → Prop
  | nil : Opened maxNesting [] []
  | cons {d : Nat} {level : Level} {outer : List Level} {u v : List Token} (l : Location) :
    Opened (d + 1) outer u → Level.Covers (d + 1) level v →
      Opened d (level :: outer) (u ++ v ++ [⟨.lparen, l⟩])

theorem Opened.length_add {d : Nat} {outer : List Level} {w : List Token} (h : Opened d outer w) :
    outer.length + d = maxNesting := by
  induction h with
  | nil => simp
  | cons l hu hv ih =>
    rw [List.length_cons]
    omega

inductive Target.Covers : Target → List Token → Prop
  | declaration (x : String) (keyword name : Location) :
    Covers ⟨.declaration, x, name⟩ [⟨.var, keyword⟩, ⟨.identifier x, name⟩]
  | assignment (x : String) (name : Location) :
    Covers ⟨.assignment, x, name⟩ [⟨.identifier x, name⟩]

theorem Target.Covers.statement {d : Nat} {target : Target} {u v : List Token} {e : Expr}
    (h : target.Covers u) (equals stop : Location) (he : Sum d v e) :
    Grammar.Statement d (u ++ ⟨.assign, equals⟩ :: (v ++ [⟨.semicolon, stop⟩])) ⟨target, e⟩ := by
  cases h with
  | declaration x keyword name => exact .declaration x keyword name equals stop he
  | assignment x name => exact .assignment x name equals stop he

/-- A statement is a target and a value, with an equals sign between them and a semicolon behind. -/
theorem Grammar.Statement.exists_target {d : Nat} {w : List Token} {s : StraightLine.Statement}
    (h : Statement d w s) : ∃ u v equals stop, s.toTarget.Covers u ∧ Sum d v s.value ∧
      w = u ++ ⟨.assign, equals⟩ :: (v ++ [⟨.semicolon, stop⟩]) := by
  cases h with
  | declaration x keyword name equals stop hsum =>
    exact ⟨_, _, equals, stop, .declaration x keyword name, hsum, rfl⟩
  | assignment x name equals stop hsum =>
    exact ⟨_, _, equals, stop, .assignment x name, hsum, rfl⟩

theorem Target.Covers.name_mem {target : Target} {u : List Token} (h : target.Covers u) :
    ⟨.identifier target.name, target.location⟩ ∈ u := by
  cases h with
  | declaration x keyword name => simp
  | assignment x name => simp

/-- The tokens of a statement of which the reader is in the middle. -/
inductive Phase.Covers : Phase → List Token → Prop
  | start : Covers .start []
  | declaring (l : Location) : Covers .declaring [⟨.var, l⟩]
  | named {target : Target} {u : List Token} : target.Covers u → Covers (.named target) u
  | factor {d : Nat} {target : Target} {level : Level} {outer : List Level} {u v w : List Token}
      (equals : Location) :
    target.Covers u → Opened d outer v → level.Covers d w →
      Covers (.factor target level outer) (u ++ ⟨.assign, equals⟩ :: (v ++ w))
  | operator {d : Nat} {target : Target} {sum : Option Pending} {product : Expr}
      {outer : List Level} {u v w x : List Token} (equals : Location) :
    target.Covers u → Opened d outer v → Pending.Covers false (Sum d) sum w →
      Product d x product →
      Covers (.operator target sum product outer) (u ++ ⟨.assign, equals⟩ :: (v ++ (w ++ x)))

/-- The statements that are done and the one in the middle. -/
inductive Reader.Covers : Reader → List Token → Prop
  | mk {done : List Statement} {phase : Phase} {u v : List Token} :
    Grammar.Program maxNesting u done.reverse → phase.Covers v → Covers ⟨done, phase⟩ (u ++ v)

namespace Phase

/-- A factor goes into the product that waits for it. -/
theorem covers_read {d : Nat} {target : Target} {level : Level} {outer : List Level}
    {u v w x : List Token} {e : Expr} (equals : Location) (hu : target.Covers u)
    (hv : Opened d outer v) (hw : level.Covers d w) (he : Factor d x e) :
    Covers (.read target level outer e) (u ++ ⟨.assign, equals⟩ :: (v ++ (w ++ x))) := by
  cases hw with
  | mk hsum hproduct =>
    have h := Covers.operator equals hu hv hsum (hproduct.close_product he)
    simpa [read] using h

theorem covers_applied {d : Nat} {target : Target} {sum : Option Pending} {product : Expr}
    {outer : List Level} {u v w x : List Token} (equals : Location) (hu : target.Covers u)
    (hv : Opened d outer v) (hw : Pending.Covers false (Sum d) sum w) (hx : Product d x product)
    (op : Operator) (l : Location) :
    Covers (.applied target sum product outer op l)
      (u ++ ⟨.assign, equals⟩ :: (v ++ (w ++ x)) ++ [⟨.operator op, l⟩]) := by
  unfold applied
  cases hop : op.isProduct with
  | true =>
    have h := Covers.factor equals hu hv (.mk hw (.some op l hop hx))
    simpa using h
  | false =>
    have h := Covers.factor equals hu hv (.mk (.some op l hop (hw.close_sum hx)) .none)
    simpa using h

end Phase

namespace Reader

theorem Covers.move {done : List Statement} {phase : Phase} {w : List Token} {t : Token}
    {r : Reader} (h : Covers ⟨done, phase⟩ w) (hmove : Move done phase t r) :
    r.Covers (w ++ [t]) := by
  obtain ⟨hdone, hphase⟩ := h
  rw [List.append_assoc]
  cases hmove with
  | keyword l =>
    cases hphase
    exact .mk hdone (.declaring l)
  | assigned x l =>
    cases hphase
    exact .mk hdone (.named (.assignment x l))
  | declared x l =>
    cases hphase with
    | declaring keyword => exact .mk hdone (.named (.declaration x keyword l))
  | equals target l =>
    cases hphase with
    | named hu => exact .mk hdone (.factor l hu .nil (Level.covers_fresh maxNesting))
  | number target level outer n l =>
    cases hphase with
    | @factor d _ _ _ u v w equals hu hv hw =>
      have h := Phase.covers_read equals hu hv hw (.number d n l)
      exact .mk hdone (by simpa using h)
  | var target level outer x l =>
    cases hphase with
    | @factor d _ _ _ u v w equals hu hv hw =>
      have h := Phase.covers_read equals hu hv hw (.var d x l)
      exact .mk hdone (by simpa using h)
  | opening target level outer l hlt =>
    cases hphase with
    | @factor d _ _ _ u v w equals hu hv hw =>
      -- There is room for one more level, so the count of those left is not zero.
      have hlen := hv.length_add
      obtain ⟨d, rfl⟩ : ∃ k, d = k + 1 := ⟨d - 1, by omega⟩
      have h := Phase.Covers.factor equals hu (.cons l hv hw) (Level.covers_fresh d)
      exact .mk hdone (by simpa using h)
  | operator target sum product outer op l =>
    cases hphase with
    | operator equals hu hv hw hx =>
      exact .mk hdone (Phase.covers_applied equals hu hv hw hx op l)
  | closing target sum product level outer l =>
    cases hphase with
    | operator equals hu hv hw hx =>
      cases hv with
      | cons opening hv hlevel =>
        have h := Phase.covers_read equals hu hv hlevel (.paren opening l (hw.close_sum hx))
        exact .mk hdone (by simpa using h)
  | stop target sum product l =>
    cases hphase with
    | operator equals hu hv hw hx =>
      cases hv
      have hp := hdone.concat (hu.statement equals l (hw.close_sum hx))
      rw [← List.reverse_cons] at hp
      simpa using Covers.mk hp .start

theorem Covers.steps {r r' : Reader} {u v : List Token} (h : r.Covers u)
    (hsteps : r.steps v = .ok r') : r'.Covers (u ++ v) := by
  induction v generalizing r u with
  | nil =>
    cases hsteps
    simpa using h
  | cons t v ih =>
    rw [Reader.steps] at hsteps
    cases ht : r.step t with
    | error e => simp [ht] at hsteps
    | ok r₁ =>
      rw [ht] at hsteps
      have h₁ := h.move (move_of_step ht)
      simpa using ih h₁ hsteps

theorem covers_init : Covers init [] := .mk (u := []) (.nil maxNesting) .start

end Reader

end StraightLine
