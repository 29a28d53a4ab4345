import StraightLine.Token.Stream

/-! Reading without an end in sight. `steps` takes tokens until one does not fit; a run is that on
the tokens before the first end, and then a look at the phase. -/
namespace StraightLine

namespace Reader

/-- The moves of a reader, one for each token that fits. -/
inductive Move (done : List Statement) : Phase → Token → Reader → Prop
  | keyword (l : Location) : Move done .start ⟨.var, l⟩ ⟨done, .declaring⟩
  | assigned (x : String) (l : Location) :
    Move done .start ⟨.identifier x, l⟩ ⟨done, .named ⟨.assignment, x, l⟩⟩
  | declared (x : String) (l : Location) :
    Move done .declaring ⟨.identifier x, l⟩ ⟨done, .named ⟨.declaration, x, l⟩⟩
  | equals (target : Target) (l : Location) :
    Move done (.named target) ⟨.assign, l⟩ ⟨done, .factor target Phase.fresh []⟩
  | number (target : Target) (level : Level) (outer : List Level) (n : Int64) (l : Location) :
    Move done (.factor target level outer) ⟨.integer n, l⟩
      ⟨done, .read target level outer (.number n l)⟩
  | var (target : Target) (level : Level) (outer : List Level) (x : String) (l : Location) :
    Move done (.factor target level outer) ⟨.identifier x, l⟩
      ⟨done, .read target level outer (.var x l)⟩
  | opening (target : Target) (level : Level) (outer : List Level) (l : Location) :
    outer.length < maxNesting → Move done (.factor target level outer) ⟨.lparen, l⟩
      ⟨done, .factor target Phase.fresh (level :: outer)⟩
  | operator (target : Target) (sum : Option Pending) (product : Expr) (outer : List Level)
      (op : Operator) (l : Location) :
    Move done (.operator target sum product outer) ⟨.operator op, l⟩
      ⟨done, .applied target sum product outer op l⟩
  | closing (target : Target) (sum : Option Pending) (product : Expr) (level : Level)
      (outer : List Level) (l : Location) :
    Move done (.operator target sum product (level :: outer)) ⟨.rparen, l⟩
      ⟨done, .read target level outer (Pending.close sum product)⟩
  | stop (target : Target) (sum : Option Pending) (product : Expr) (l : Location) :
    Move done (.operator target sum product []) ⟨.semicolon, l⟩
      ⟨⟨target, Pending.close sum product⟩ :: done, .start⟩

theorem move_of_step {r r' : Reader} {t : Token} (h : r.step t = .ok r') :
    Move r.done r.phase t r' := by
  obtain ⟨done, phase⟩ := r
  obtain ⟨kind, l⟩ := t
  cases phase with
  | start =>
    cases kind with
    | var => cases h; exact .keyword l
    | identifier x => cases h; exact .assigned x l
    | _ => cases h
  | declaring =>
    cases kind with
    | identifier x => cases h; exact .declared x l
    | _ => cases h
  | named target =>
    cases kind with
    | assign => cases h; exact .equals target l
    | _ => cases h
  | factor target level outer =>
    cases kind with
    | integer n => cases h; exact .number target level outer n l
    | identifier x => cases h; exact .var target level outer x l
    | lparen =>
      simp only [step] at h
      split at h
      next hlt => cases h; exact .opening target level outer l hlt
      next => cases h
    | _ => cases h
  | operator target sum product outer =>
    cases kind with
    | operator op => cases h; exact .operator target sum product outer op l
    | rparen =>
      cases outer with
      | nil => cases h
      | cons level outer => cases h; exact .closing target sum product level outer l
    | semicolon =>
      cases outer with
      | nil => cases h; exact .stop target sum product l
      | cons level outer => cases h
    | _ => cases outer <;> cases h

def steps (r : Reader) : List Token → Except GrammarError Reader
  | [] => .ok r
  | t :: ts =>
    match r.step t with
    | .ok r => r.steps ts
    | .error e => .error e

theorem steps_append (r : Reader) (u v : List Token) :
    r.steps (u ++ v) = r.steps u >>= fun r' => r'.steps v := by
  induction u generalizing r with
  | nil => rfl
  | cons t u ih =>
    simp only [List.cons_append, steps]
    cases r.step t with
    | ok r' => exact ih r'
    | error e => rfl

theorem steps_append_of_ok {r r' : Reader} {u : List Token} (h : r.steps u = .ok r')
    (v : List Token) : r.steps (u ++ v) = r'.steps v := by
  rw [steps_append, h]
  rfl

theorem steps_cons_of_ok {r r' : Reader} {t : Token} (h : r.step t = .ok r') (v : List Token) :
    r.steps (t :: v) = r'.steps v := by
  rw [steps, h]

/-- A run answers with a program only from between statements. -/
theorem run_eq_ok_iff (stop : Location) (r : Reader) (ts : List Token) (p : Program) :
    (r.run stop ts).1 = .ok p ↔
      ∃ done, r.steps (ts.takeWhile fun t => !t.isEof) = .ok ⟨done, .start⟩ ∧
        p = done.reverse := by
  have hfinish : ∀ (r : Reader) (t : Token), r.finish t = .ok p ↔
      ∃ done, r.steps [] = .ok ⟨done, .start⟩ ∧ p = done.reverse := by
    intro r t
    obtain ⟨done, phase⟩ := r
    cases phase with
    | start => simp [finish, steps, eq_comm]
    | _ => simp [finish, steps]
  induction ts generalizing r with
  | nil => exact hfinish r _
  | cons t ts ih =>
    rw [run]
    cases ht : t.isEof with
    | true => simpa [ht] using hfinish r t
    | false =>
      simp only [Bool.false_eq_true, if_false, List.takeWhile_cons, ht, Bool.not_false, if_true,
        steps]
      cases r.step t with
      | ok r' => exact ih r'
      | error e => simp

end Reader

theorem Program.ofTokens_eq_ok_iff_steps (ts : List Token) (p : Program) :
    Program.ofTokens ts = .ok p ↔
      ∃ done, Reader.init.steps (ts.takeWhile fun t => !t.isEof) = .ok ⟨done, .start⟩ ∧
        p = done.reverse :=
  Reader.run_eq_ok_iff _ Reader.init ts p

end StraightLine
