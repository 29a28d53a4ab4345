import StraightLine.Token.Stream

/-! Programs in other words. A program whose names, numbers and places are replaced throughout is
read off the tokens replaced in the same way, and a token that does not fit is refused for the same
reason: the reader looks at none of the three. -/
namespace StraightLine

/-- What becomes of a name and of a number. -/
structure Rewording where
  name : String → String
  value : Int64 → Int64

variable (φ : Rewording) (place : Location → Location)

namespace Token

def Kind.reword : Kind → Kind
  | .integer n => .integer (φ.value n)
  | .identifier x => .identifier (φ.name x)
  | k => k

def reword (t : Token) : Token := ⟨t.kind.reword φ, place t.location⟩

@[simp] theorem isEof_reword (t : Token) : (t.reword φ place).isEof = t.isEof := by
  obtain ⟨kind, l⟩ := t
  cases kind <;> rfl

end Token

def Expr.reword : Expr → Expr
  | .number n l => .number (φ.value n) (place l)
  | .var x l => .var (φ.name x) (place l)
  | .binary op a b l => .binary op a.reword b.reword (place l)

def Target.reword (target : Target) : Target :=
  ⟨target.form, φ.name target.name, place target.location⟩

def Statement.reword (s : Statement) : Statement :=
  ⟨s.toTarget.reword φ place, s.value.reword φ place⟩

def Program.reword (p : Program) : Program := p.map (Statement.reword φ place)

def GrammarError.reword : GrammarError → GrammarError
  | .unexpectedToken expected found l => .unexpectedToken expected (found.reword φ) (place l)
  | .invalidFactor found l => .invalidFactor (found.reword φ) (place l)
  | .nestingTooDeep limit l => .nestingTooDeep limit (place l)

def Pending.reword (p : Pending) : Pending := ⟨p.left.reword φ place, p.op, place p.location⟩

def Level.reword (level : Level) : Level :=
  ⟨level.sum.map (Pending.reword φ place), level.product.map (Pending.reword φ place)⟩

theorem Pending.reword_close (p : Option Pending) (e : Expr) :
    (Pending.close p e).reword φ place =
      Pending.close (p.map (Pending.reword φ place)) (e.reword φ place) := by
  cases p <;> rfl

namespace Phase

def reword : Phase → Phase
  | .start => .start
  | .declaring => .declaring
  | .named target => .named (target.reword φ place)
  | .factor target level outer =>
    .factor (target.reword φ place) (level.reword φ place) (outer.map (Level.reword φ place))
  | .operator target sum product outer =>
    .operator (target.reword φ place) (sum.map (Pending.reword φ place))
      (product.reword φ place) (outer.map (Level.reword φ place))

theorem reword_read (target : Target) (level : Level) (outer : List Level) (e : Expr) :
    (read target level outer e).reword φ place =
      read (target.reword φ place) (level.reword φ place) (outer.map (Level.reword φ place))
        (e.reword φ place) := by
  simp only [read, reword, Level.reword, Pending.reword_close]

theorem reword_applied (target : Target) (sum : Option Pending) (product : Expr)
    (outer : List Level) (op : Operator) (l : Location) :
    (applied target sum product outer op l).reword φ place =
      applied (target.reword φ place) (sum.map (Pending.reword φ place)) (product.reword φ place)
        (outer.map (Level.reword φ place)) op (place l) := by
  rw [applied, applied, ← Pending.reword_close]
  split <;> rfl

theorem refusal_reword (phase : Phase) (t : Token) :
    (phase.reword φ place).refusal (t.reword φ place) =
      (phase.refusal t).reword φ place := by
  cases phase with
  | start => rfl
  | declaring => rfl
  | named target => rfl
  | factor target level outer =>
    obtain ⟨kind, l⟩ := t
    cases kind <;> rfl
  | operator target sum product outer => cases outer <;> rfl

end Phase

namespace Reader

def reword (r : Reader) : Reader := ⟨Program.reword φ place r.done, r.phase.reword φ place⟩

theorem step_reword (r : Reader) (t : Token) :
    (r.reword φ place).step (t.reword φ place) =
      ((r.step t).map (reword φ place)).mapError (GrammarError.reword φ place) := by
  obtain ⟨done, phase⟩ := r
  -- Of a move that ends no statement only the phase is to be compared.
  have hok : ∀ {phase' phase'' : Phase}, phase'.reword φ place = phase'' →
      Except.ok (ε := GrammarError) ⟨Program.reword φ place done, phase''⟩ =
        .ok (reword φ place ⟨done, phase'⟩) := by
    rintro phase' _ rfl
    rfl
  obtain ⟨kind, l⟩ := t
  cases phase with
  | start => cases kind <;> rfl
  | declaring => cases kind <;> rfl
  | named target => cases kind <;> rfl
  | factor target level outer =>
    cases kind with
    | integer n => exact hok (Phase.reword_read φ place target level outer (.number n l))
    | identifier x => exact hok (Phase.reword_read φ place target level outer (.var x l))
    | lparen =>
      simp only [reword, Phase.reword, Token.reword, Token.Kind.reword, step, List.length_map]
      split <;> rfl
    | _ => rfl
  | operator target sum product outer =>
    have hclose := Pending.reword_close φ place sum product
    cases kind with
    | operator op => exact hok (Phase.reword_applied φ place target sum product outer op l)
    | rparen =>
      cases outer with
      | nil => rfl
      | cons level outer =>
        have hread := Phase.reword_read φ place target level outer (Pending.close sum product)
        rw [hclose] at hread
        exact hok hread
    | semicolon =>
      cases outer with
      | nil =>
        change Except.ok (Reader.mk (⟨target.reword φ place, _⟩ :: _) .start) = _
        rw [← hclose]
        rfl
      | cons level outer => rfl
    | _ => cases outer <;> rfl

theorem finish_reword (r : Reader) (t : Token) :
    (r.reword φ place).finish (t.reword φ place) =
      ((r.finish t).map (Program.reword φ place)).mapError (GrammarError.reword φ place) := by
  obtain ⟨done, phase⟩ := r
  have hrefusal := phase.refusal_reword φ place t
  cases phase with
  | start => exact congrArg Except.ok List.map_reverse.symm
  | _ => exact congrArg Except.error hrefusal

theorem run_reword (stop : Location) (r : Reader) (ts : List Token) :
    ((r.reword φ place).run (place stop) (ts.map (Token.reword φ place))).1 =
      ((r.run stop ts).1.map (Program.reword φ place)).mapError (GrammarError.reword φ place) := by
  induction ts generalizing r with
  | nil => exact finish_reword φ place r ⟨.eof, stop⟩
  | cons t ts ih =>
    rw [List.map_cons, run, run, Token.isEof_reword]
    split
    · exact finish_reword φ place r t
    · rw [step_reword]
      cases r.step t with
      | ok r' => exact ih r'
      | error e => rfl

end Reader

theorem Program.ofTokens_reword {ts : List Token} (hts : ts ≠ []) :
    Program.ofTokens (ts.map (Token.reword φ place)) =
      ((Program.ofTokens ts).map (Program.reword φ place)).mapError
        (GrammarError.reword φ place) := by
  have hstop : (TokenStream.ofTokens (ts.map (Token.reword φ place))).stop =
      place (TokenStream.ofTokens ts).stop := by
    simp [TokenStream.ofTokens, List.getLast?_eq_some_getLast hts, Token.reword]
  have hrun := Reader.run_reword φ place (TokenStream.ofTokens ts).stop Reader.init ts
  rw [← hstop] at hrun
  exact hrun

/-- Tokens of the same kinds, but for names and numbers, are the same tokens in other words. No two
of the first stand at one place, so a place leads to the one that takes its stead. -/
theorem exists_map_reword {φ : Rewording} {ts ts' : List Token}
    (hplaces : (ts.map Token.location).Nodup)
    (hkinds : ts'.map Token.kind = ts.map fun t => t.kind.reword φ) :
    ∃ place, ts' = ts.map (Token.reword φ place) := by
  induction ts generalizing ts' with
  | nil => exact ⟨id, List.map_eq_nil_iff.1 hkinds⟩
  | cons t ts ih =>
    obtain ⟨t', us, rfl, hkind, hrest⟩ := List.map_eq_cons_iff.1 hkinds
    rw [List.map_cons, List.nodup_cons] at hplaces
    obtain ⟨place, rfl⟩ := ih hplaces.2 hrest
    refine ⟨fun l => if l = t.location then t'.location else place l, ?_⟩
    rw [List.map_cons]
    congr 1
    · simp [Token.reword, ← hkind]
    · refine List.map_congr_left ?_
      intro u hu
      have hne : u.location ≠ t.location := fun h => hplaces.1 (h ▸ List.mem_map_of_mem hu)
      simp [Token.reword, hne]

end StraightLine
