import Mathlib.Data.List.Basic
import StraightLine.Proofs.Program.Acceptance

/-! Programs that go on. A reader between statements reads what follows as if it had read nothing
before, so the tokens of a program and of what comes behind it are read one after the other. -/
namespace StraightLine

namespace Reader

/-- The same reader behind the statements of `base`, last one first. -/
def behind (base : List Statement) (r : Reader) : Reader := ⟨r.done ++ base, r.phase⟩

theorem step_behind (base : List Statement) (r : Reader) (t : Token) :
    (r.behind base).step t = (r.step t).map (behind base) := by
  obtain ⟨done, phase⟩ := r
  obtain ⟨kind, l⟩ := t
  cases phase with
  | start => cases kind <;> rfl
  | declaring => cases kind <;> rfl
  | named target => cases kind <;> rfl
  | factor target level outer =>
    cases kind with
    | lparen =>
      simp only [behind, step]
      split <;> rfl
    | _ => rfl
  | operator target sum product outer =>
    cases kind with
    | rparen => cases outer <;> rfl
    | semicolon => cases outer <;> rfl
    | _ => rfl

theorem finish_behind (base : List Statement) (r : Reader) (t : Token) :
    (r.behind base).finish t = (r.finish t).map (base.reverse ++ ·) := by
  obtain ⟨done, phase⟩ := r
  cases phase with
  | start => simp [behind, finish, Except.map]
  | _ => rfl

theorem run_behind (base : List Statement) (stop : Location) (r : Reader) (ts : List Token) :
    ((r.behind base).run stop ts).1 = (r.run stop ts).1.map (base.reverse ++ ·) := by
  induction ts generalizing r with
  | nil => exact finish_behind base r _
  | cons t ts ih =>
    rw [run, run]
    split
    · exact finish_behind base r t
    · rw [step_behind]
      cases r.step t with
      | ok r' => exact ih r'
      | error e => rfl

/-- Tokens that fit are taken before those behind them. -/
theorem run_append {r r' : Reader} {w : List Token} (h : r.steps w = .ok r')
    (hw : ∀ t ∈ w, t.isEof = false) (stop : Location) (v : List Token) :
    r.run stop (w ++ v) = r'.run stop v := by
  induction w generalizing r with
  | nil => cases h; rfl
  | cons t w ih =>
    rw [List.forall_mem_cons] at hw
    cases ht : r.step t with
    | error e => simp [steps, ht] at h
    | ok r₁ =>
      rw [steps_cons_of_ok ht] at h
      rw [List.cons_append, run, hw.1, if_neg Bool.false_ne_true, ht]
      exact ih h hw.2

end Reader

/-- The tokens of a program and those behind it are read as the program and what the others are read
as. -/
theorem Program.ofTokens_append {w v : List Token} {p : Program}
    (h : Grammar.Program maxNesting w p) (hw : ∀ t ∈ w, t.isEof = false) (hv : v ≠ []) :
    Program.ofTokens (w ++ v) = (Program.ofTokens v).map (p ++ ·) := by
  have hsteps : Reader.init.steps w = .ok (Reader.init.behind p.reverse) := by
    simpa [Reader.behind, Reader.init] using Reader.steps_program h []
  have hstop : (TokenStream.ofTokens (w ++ v)).stop = (TokenStream.ofTokens v).stop := by
    simp only [TokenStream.ofTokens, List.getLast?_append_of_ne_nil w hv]
  have hrun := Reader.run_append hsteps hw (TokenStream.ofTokens v).stop v
  calc Program.ofTokens (w ++ v)
      = (Reader.init.run (TokenStream.ofTokens (w ++ v)).stop (w ++ v)).1 := rfl
    _ = ((Reader.init.behind p.reverse).run (TokenStream.ofTokens v).stop v).1 := by
      rw [hstop, hrun]
    _ = (Program.ofTokens v).map (p ++ ·) := by
      rw [Reader.run_behind, List.reverse_reverse]
      rfl

end StraightLine
