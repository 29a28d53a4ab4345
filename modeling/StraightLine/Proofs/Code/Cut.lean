import StraightLine.Proofs.Code.Occurrences

/-! Code cut where its statements meet. A statement adds to the code of those before it the
instructions of its operators, and a copy at the end. -/
namespace StraightLine

theorem Expr.dest?_codeAfter (e : Expr) (k : Nat) : ∀ i ∈ e.codeAfter k, i.dest? = none := by
  induction e generalizing k with
  | number n l => simp [codeAfter]
  | var x l => simp [codeAfter]
  | binary op a b l iha ihb =>
    simp only [codeAfter, List.forall_mem_append, List.forall_mem_singleton]
    exact ⟨⟨iha k, ihb _⟩, rfl⟩

namespace Program

/-- The code of a program around that of its statement `s`: the code of the statements before it,
the instructions of its operators, the copy of `x` that ends it, and the code of the others. -/
structure Cut (p : Program) (s : Statement) (before body : List Instruction) (x : Operand)
    (after : List Instruction) : Prop where
  code : p.code = before ++ (body ++ [.copy s.name x]) ++ after
  statement : ∃ q r, p = q ++ s :: r ∧ q.code = before ∧
    Program.code (q ++ [s]) = before ++ (body ++ [.copy s.name x])
  operators : ∀ i ∈ body, i.dest? = none

theorem code_append (p q : Program) :
    Program.code (p ++ q) = p.code ++ Program.codeAfter p.operatorCount q := by
  rw [code_eq, code_eq, codeAfter_append, Nat.zero_add]

theorem cut (q : Program) (s : Statement) (r : Program) :
    Cut (q ++ s :: r) s q.code (s.value.codeAfter q.operatorCount)
      (s.value.operandAfter q.operatorCount)
      (Program.codeAfter (q.operatorCount + s.value.operatorCount) r) where
  code := by rw [code_append, codeAfter, Statement.codeAfter, List.append_assoc q.code]
  statement := by
    refine ⟨q, r, rfl, rfl, ?_⟩
    rw [code_append, codeAfter, codeAfter, Statement.codeAfter, List.append_nil]
  operators := Expr.dest?_codeAfter _ _

/-- Every instruction belongs to one statement. -/
theorem exists_statement_of_codeAfter {p : Program} {k : Nat} {u v : List Instruction}
    {i : Instruction} (h : Program.codeAfter k p = u ++ i :: v) :
    ∃ q s r w z, p = q ++ s :: r ∧ u = Program.codeAfter k q ++ w ∧
      s.codeAfter (k + q.operatorCount) = w ++ i :: z := by
  induction p generalizing k u with
  | nil => simp [codeAfter] at h
  | cons s p ih =>
    rw [codeAfter] at h
    have hwhere : (∃ w, u = s.codeAfter k ++ w ∧
        Program.codeAfter (k + s.value.operatorCount) p = w ++ i :: v) ∨
        ∃ z, s.codeAfter k = u ++ i :: z := by
      obtain h | ⟨w, hs, hv⟩ := List.append_eq_append_iff.1 h
      · exact .inl h
      · cases w with
        | nil => exact .inl ⟨[], by simp [hs], hv.symm⟩
        | cons j w =>
          obtain ⟨rfl, -⟩ := List.cons.inj hv
          exact .inr ⟨w, hs⟩
    obtain ⟨w, rfl, hrest⟩ | ⟨z, hs⟩ := hwhere
    · obtain ⟨q, s', r, w', z, rfl, rfl, hs'⟩ := ih hrest
      refine ⟨s :: q, s', r, w', z, rfl, ?_, ?_⟩
      · rw [codeAfter, List.append_assoc]
      · rw [operatorCount_cons, ← Nat.add_assoc, hs']
    · exact ⟨[], s, p, u, z, rfl, rfl, hs⟩

end Program

end StraightLine
