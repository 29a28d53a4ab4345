import Mathlib.Data.List.Forall2
import StraightLine.Proofs.Compile.Stages

/-! The program behind code. Every copy ends a statement, and its operand stands for a tree that is
found by putting, for each temporary, the operator that sets it. Only places and the forms of
statements are not in the code; where names are disciplined, the forms come back too, since a name
is declared where it comes first. -/
namespace StraightLine

/-- The expression that an operand stands for, if each temporary stands for the given one. -/
def Operand.tree (trees : Nat → Expr) : Operand → Expr
  | .literal n => .number n .start
  | .var x => .var x .start
  | .temp n => trees n

/-- The names that code sets, in order, and the value that each is set to. -/
def recover (trees : Nat → Expr) : List Instruction → List (String × Expr)
  | [] => []
  | .copy dest source :: code => (dest, source.tree trees) :: recover trees code
  | .binary n left op right :: code =>
    let value := .binary op (left.tree trees) (right.tree trees) .start
    recover (fun m => if m = n then value else trees m) code

def Statement.bare (s : Statement) : String × Expr := (s.name, s.value.unplaced)

namespace Expr

theorem tree_operandAfter_congr {e : Expr} {k : Nat} {trees trees' : Nat → Expr}
    (h : ∀ n ≤ k + e.operatorCount, trees' n = trees n) :
    (e.operandAfter k).tree trees' = (e.operandAfter k).tree trees := by
  cases e with
  | number n l => rfl
  | var x l => rfl
  | binary op a b l => exact h _ (Nat.le_refl _)

theorem exists_recover_codeAfter (e : Expr) (k : Nat) (trees : Nat → Expr)
    (rest : List Instruction) :
    ∃ trees', recover trees (e.codeAfter k ++ rest) = recover trees' rest ∧
      (e.operandAfter k).tree trees' = e.unplaced ∧ ∀ n ≤ k, trees' n = trees n := by
  induction e generalizing k trees rest with
  | number n l => exact ⟨trees, rfl, rfl, fun _ _ => rfl⟩
  | var x l => exact ⟨trees, rfl, rfl, fun _ _ => rfl⟩
  | binary op a b l iha ihb =>
    let last := Instruction.binary (k + (binary op a b l).operatorCount) (a.operandAfter k) op
      (b.operandAfter (k + a.operatorCount))
    obtain ⟨trees₁, hcode₁, ha, hkept₁⟩ :=
      iha k trees (b.codeAfter (k + a.operatorCount) ++ last :: rest)
    obtain ⟨trees₂, hcode₂, hb, hkept₂⟩ := ihb (k + a.operatorCount) trees₁ (last :: rest)
    have ha₂ : (a.operandAfter k).tree trees₂ = a.unplaced := by
      rw [tree_operandAfter_congr hkept₂, ha]
    refine ⟨fun m => if m = k + (binary op a b l).operatorCount then
      .binary op a.unplaced b.unplaced .start else trees₂ m, ?_, ?_, ?_⟩
    · rw [codeAfter, List.append_assoc, List.append_assoc, List.singleton_append, hcode₁, hcode₂,
        recover, ha₂, hb]
    · simp [operandAfter, Operand.tree, unplaced]
    · intro n hn
      have hne : n ≠ k + (binary op a b l).operatorCount := by
        rw [operatorCount_binary]
        omega
      simp only [if_neg hne, hkept₂ n (by omega), hkept₁ n hn]

end Expr

namespace Program

theorem recover_codeAfter (p : Program) (k : Nat) (trees : Nat → Expr) :
    recover trees (Program.codeAfter k p) = p.map Statement.bare := by
  induction p generalizing k trees with
  | nil => rfl
  | cons s p ih =>
    obtain ⟨trees', hcode, hvalue, -⟩ := s.value.exists_recover_codeAfter k trees
      (.copy s.name (s.value.operandAfter k) :: Program.codeAfter (k + s.value.operatorCount) p)
    rw [codeAfter, Statement.codeAfter, List.append_assoc, List.singleton_append, hcode, recover,
      hvalue, ih]
    rfl

theorem codeAfter_eq_of_bare {p q : Program} (h : p.map Statement.bare = q.map Statement.bare)
    (k : Nat) : Program.codeAfter k p = Program.codeAfter k q := by
  induction p generalizing q k with
  | nil =>
    rw [List.map_nil, eq_comm, List.map_eq_nil_iff] at h
    rw [h]
  | cons s p ih =>
    obtain ⟨t, q, rfl, hst, hpq⟩ := List.map_eq_cons_iff.1 h.symm
    obtain ⟨hname, hvalue⟩ := Prod.mk.inj hst
    have hcode : ∀ k, t.value.codeAfter k = s.value.codeAfter k := by
      intro k
      rw [← Expr.codeAfter_unplaced, hvalue, Expr.codeAfter_unplaced]
    have hoperand : t.value.operandAfter k = s.value.operandAfter k := by
      rw [← Expr.operandAfter_unplaced, hvalue, Expr.operandAfter_unplaced]
    have hcount : t.value.operatorCount = s.value.operatorCount := by
      rw [← Expr.operatorCount_unplaced, hvalue, Expr.operatorCount_unplaced]
    rw [codeAfter, codeAfter, Statement.codeAfter, Statement.codeAfter, hcode, hoperand, hcount,
      hname, ih hpq.symm]

theorem code_eq_iff_bare (p q : Program) :
    p.code = q.code ↔ p.map Statement.bare = q.map Statement.bare := by
  rw [code_eq, code_eq]
  constructor
  · intro h
    have hrecover := congrArg (recover fun _ => .number 0 .start) h
    rwa [recover_codeAfter, recover_codeAfter] at hrecover
  · intro h
    exact codeAfter_eq_of_bare h 0

end Program

theorem Statement.Admitted.declaration_iff {known : List String} {s : Statement}
    (h : s.Admitted known) : s.form = .declaration ↔ s.name ∉ known := by
  cases hform : s.form with
  | declaration => simpa using ((Statement.admitted_declaration hform known).1 h).1
  | assignment => simpa using ((Statement.admitted_assignment hform known).1 h).1

namespace Program

theorem Disciplined.unplaced_eq {known : List String} {p q : Program} (hp : p.Disciplined known)
    (hq : q.Disciplined known) (h : p.map Statement.bare = q.map Statement.bare) :
    p.unplaced = q.unplaced := by
  induction p generalizing q known with
  | nil =>
    rw [List.map_nil, eq_comm, List.map_eq_nil_iff] at h
    rw [h]
  | cons s p ih =>
    obtain ⟨t, q, rfl, hst, hpq⟩ := List.map_eq_cons_iff.1 h.symm
    obtain ⟨hname, hvalue⟩ := Prod.mk.inj hst
    -- The names known so far tell whether a statement declares its own.
    have hform : t.form = s.form := by
      have hs := hp.head.declaration_iff
      have ht := hq.head.declaration_iff
      rw [hname, ← hs] at ht
      cases hf : s.form with
      | declaration => exact ht.2 hf
      | assignment =>
        cases hg : t.form with
        | declaration => cases hf.symm.trans (ht.1 hg)
        | assignment => rfl
    have hsame : t.unplaced = s.unplaced := by
      simp [Statement.unplaced, hform, hname, hvalue]
    have hknown : Program.declaredNames [t] = Program.declaredNames [s] := by
      rw [← Statement.declaredNames_unplaced, hsame, Statement.declaredNames_unplaced]
    have hrest := ih hp.tail (hknown ▸ hq.tail) hpq.symm
    change s.unplaced :: Program.unplaced p = t.unplaced :: Program.unplaced q
    rw [hsame, hrest]

/-- Two programs have the same code just if they have as many statements and these set, one by one,
the same names to the same values up to places. Two texts with the same code have the same program
up to places. -/
theorem code_determines_program :
    (∀ p q : Program, p.code = q.code ↔
      List.Forall₂ (fun s t => s.name = t.name ∧ s.value.unplaced = t.value.unplaced) p q) ∧
    ∀ (source source' : String) (c c' : Compiled), compile source = .ok c →
      compile source' = .ok c' → c.code = c'.code →
        ∃ p q, Program.ofSource source = .ok p ∧ Program.ofSource source' = .ok q ∧
          p.unplaced = q.unplaced := by
  constructor
  · intro p q
    rw [code_eq_iff_bare, ← List.forall₂_eq_eq_eq]
    simp only [List.forall₂_map_left_iff, List.forall₂_map_right_iff, Statement.bare,
      Prod.mk.injEq]
  · intro source source' c c' hc hc' hcode
    obtain ⟨p, hp, hcheck, rfl⟩ := (compile_eq_ok_iff source c).1 hc
    obtain ⟨q, hq, hcheck', rfl⟩ := (compile_eq_ok_iff source' c').1 hc'
    have hdisciplined : p.Disciplined [] := (SymbolTable.check_eq_ok_iff _ p).1 hcheck
    have hdisciplined' : q.Disciplined [] := (SymbolTable.check_eq_ok_iff _ q).1 hcheck'
    have hbare := (code_eq_iff_bare p q).1 hcode
    exact ⟨p, q, hp, hq, hdisciplined.unplaced_eq hdisciplined' hbare⟩

theorem code_determines_program_of_layouts :
    ∃ p q, Program.ofSource "var a = 1 + 2 * a; a = a;" = .ok p ∧
      Program.ofSource "var a=1+(2*(a));\na=((a));" = .ok q ∧ p.unplaced = q.unplaced := by
  let code : List Instruction := [.binary 1 (.literal 2) .mul (.var "a"),
    .binary 2 (.literal 1) .add (.temp 1), .copy "a" (.temp 2), .copy "a" (.var "a")]
  obtain ⟨c, hc, hcode⟩ := exists_ok_of_toOption_map (x := compile "var a = 1 + 2 * a; a = a;")
    (f := Compiled.code) (v := code) (by decide +kernel)
  obtain ⟨c', hc', hcode'⟩ := exists_ok_of_toOption_map
    (x := compile "var a=1+(2*(a));\na=((a));") (f := Compiled.code) (v := code)
    (by decide +kernel)
  exact code_determines_program.2 _ _ c c' hc hc' (hcode.trans hcode'.symm)

end Program

end StraightLine
