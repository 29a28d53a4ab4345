import StraightLine.Proofs.Scope.Discipline

/-! Where the check fails: at the first statement that breaks the discipline of names. -/
namespace StraightLine

/-- How a statement breaks the discipline if these symbols are known before it. -/
inductive Statement.Violates (known : List Symbol) (s : Statement) : NamingError → Prop
  | redeclared {symbol : Symbol} : s.form = .declaration → symbol ∈ known → symbol.name = s.name →
    Violates known s (.alreadyDeclared s.name s.location symbol.declaredAt)
  | target : s.form = .assignment → s.name ∉ known.map Symbol.name →
    Violates known s (.notDeclared s.name s.location)
  | use {x : String} {l : Location} : (x, l) ∈ s.value.uses →
    x ∉ known.map Symbol.name ++ Program.declaredNames [s] → Violates known s (.notDeclared x l)

namespace SymbolTable

theorem checkExpr_eq_error {t : SymbolTable} {e : Expr} {err : NamingError}
    (h : t.checkExpr e = .error err) :
    ∃ x l, (x, l) ∈ e.uses ∧ x ∉ t.names ∧ err = .notDeclared x l := by
  rw [checkExpr_eq] at h
  cases hfind : e.uses.find? fun u => !t.contains u.1 with
  | none =>
    rw [hfind] at h
    cases h
  | some u =>
    rw [hfind] at h
    cases h
    have hnot : t.contains u.1 = false := by simpa using List.find?_some hfind
    refine ⟨u.1, u.2, List.mem_of_find?_eq_some hfind, ?_, rfl⟩
    rw [← t.contains_iff_mem_names, hnot]
    exact Bool.false_ne_true

theorem violates_of_checkStatement {t : SymbolTable} {s : Statement} {e : NamingError}
    (h : (t.checkStatement s).1 = .error e) : s.Violates t.toList e := by
  unfold checkStatement at h
  cases hform : s.form with
  | declaration =>
    rw [hform] at h
    cases hs : t.lookup? s.name with
    | some symbol =>
      rw [declare_of_some hs] at h
      cases h
      obtain ⟨hmem, hname⟩ := mem_of_lookup?_eq_some hs
      exact .redeclared hform hmem hname
    | none =>
      rw [declare_of_none hs] at h
      obtain ⟨x, l, huse, hx, rfl⟩ := checkExpr_eq_error h
      have hnames : (t.push (.declared s.name s.location) hs).names = t.names ++ [s.name] :=
        names_push t _ hs
      rw [hnames] at hx
      refine .use huse ?_
      rw [Program.declaredNames, Program.declarations_of_declaration hform]
      exact hx
  | assignment =>
    rw [hform, require] at h
    cases hs : t.lookup? s.name with
    | some symbol =>
      rw [hs] at h
      obtain ⟨x, l, huse, hx, rfl⟩ := checkExpr_eq_error h
      refine .use huse ?_
      rw [Program.declaredNames, Program.declarations_of_assignment hform]
      rw [List.map_nil, List.append_nil]
      exact hx
    | none =>
      rw [hs] at h
      cases h
      exact .target hform ((t.lookup?_eq_none_iff_not_mem_names s.name).1 hs)

/-- The statements before the first that breaks the discipline keep it. -/
theorem exists_violates_of_check {t : SymbolTable} {p : Program} {e : NamingError}
    (h : (t.check p).1 = .error e) :
    ∃ before s after, p = before ++ s :: after ∧ Program.Disciplined t.names before ∧
      s.Violates (t.toList ++ Program.declarations before) e := by
  induction p generalizing t with
  | nil => cases h
  | cons s p ih =>
    cases hs : (t.checkStatement s).1 with
    | ok u =>
      rw [check_cons_of_ok hs] at h
      obtain ⟨before, s', after, rfl, hbefore, hviolates⟩ := ih h
      rw [names_eq_of_toList (toList_checkStatement hs)] at hbefore
      rw [toList_checkStatement hs, List.append_assoc, ← Program.declarations_cons] at hviolates
      exact ⟨s :: before, s', after, rfl, .cons ((checkStatement_eq_ok_iff t s).1 hs) hbefore,
        hviolates⟩
    | error e' =>
      rw [check_cons_of_error hs] at h
      cases h.symm.trans hs
      refine ⟨[], s, p, rfl, Program.disciplined_nil _, ?_⟩
      simpa [Program.declarations] using violates_of_checkStatement hs

end SymbolTable

end StraightLine
