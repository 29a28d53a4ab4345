import Mathlib.Data.List.Basic
import StraightLine.Proofs.Scope.Discipline

/-! The first fault of a program and the table it leaves. A program names variables one after the
other: in each statement the target, then the variables of the value from left to right. The check
stops at the first of these places that is at fault, and the table has what was declared up to it. -/
namespace StraightLine

/-- A place where a name stands, with the symbols known there. -/
structure Occurrence where
  /-- The name is declared here and not used. -/
  declares : Bool
  name : String
  location : Location
  known : List Symbol

/-- A name that is declared must not be known, and one that is used must be. -/
def Occurrence.fault? (o : Occurrence) : Option NamingError :=
  match o.declares, o.known.find? fun s => s.name = o.name with
  | true, some s => some (.alreadyDeclared o.name o.location s.declaredAt)
  | false, none => some (.notDeclared o.name o.location)
  | true, none | false, some _ => none

/-- The target of a statement and the variables of its value, where its own symbol is known too. -/
def Statement.occurrences (known : List Symbol) (s : Statement) : List Occurrence :=
  ⟨s.form = .declaration, s.name, s.location, known⟩ ::
    s.value.uses.map fun u => ⟨false, u.1, u.2, known ++ Program.declarations [s]⟩

def Program.occurrences (known : List Symbol) : Program → List Occurrence
  | [] => []
  | s :: rest =>
    s.occurrences known ++ Program.occurrences (known ++ Program.declarations [s]) rest

namespace SymbolTable

theorem fault?_use (t : SymbolTable) (x : String) (l : Location) :
    Occurrence.fault? ⟨false, x, l, t.toList⟩ =
      if t.contains x then none else some (.notDeclared x l) := by
  rw [contains_eq_isSome_lookup?, lookup?_eq_find?]
  unfold Occurrence.fault?
  cases t.toList.find? fun s => s.name = x <;> rfl

theorem fault?_declaration (t : SymbolTable) (x : String) (l : Location) :
    Occurrence.fault? ⟨true, x, l, t.toList⟩ =
      (t.lookup? x).map fun s => .alreadyDeclared x l s.declaredAt := by
  rw [lookup?_eq_find?]
  unfold Occurrence.fault?
  cases t.toList.find? fun s => s.name = x <;> rfl

/-- Uses in a value, all of them with the symbols of one table known. -/
def useOccurrences (t : SymbolTable) (e : Expr) : List Occurrence :=
  e.uses.map fun u => ⟨false, u.1, u.2, t.toList⟩

theorem checkExpr_eq_ok {t : SymbolTable} {e : Expr} (h : t.checkExpr e = .ok ()) :
    ∀ o ∈ t.useOccurrences e, o.fault? = none := by
  intro o ho
  obtain ⟨u, hu, rfl⟩ := List.mem_map.1 ho
  have hx := (t.checkExpr_eq_ok_iff e).1 h u.1 ((e.mentions_iff_mem_uses u.1).2 ⟨u.2, hu⟩)
  rw [fault?_use, if_pos ((t.contains_iff_mem_names u.1).2 hx)]

theorem exists_fault_of_checkExpr {t : SymbolTable} {e : Expr} {err : NamingError}
    (h : t.checkExpr e = .error err) :
    ∃ u o v, t.useOccurrences e = u ++ o :: v ∧ o.fault? = some err ∧
      ∀ o' ∈ u, o'.fault? = none := by
  rw [checkExpr_eq] at h
  cases hfind : e.uses.find? fun u => !t.contains u.1 with
  | none =>
    rw [hfind] at h
    cases h
  | some use =>
    rw [hfind] at h
    cases h
    obtain ⟨huse, u, v, huv, hu⟩ := List.find?_eq_some_iff_append.1 hfind
    refine ⟨u.map fun u => ⟨false, u.1, u.2, t.toList⟩, ⟨false, use.1, use.2, t.toList⟩,
      v.map fun u => ⟨false, u.1, u.2, t.toList⟩, ?_, ?_, ?_⟩
    · rw [useOccurrences, huv, List.map_append, List.map_cons]
    · rw [fault?_use, if_neg (by simpa using huse)]
    · intro o ho
      obtain ⟨use', huse', rfl⟩ := List.mem_map.1 ho
      rw [fault?_use, if_pos (by simpa using hu use' huse')]

/-- A statement whose target is at fault leaves the table as it was. Any other one has its symbol in
the table before its value is looked at. -/
theorem checkStatement_cases (t : SymbolTable) (s : Statement) :
    (∃ e, Occurrence.fault? ⟨s.form = .declaration, s.name, s.location, t.toList⟩ = some e ∧
      t.checkStatement s = (.error e, t)) ∨
    ∃ t' : SymbolTable, Occurrence.fault? ⟨s.form = .declaration, s.name, s.location, t.toList⟩ =
        none ∧ t'.toList = t.toList ++ Program.declarations [s] ∧
      t.checkStatement s = (t'.checkExpr s.value, t') := by
  unfold checkStatement
  cases hform : s.form with
  | declaration =>
    rw [decide_eq_true rfl, fault?_declaration, Program.declarations_of_declaration hform]
    cases hs : t.lookup? s.name with
    | some symbol =>
      refine .inl ⟨_, rfl, ?_⟩
      simp only [declare_of_some hs]
    | none =>
      refine .inr ⟨t.push (.declared s.name s.location) hs, rfl, toList_push t _ hs, ?_⟩
      simp only [declare_of_none hs]
  | assignment =>
    rw [decide_eq_false Form.noConfusion, fault?_use, contains_eq_isSome_lookup?,
      Program.declarations_of_assignment hform, List.append_nil, require]
    cases hs : t.lookup? s.name with
    | some symbol => exact .inr ⟨t, rfl, rfl, rfl⟩
    | none => exact .inl ⟨_, rfl, rfl⟩

theorem occurrences_eq {t t' : SymbolTable} {s : Statement}
    (h : t'.toList = t.toList ++ Program.declarations [s]) :
    s.occurrences t.toList = ⟨s.form = .declaration, s.name, s.location, t.toList⟩ ::
      t'.useOccurrences s.value := by
  rw [useOccurrences, h]
  rfl

theorem fault?_of_checkStatement_eq_ok {t : SymbolTable} {s : Statement}
    (h : (t.checkStatement s).1 = .ok ()) : ∀ o ∈ s.occurrences t.toList, o.fault? = none := by
  obtain ⟨e, -, hs⟩ | ⟨t', htarget, hlist, hs⟩ := t.checkStatement_cases s
  · rw [hs] at h
    cases h
  · rw [hs] at h
    rw [occurrences_eq hlist]
    exact List.forall_mem_cons.2 ⟨htarget, checkExpr_eq_ok h⟩

theorem exists_fault_of_checkStatement {t : SymbolTable} {s : Statement} {e : NamingError}
    (h : (t.checkStatement s).1 = .error e) :
    ∃ u o v, s.occurrences t.toList = u ++ o :: v ∧ o.fault? = some e ∧
      (∀ o' ∈ u, o'.fault? = none) ∧ (t.checkStatement s).2.toList =
        t.toList ++ if u.isEmpty then [] else Program.declarations [s] := by
  obtain ⟨e', htarget, hs⟩ | ⟨t', htarget, hlist, hs⟩ := t.checkStatement_cases s
  · rw [hs] at h ⊢
    cases h
    exact ⟨[], _, _, rfl, htarget, by simp, (List.append_nil _).symm⟩
  · rw [hs] at h ⊢
    obtain ⟨u, o, v, huv, ho, hu⟩ := exists_fault_of_checkExpr h
    rw [occurrences_eq hlist, huv]
    exact ⟨_ :: u, o, v, rfl, ho, List.forall_mem_cons.2 ⟨htarget, hu⟩, hlist⟩

/-- A check that fails stops at the first place that is at fault: no statement before its own has a
fault, and no place before it in the statement. The table has gained the symbols of the statements
before, and that of the statement itself if it is a declaration with its fault in the value. -/
theorem check_stops_at_first_fault {t : SymbolTable} {p : Program} {e : NamingError}
    (h : (t.check p).1 = .error e) :
    ∃ before s after u o v, p = before ++ s :: after ∧
      s.occurrences (t.toList ++ Program.declarations before) = u ++ o :: v ∧
      o.fault? = some e ∧
      (∀ o' ∈ Program.occurrences t.toList before ++ u, o'.fault? = none) ∧
      (t.check p).2.toList = t.toList ++ Program.declarations before ++
        if u.isEmpty then [] else Program.declarations [s] := by
  induction p generalizing t with
  | nil => cases h
  | cons s p ih =>
    cases hs : (t.checkStatement s).1 with
    | error e' =>
      rw [check_cons_of_error hs] at h ⊢
      obtain ⟨u, o, v, huv, ho, hu, hlist⟩ := exists_fault_of_checkStatement h
      have hnone : t.toList ++ Program.declarations [] = t.toList := List.append_nil _
      exact ⟨[], s, p, u, o, v, rfl, by rw [hnone, huv], ho, hu, by rw [hnone, hlist]⟩
    | ok done =>
      rw [check_cons_of_ok hs] at h ⊢
      obtain ⟨before, s', after, u, o, v, rfl, huv, ho, hu, hlist⟩ := ih h
      rw [toList_checkStatement hs] at huv hu hlist
      rw [List.append_assoc t.toList, ← Program.declarations_cons] at huv hlist
      refine ⟨s :: before, s', after, u, o, v, rfl, huv, ho, ?_, hlist⟩
      rw [Program.occurrences, List.append_assoc, List.forall_mem_append]
      exact ⟨fault?_of_checkStatement_eq_ok hs, hu⟩

/-- With `x` known, `var a = 1; var b = x + c * d;` has its first fault at `c`, and `b` stays. -/
theorem check_stops_inside_value :
    let t := (empty.declare "x" ⟨1, 5⟩).2
    let value : Expr := .binary .add (.var "x" ⟨3, 9⟩)
      (.binary .mul (.var "c" ⟨3, 13⟩) (.var "d" ⟨3, 17⟩) ⟨3, 15⟩) ⟨3, 11⟩
    let p : Program := [⟨⟨.declaration, "a", ⟨2, 5⟩⟩, .number 1 ⟨2, 9⟩⟩,
      ⟨⟨.declaration, "b", ⟨3, 5⟩⟩, value⟩]
    (t.check p).1 = .error (.notDeclared "c" ⟨3, 13⟩) ∧
    (t.check p).2.names = ["x", "a", "b"] ∧
    ∃ before s after u o v, p = before ++ s :: after ∧
      s.occurrences (t.toList ++ Program.declarations before) = u ++ o :: v ∧
      o.fault? = some (.notDeclared "c" ⟨3, 13⟩) ∧
      (∀ o' ∈ Program.occurrences t.toList before ++ u, o'.fault? = none) ∧
      (t.check p).2.toList = t.toList ++ Program.declarations before ++
        if u.isEmpty then [] else Program.declarations [s] := by
  intro t value p
  have h : (t.check p).1 = .error (.notDeclared "c" ⟨3, 13⟩) := by decide +kernel
  exact ⟨h, by decide +kernel, check_stops_at_first_fault h⟩

end SymbolTable

end StraightLine
