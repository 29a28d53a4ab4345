import StraightLine.Proofs.SymbolTable.View
import StraightLine.Scope

/-! The discipline of names said of the whole program at once, and the check as its decision. What
a program may use at one place depends on the names known before it and on its own declarations up
to that place. -/
namespace StraightLine

/-- A variable stands somewhere in an expression. -/
inductive Expr.Mentions (x : String) : Expr → Prop
  | var (l : Location) : Mentions x (.var x l)
  | left (op : Operator) {a : Expr} (b : Expr) (l : Location) :
    Mentions x a → Mentions x (.binary op a b l)
  | right (op : Operator) (a : Expr) {b : Expr} (l : Location) :
    Mentions x b → Mentions x (.binary op a b l)

theorem Expr.mentions_iff_mem_uses (x : String) (e : Expr) :
    e.Mentions x ↔ ∃ l, (x, l) ∈ e.uses := by
  induction e with
  | number n l =>
    simp only [uses_number, List.not_mem_nil, exists_false, iff_false]
    intro h
    cases h
  | var y l =>
    simp only [uses_var, List.mem_singleton, Prod.mk.injEq]
    constructor
    · intro h
      cases h
      exact ⟨l, rfl, rfl⟩
    · intro h
      obtain ⟨_, rfl, rfl⟩ := h
      exact .var _
  | binary op a b l iha ihb =>
    simp only [uses_binary, List.mem_append]
    constructor
    · intro h
      cases h with
      | left _ _ _ ha =>
        obtain ⟨k, hk⟩ := iha.1 ha
        exact ⟨k, .inl hk⟩
      | right _ _ _ hb =>
        obtain ⟨k, hk⟩ := ihb.1 hb
        exact ⟨k, .inr hk⟩
    · intro h
      obtain ⟨k, ha | hb⟩ := h
      · exact .left op b l (iha.2 ⟨k, ha⟩)
      · exact .right op a l (ihb.2 ⟨k, hb⟩)

namespace Program

/-- The symbols a program declares, in the order of its statements. -/
def declarations (p : Program) : List Symbol :=
  (p.filter fun s => s.form = .declaration).map fun s => .declared s.name s.location

def declaredNames (p : Program) : List String := p.declarations.map Symbol.name

/-- The statement at `i` declares the name. -/
def DeclaresAt (p : Program) (i : Nat) (x : String) : Prop :=
  ∃ s, p[i]? = some s ∧ s.form = .declaration ∧ s.name = x

/-- A name is known before the program or declared by a statement up to `i`, that one included. -/
def InScope (known : List String) (p : Program) (i : Nat) (x : String) : Prop :=
  x ∈ known ∨ ∃ j ≤ i, p.DeclaresAt j x

/-- No name is declared twice or again, and none is assigned to or used out of its scope. -/
structure Disciplined (known : List String) (p : Program) : Prop where
  distinct : p.declaredNames.Nodup
  fresh : ∀ x ∈ p.declaredNames, x ∉ known
  targets : ∀ (i : Nat) (s : Statement), p[i]? = some s → s.form = .assignment →
    p.InScope known i s.name
  uses : ∀ (i : Nat) (s : Statement) (x : String), p[i]? = some s → s.value.Mentions x →
    p.InScope known i x

theorem declarations_cons (s : Statement) (p : Program) :
    Program.declarations (s :: p) = Program.declarations [s] ++ p.declarations := by
  unfold declarations
  rw [← List.map_append, ← List.filter_append]
  rfl

theorem declaredNames_cons (s : Statement) (p : Program) :
    Program.declaredNames (s :: p) = Program.declaredNames [s] ++ p.declaredNames := by
  simp only [declaredNames, declarations_cons s p, List.map_append]

theorem declarations_append (p q : Program) :
    Program.declarations (p ++ q) = p.declarations ++ q.declarations := by
  simp only [declarations, List.filter_append, List.map_append]

theorem declaredNames_append (p q : Program) :
    Program.declaredNames (p ++ q) = p.declaredNames ++ q.declaredNames := by
  simp only [declaredNames, declarations_append, List.map_append]

theorem mem_declaredNames_singleton (s : Statement) (x : String) :
    x ∈ Program.declaredNames [s] ↔ s.form = .declaration ∧ s.name = x := by
  by_cases hs : s.form = .declaration
  · simp [declaredNames, declarations, hs, Symbol.declared, eq_comm]
  · simp [declaredNames, declarations, hs]

theorem declaresAt_zero (s : Statement) (p : Program) (x : String) :
    Program.DeclaresAt (s :: p) 0 x ↔ x ∈ Program.declaredNames [s] := by
  simp [DeclaresAt, mem_declaredNames_singleton]

theorem declaresAt_succ (s : Statement) (p : Program) (i : Nat) (x : String) :
    Program.DeclaresAt (s :: p) (i + 1) x ↔ p.DeclaresAt i x := by
  simp [DeclaresAt]

theorem inScope_zero (known : List String) (s : Statement) (p : Program) (x : String) :
    Program.InScope known (s :: p) 0 x ↔ x ∈ known ++ Program.declaredNames [s] := by
  simp [InScope, declaresAt_zero]

/-- Past its first statement a program goes on with that statement's name among the known ones. -/
theorem inScope_succ (known : List String) (s : Statement) (p : Program) (i : Nat) (x : String) :
    Program.InScope known (s :: p) (i + 1) x ↔
      p.InScope (known ++ Program.declaredNames [s]) i x := by
  simp only [InScope, List.mem_append, or_assoc]
  refine or_congr_right ?_
  constructor
  · intro h
    obtain ⟨j, hj, h⟩ := h
    cases j with
    | zero => exact .inl ((declaresAt_zero s p x).1 h)
    | succ j => exact .inr ⟨j, by omega, (declaresAt_succ s p j x).1 h⟩
  · intro h
    obtain h | ⟨j, hj, h⟩ := h
    · exact ⟨0, by omega, (declaresAt_zero s p x).2 h⟩
    · exact ⟨j + 1, by omega, (declaresAt_succ s p j x).2 h⟩

end Program

/-- The discipline for one statement. -/
structure Statement.Admitted (known : List String) (s : Statement) : Prop where
  fresh : ∀ x ∈ Program.declaredNames [s], x ∉ known
  target : s.form = .assignment → s.name ∈ known
  uses : ∀ x, s.value.Mentions x → x ∈ known ++ Program.declaredNames [s]

namespace Program

theorem declarations_of_declaration {s : Statement} (h : s.form = .declaration) :
    Program.declarations [s] = [.declared s.name s.location] := by
  simp [declarations, h]

theorem declarations_of_assignment {s : Statement} (h : s.form = .assignment) :
    Program.declarations [s] = [] := by
  simp [declarations, h]

end Program

namespace Statement

theorem admitted_declaration {s : Statement} (h : s.form = .declaration) (known : List String) :
    s.Admitted known ↔
      s.name ∉ known ∧ ∀ x, s.value.Mentions x → x ∈ known ++ [s.name] := by
  have hd : Program.declaredNames [s] = [s.name] := by
    rw [Program.declaredNames, Program.declarations_of_declaration h]
    rfl
  constructor
  · intro h
    have hfresh := h.fresh
    have huses := h.uses
    rw [hd] at hfresh huses
    exact ⟨hfresh s.name (List.mem_singleton_self _), huses⟩
  · intro h
    obtain ⟨hfresh, huses⟩ := h
    refine ⟨?_, ?_, ?_⟩
    · rw [hd]
      simpa using hfresh
    · intro hform
      cases h.symm.trans hform
    · rw [hd]
      exact huses

theorem admitted_assignment {s : Statement} (h : s.form = .assignment) (known : List String) :
    s.Admitted known ↔ s.name ∈ known ∧ ∀ x, s.value.Mentions x → x ∈ known := by
  have hd : Program.declaredNames [s] = [] := by
    rw [Program.declaredNames, Program.declarations_of_assignment h]
    rfl
  constructor
  · intro hs
    have huses := hs.uses
    rw [hd, List.append_nil] at huses
    exact ⟨hs.target h, huses⟩
  · intro hs
    obtain ⟨htarget, huses⟩ := hs
    refine ⟨?_, fun _ => htarget, ?_⟩
    · simp [hd]
    · simpa [hd] using huses

end Statement

namespace Program

theorem disciplined_nil (known : List String) : Program.Disciplined known [] where
  distinct := List.nodup_nil
  fresh := by simp [declaredNames, declarations]
  targets := by simp
  uses := by simp

theorem nodup_declaredNames_singleton (s : Statement) : (Program.declaredNames [s]).Nodup := by
  by_cases hs : s.form = .declaration <;> simp [declaredNames, declarations, hs]

theorem Disciplined.head {known : List String} {s : Statement} {p : Program}
    (h : Program.Disciplined known (s :: p)) : s.Admitted known := by
  refine ⟨?_, ?_, ?_⟩
  · intro x hx
    apply h.fresh x
    rw [declaredNames_cons]
    exact List.mem_append_left _ hx
  · intro hs
    have hscope := (inScope_zero known s p s.name).1 (h.targets 0 s rfl hs)
    obtain hk | hd := List.mem_append.1 hscope
    · exact hk
    · rw [mem_declaredNames_singleton, hs] at hd
      cases hd.1
  · intro x hx
    exact (inScope_zero known s p x).1 (h.uses 0 s x rfl hx)

theorem Disciplined.tail {known : List String} {s : Statement} {p : Program}
    (h : Program.Disciplined known (s :: p)) :
    p.Disciplined (known ++ Program.declaredNames [s]) := by
  have hdistinct := h.distinct
  rw [declaredNames_cons, List.nodup_append] at hdistinct
  refine ⟨hdistinct.2.1, ?_, ?_, ?_⟩
  · intro x hx hmem
    obtain hk | hd := List.mem_append.1 hmem
    · refine h.fresh x ?_ hk
      rw [declaredNames_cons]
      exact List.mem_append_right _ hx
    · exact hdistinct.2.2 x hd x hx rfl
  · intro i s' hi hs'
    exact (inScope_succ known s p i s'.name).1 (h.targets (i + 1) s' hi hs')
  · intro i s' x hi hx
    exact (inScope_succ known s p i x).1 (h.uses (i + 1) s' x hi hx)

theorem Disciplined.cons {known : List String} {s : Statement} {p : Program}
    (hs : s.Admitted known) (hp : p.Disciplined (known ++ Program.declaredNames [s])) :
    Program.Disciplined known (s :: p) := by
  refine ⟨?_, ?_, ?_, ?_⟩
  · rw [declaredNames_cons, List.nodup_append]
    refine ⟨nodup_declaredNames_singleton s, hp.distinct, ?_⟩
    intro x hx y hy hxy
    exact hp.fresh y hy (List.mem_append_right _ (hxy ▸ hx))
  · intro x hx hk
    rw [declaredNames_cons] at hx
    obtain hd | hd := List.mem_append.1 hx
    · exact hs.fresh x hd hk
    · exact hp.fresh x hd (List.mem_append_left _ hk)
  · intro i s' hi hs'
    cases i with
    | zero =>
      cases hi
      exact .inl (hs.target hs')
    | succ i => exact (inScope_succ known s p i s'.name).2 (hp.targets i s' hi hs')
  · intro i s' x hi hx
    cases i with
    | zero =>
      cases hi
      exact (inScope_zero known s p x).2 (hs.uses x hx)
    | succ i => exact (inScope_succ known s p i x).2 (hp.uses i s' x hi hx)

/-- A name stands somewhere in a program, before or after an equals sign. -/
def Mentions (p : Program) (x : String) : Prop :=
  ∃ s ∈ p, s.name = x ∨ s.value.Mentions x

theorem DeclaresAt.mem_declaredNames {p : Program} {i : Nat} {x : String}
    (h : p.DeclaresAt i x) : x ∈ p.declaredNames := by
  obtain ⟨s, hs, hform, rfl⟩ := h
  simp only [declaredNames, declarations, List.map_map, List.mem_map, List.mem_filter]
  exact ⟨s, ⟨List.mem_of_getElem? hs, by simpa using hform⟩, rfl⟩

theorem Disciplined.mem_of_mentions {known : List String} {p : Program} {x : String}
    (h : p.Disciplined known) (hx : p.Mentions x) : x ∈ known ++ p.declaredNames := by
  have hscope : ∀ i, p.InScope known i x → x ∈ known ++ p.declaredNames := by
    intro i hi
    obtain hk | ⟨j, -, hj⟩ := hi
    · exact List.mem_append_left _ hk
    · exact List.mem_append_right _ hj.mem_declaredNames
  obtain ⟨s, hs, hx⟩ := hx
  obtain ⟨i, hi⟩ := List.mem_iff_getElem?.1 hs
  obtain hname | huse := hx
  · cases hform : s.form with
    | declaration =>
      have hdeclares : p.DeclaresAt i x := ⟨s, hi, hform, hname⟩
      exact List.mem_append_right _ hdeclares.mem_declaredNames
    | assignment => exact hscope i (hname ▸ h.targets i s hi hform)
  · exact hscope i (h.uses i s x hi huse)

theorem disciplined_cons (known : List String) (s : Statement) (p : Program) :
    Program.Disciplined known (s :: p) ↔
      s.Admitted known ∧ p.Disciplined (known ++ Program.declaredNames [s]) :=
  ⟨fun h => ⟨h.head, h.tail⟩, fun h => .cons h.1 h.2⟩

theorem disciplined_append (known : List String) (p q : Program) :
    Program.Disciplined known (p ++ q) ↔
      p.Disciplined known ∧ q.Disciplined (known ++ p.declaredNames) := by
  induction p generalizing known with
  | nil => simp [disciplined_nil, declaredNames, declarations]
  | cons s p ih =>
    rw [List.cons_append, disciplined_cons, disciplined_cons, ih, declaredNames_cons s p,
      ← List.append_assoc, and_assoc]

/-- A statement keeps the discipline with all names declared before it known. -/
theorem Disciplined.admitted {known : List String} {p q : Program} {s : Statement}
    (h : Program.Disciplined known (p ++ s :: q)) : s.Admitted (known ++ p.declaredNames) :=
  ((disciplined_append known p (s :: q)).1 h).2.head

end Program

namespace SymbolTable

/-- The check of waiting expressions looks for the first use of a name that is not in the table. -/
theorem checkExprs_eq (t : SymbolTable) (es : List Expr) :
    t.checkExprs es = ((es.flatMap Expr.uses).find? fun u => !t.contains u.1).elim (.ok ())
      fun u => .error (.notDeclared u.1 u.2) := by
  fun_induction checkExprs t es with
  | case1 => rfl
  | case2 n l rest ih => simpa using ih
  | case3 x l rest s hs ih =>
    have hx : t.contains x = true := by
      rw [contains_eq_isSome_lookup?, lookup?_of_require_eq_ok hs, Option.isSome_some]
    simpa [hx] using ih
  | case4 x l rest e he =>
    obtain ⟨hx, rfl⟩ := require_eq_error he
    have hnot : t.contains x = false := by
      rw [contains_eq_isSome_lookup?, hx, Option.isSome_none]
    simp [hnot]
  | case5 op a b l rest ih => simpa using ih

theorem checkExpr_eq (t : SymbolTable) (e : Expr) :
    t.checkExpr e = (e.uses.find? fun u => !t.contains u.1).elim (.ok ())
      fun u => .error (.notDeclared u.1 u.2) := by
  rw [checkExpr, checkExprs_eq, List.flatMap_singleton]

theorem checkExpr_eq_ok_iff (t : SymbolTable) (e : Expr) :
    t.checkExpr e = .ok () ↔ ∀ x, e.Mentions x → x ∈ t.names := by
  rw [checkExpr_eq]
  cases hfind : e.uses.find? fun u => !t.contains u.1 with
  | none =>
    simp only [Option.elim_none, true_iff]
    intro x hx
    obtain ⟨l, hl⟩ := (e.mentions_iff_mem_uses x).1 hx
    have hnot := List.find?_eq_none.1 hfind (x, l) hl
    exact (t.contains_iff_mem_names x).1 (by simpa using hnot)
  | some u =>
    have hnot : t.contains u.1 = false := by simpa using List.find?_some hfind
    simp only [Option.elim_some, reduceCtorEq, false_iff]
    intro hall
    have hu := hall u.1 ((e.mentions_iff_mem_uses u.1).2 ⟨u.2, List.mem_of_find?_eq_some hfind⟩)
    rw [(t.contains_iff_mem_names u.1).2 hu] at hnot
    cases hnot

theorem names_eq_of_toList {t t' : SymbolTable} {p : Program}
    (h : t'.toList = t.toList ++ p.declarations) : t'.names = t.names ++ p.declaredNames := by
  simp [names, h, Program.declaredNames]

theorem checkStatement_eq_ok_iff (t : SymbolTable) (s : Statement) :
    (t.checkStatement s).1 = .ok () ↔ s.Admitted t.names := by
  have hl := lookup?_eq_none_iff_not_mem_names t s.name
  rw [checkStatement]
  cases hform : s.form with
  | declaration =>
    rw [Statement.admitted_declaration hform, ← hl]
    cases hs : t.lookup? s.name with
    | some symbol => simp [declare_of_some hs]
    | none => simp [declare_of_none hs, checkExpr_eq_ok_iff, Symbol.declared]
  | assignment =>
    rw [Statement.admitted_assignment hform, require]
    cases hs : t.lookup? s.name with
    | some symbol =>
      have hmem : s.name ∈ t.names := by simpa [hs] using hl
      simp [checkExpr_eq_ok_iff, hmem]
    | none =>
      have hmem := hl.1 hs
      simp [hmem]

/-- What a statement declares comes after the other symbols. -/
theorem toList_checkStatement {t : SymbolTable} {s : Statement}
    (h : (t.checkStatement s).1 = .ok ()) :
    (t.checkStatement s).2.toList = t.toList ++ Program.declarations [s] := by
  rw [checkStatement] at h ⊢
  cases hform : s.form with
  | declaration =>
    rw [Program.declarations_of_declaration hform]
    cases hs : t.lookup? s.name with
    | some symbol => simp [hform, declare_of_some hs] at h
    | none =>
      simp only [declare_of_none hs]
      exact toList_push t (.declared s.name s.location) hs
  | assignment =>
    rw [Program.declarations_of_assignment hform, List.append_nil]
    cases t.require s.name s.location <;> rfl

theorem check_cons_of_ok {t : SymbolTable} {s : Statement} (h : (t.checkStatement s).1 = .ok ())
    (p : Program) : t.check (s :: p) = (t.checkStatement s).2.check p := by
  rw [check]
  generalize t.checkStatement s = r at h
  obtain ⟨result, t'⟩ := r
  subst h
  rfl

theorem check_cons_of_error {t : SymbolTable} {s : Statement} {e : NamingError}
    (h : (t.checkStatement s).1 = .error e) (p : Program) :
    t.check (s :: p) = t.checkStatement s := by
  rw [check]
  generalize t.checkStatement s = r at h
  obtain ⟨result, t'⟩ := r
  subst h
  rfl

theorem check_append_of_ok {t : SymbolTable} {p : Program} (h : (t.check p).1 = .ok ())
    (q : Program) : t.check (p ++ q) = (t.check p).2.check q := by
  induction p generalizing t with
  | nil => rfl
  | cons s p ih =>
    rw [List.cons_append]
    cases hs : (t.checkStatement s).1 with
    | ok u =>
      rw [check_cons_of_ok hs] at h ⊢
      rw [check_cons_of_ok hs, ih h]
    | error e =>
      rw [check_cons_of_error hs, hs] at h
      cases h

/-- What comes behind the first fault changes nothing. -/
theorem check_append_of_error {t : SymbolTable} {p : Program} {e : NamingError}
    (h : (t.check p).1 = .error e) (q : Program) : t.check (p ++ q) = t.check p := by
  induction p generalizing t with
  | nil => cases h
  | cons s p ih =>
    rw [List.cons_append]
    cases hs : (t.checkStatement s).1 with
    | ok u =>
      rw [check_cons_of_ok hs] at h
      rw [check_cons_of_ok hs, check_cons_of_ok hs, ih h]
    | error e' => rw [check_cons_of_error hs, check_cons_of_error hs]

theorem check_eq_ok_iff (t : SymbolTable) (p : Program) :
    (t.check p).1 = .ok () ↔ p.Disciplined t.names := by
  induction p generalizing t with
  | nil => simp [check, Program.disciplined_nil]
  | cons s p ih =>
    have hs := checkStatement_eq_ok_iff t s
    rw [Program.disciplined_cons, ← hs]
    by_cases hok : (t.checkStatement s).1 = .ok ()
    · have hnames := names_eq_of_toList (toList_checkStatement hok)
      rw [check_cons_of_ok hok, ih, hnames]
      simp [hok]
    · rw [check]
      generalize t.checkStatement s = r at hok
      obtain ⟨result, t'⟩ := r
      cases result with
      | ok u => exact absurd rfl hok
      | error e => simp

theorem toList_check {t : SymbolTable} {p : Program} (h : (t.check p).1 = .ok ()) :
    (t.check p).2.toList = t.toList ++ p.declarations := by
  induction p generalizing t with
  | nil => simp [check, Program.declarations]
  | cons s p ih =>
    have hd := (check_eq_ok_iff t (s :: p)).1 h
    have hs := (checkStatement_eq_ok_iff t s).2 hd.head
    rw [check_cons_of_ok hs] at h ⊢
    rw [ih h, toList_checkStatement hs, Program.declarations_cons s p, List.append_assoc]

/-- A program passes the check just if it keeps the discipline with the names of the table known,
and the table then goes on with the symbols of its declarations, each without a value. -/
theorem check_disciplined (t : SymbolTable) (p : Program) :
    ((t.check p).1 = .ok () ↔ p.Disciplined t.names) ∧
    ((t.check p).1 = .ok () →
      (t.check p).2.toList = t.toList ++
        (p.filter fun s => s.form = .declaration).map fun s => ⟨s.name, .int, none, s.location⟩) :=
  ⟨check_eq_ok_iff t p, toList_check⟩

end SymbolTable

end StraightLine
