import StraightLine.Proofs.Code.Cut
import StraightLine.Proofs.Compile.Stages

/-! The code of a program that keeps the discipline of names sets every variable before it reads it,
but for a declaration that reads its own name. The first copy to a variable is its declaration, so
the declared names are the destinations of copies, each where it comes first. -/
namespace StraightLine

theorem mem_dests {code : List Instruction} {x : String} :
    x ∈ code.filterMap Instruction.dest? ↔ ∃ y, .copy x y ∈ code := by
  simp only [List.mem_filterMap]
  constructor
  · rintro ⟨i, hi, hx⟩
    cases i with
    | copy dest source => cases hx; exact ⟨source, hi⟩
    | binary n a op b => cases hx
  · rintro ⟨y, hy⟩
    exact ⟨_, hy, rfl⟩

theorem Operand.mem_vars {x : Operand} {y : String} : y ∈ x.vars ↔ x = .var y := by
  cases x <;> simp [vars, eq_comm]

theorem Instruction.mem_vars_of_mem_operands {i : Instruction} {x : String}
    (h : .var x ∈ i.operands) : x ∈ i.vars := by
  cases i with
  | copy dest source => simp_all [operands, vars, Operand.mem_vars]
  | binary n a op b => simpa [operands, vars, Operand.mem_vars, eq_comm] using h

theorem Statement.mentions_of_mem_codeAfter {s : Statement} {k : Nat} {i : Instruction} {x : String}
    (hi : i ∈ s.codeAfter k) (hx : .var x ∈ i.operands) : s.value.Mentions x := by
  rw [Statement.codeAfter, List.mem_append, List.mem_singleton] at hi
  obtain hvalue | rfl := hi
  · exact Expr.mentions_of_mem_codeAfter hvalue (Instruction.mem_vars_of_mem_operands hx)
  · exact Expr.mentions_of_mem_operandAfter (Operand.mem_vars.2 (List.mem_singleton.1 hx).symm)

namespace Program

theorem dests_codeAfter (p : Program) (k : Nat) :
    (Program.codeAfter k p).filterMap Instruction.dest? = p.map fun s => s.name := by
  induction p generalizing k with
  | nil => rfl
  | cons s p ih =>
    have hvalue : (s.value.codeAfter k).filterMap Instruction.dest? = [] :=
      List.filterMap_eq_nil_iff.2 (s.value.dest?_codeAfter k)
    simp [codeAfter, Statement.codeAfter, hvalue, ih, Instruction.dest?]

theorem exists_copy_of_mem_declaredNames {p : Program} {x : String} (h : x ∈ p.declaredNames) :
    ∃ y, .copy x y ∈ p.code := by
  rw [← mem_dests, code_eq, dests_codeAfter]
  obtain ⟨symbol, hsymbol, rfl⟩ := List.mem_map.1 h
  obtain ⟨s, hs, rfl⟩ := List.mem_map.1 hsymbol
  exact List.mem_map.2 ⟨s, (List.mem_filter.1 hs).1, rfl⟩

/-- The names that are not known before are declared where they are first set. -/
theorem Disciplined.declaredNames_eq {known : List String} {p : Program}
    (h : p.Disciplined known) :
    p.declaredNames = ((p.map fun s => s.name).filter fun x => x ∉ known).eraseDups := by
  induction p generalizing known with
  | nil => rfl
  | cons s p ih =>
    have hrest := ih h.tail
    rw [declaredNames_cons, hrest, List.map_cons]
    cases hform : s.form with
    | declaration =>
      have hfresh := ((Statement.admitted_declaration hform known).1 h.head).1
      have hd : Program.declaredNames [s] = [s.name] := by
        simp [declaredNames, declarations_of_declaration hform, Symbol.declared]
      rw [hd, List.filter_cons_of_pos (by simpa using hfresh), List.eraseDups_cons,
        List.filter_filter, List.singleton_append]
      congr 2
      refine List.filter_congr ?_
      intro x _
      rw [Bool.eq_iff_iff]
      simp [and_comm]
    | assignment =>
      have hknown := ((Statement.admitted_assignment hform known).1 h.head).1
      have hd : Program.declaredNames [s] = [] := by
        simp [declaredNames, declarations_of_assignment hform]
      rw [hd, List.filter_cons_of_neg (by simpa using hknown), List.append_nil, List.nil_append]

/-- The code before a declaration does not have its name in it. -/
theorem Disciplined.not_mem_vars {q r : Program} {s : Statement}
    (h : Program.Disciplined [] (q ++ s :: r)) (hs : s.form = .declaration) :
    ∀ i ∈ q.code, s.name ∉ i.vars := by
  intro i hi hx
  rw [code_eq] at hi
  have hq := ((disciplined_append [] q (s :: r)).1 h).1
  have hknown := hq.mem_of_mentions (mentions_of_mem_codeAfter hi hx)
  exact ((Statement.admitted_declaration hs _).1 h.admitted).1 hknown

/-- The instruction behind `before` is in the code of a statement that declares the name, and no
copy to the name comes before the one that ends this code. -/
def OwnDeclaration (p : Program) (before : List Instruction) (i : Instruction) (x : String) : Prop :=
  ∃ s earlier body source later, p.Cut s earlier body source later ∧
    s.form = .declaration ∧ s.name = x ∧ (∀ y, .copy x y ∉ earlier ++ body) ∧
    ∃ u v, before = earlier ++ u ∧ body ++ [.copy s.name source] = u ++ i :: v

/-- A variable is set before it is read, or it is read where it is declared. -/
theorem Disciplined.copy_or_ownDeclaration {p : Program} (h : p.Disciplined [])
    {before after : List Instruction} {i : Instruction} (hcode : p.code = before ++ i :: after)
    {x : String} (hx : .var x ∈ i.operands) :
    (∃ y, .copy x y ∈ before) ∨ p.OwnDeclaration before i x := by
  rw [code_eq] at hcode
  obtain ⟨q, s, r, u, v, rfl, rfl, hs⟩ := exists_statement_of_codeAfter hcode
  rw [Nat.zero_add] at hs
  have huse : s.value.Mentions x :=
    Statement.mentions_of_mem_codeAfter (k := q.operatorCount) (by simp [hs]) hx
  have hscope := h.admitted.uses x huse
  rw [← code_eq]
  by_cases hq : x ∈ q.declaredNames
  · obtain ⟨y, hy⟩ := exists_copy_of_mem_declaredNames hq
    exact .inl ⟨y, List.mem_append_left u hy⟩
  · have hown : s.form = .declaration ∧ s.name = x := by
      rw [← mem_declaredNames_singleton]
      simpa [hq] using hscope
    obtain ⟨hform, rfl⟩ := hown
    refine .inr ⟨s, _, _, _, _, cut q s r, hform, rfl, ?_, u, v, rfl, hs⟩
    intro y hy
    obtain hy | hy := List.mem_append.1 hy
    · exact h.not_mem_vars hform _ hy List.mem_cons_self
    · cases Expr.dest?_codeAfter _ _ _ hy

end Program

/-- The symbols are the destinations of the copies, each where it comes first. An instruction reads
a variable behind a copy to it or in the statement that declares it; no instruction has a name that
is not declared, and none has one before the statement that declares it. -/
theorem compile_defines_before_use {source : String} {c : Compiled} (h : compile source = .ok c) :
    c.symbols.names = (c.code.filterMap Instruction.dest?).eraseDups ∧
    ∃ p, Program.ofSource source = .ok p ∧ c.code = p.code ∧
      (∀ before i after x, c.code = before ++ i :: after → .var x ∈ i.operands →
        (∃ y, .copy x y ∈ before) ∨ p.OwnDeclaration before i x) ∧
      (∀ i ∈ c.code, ∀ x ∈ i.vars, x ∈ c.symbols.names) ∧
      ∀ (q : Program) s r, p = q ++ s :: r → s.form = .declaration →
        ∀ i ∈ q.code, s.name ∉ i.vars := by
  obtain ⟨p, hp, hcheck, rfl⟩ := (compile_eq_ok_iff source c).1 h
  have hdisciplined : p.Disciplined [] := (SymbolTable.check_eq_ok_iff _ p).1 hcheck
  have hnames : (SymbolTable.empty.check p).2.names = p.declaredNames :=
    SymbolTable.names_eq_of_toList (SymbolTable.toList_check hcheck)
  have hdests : p.code.filterMap Instruction.dest? = p.map fun s => s.name := by
    rw [Program.code_eq, Program.dests_codeAfter]
  refine ⟨?_, p, hp, rfl, ?_, ?_, ?_⟩
  · have hfirst := hdisciplined.declaredNames_eq
    simpa [hnames, hdests] using hfirst
  · intro before i after x hcode hx
    exact hdisciplined.copy_or_ownDeclaration hcode hx
  · intro i hi x hx
    rw [Program.code_eq] at hi
    rw [hnames]
    exact hdisciplined.mem_of_mentions (Program.mentions_of_mem_codeAfter hi hx)
  · rintro q s r rfl hs
    exact hdisciplined.not_mem_vars hs

/-- The first instruction of this text reads the name that its own statement declares. -/
theorem compile_defines_before_use_at_own_name :
    ∃ c p, compile "var x = x + 1; x = 2;" = .ok c ∧
      Program.ofSource "var x = x + 1; x = 2;" = .ok p ∧ c.symbols.names = ["x"] ∧
      p.OwnDeclaration [] (.binary 1 (.var "x") .add (.literal 1)) "x" := by
  have hview : (compile "var x = x + 1; x = 2;").toOption.map
      (fun c => (c.symbols.names, c.code)) = some (["x"], [.binary 1 (.var "x") .add (.literal 1),
        .copy "x" (.temp 1), .copy "x" (.literal 2)]) := by
    decide +kernel
  obtain ⟨c, hc, hview⟩ := Option.map_eq_some_iff.1 hview
  obtain ⟨hnames, hcode⟩ := Prod.mk.inj hview
  have hok : compile "var x = x + 1; x = 2;" = .ok c := by
    cases h : compile "var x = x + 1; x = 2;" with
    | error e => rw [h] at hc; cases hc
    | ok c' => rw [h] at hc; cases hc; rfl
  obtain ⟨-, p, hp, -, hreads, -⟩ := compile_defines_before_use hok
  refine ⟨c, p, hok, hp, hnames, ?_⟩
  obtain ⟨y, hy⟩ | hown := hreads [] _ _ "x" hcode List.mem_cons_self
  · cases hy
  · exact hown

end StraightLine
