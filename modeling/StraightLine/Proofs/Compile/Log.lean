import StraightLine.Proofs.Code.Temporaries
import StraightLine.Proofs.Compile.Diagnostics
import StraightLine.Proofs.Scope.FirstFault

/-! What a compilation tells, all of it and in order. If it succeeds, then each stage has told what it
found, and the numbers agree with the result. If it fails, then the stages that were done have told
theirs and the failure comes last. The names are checked in the order of the text, so of the
declarations just those have been told that stand before the name at fault. -/
namespace StraightLine

def compileLog (source : String) : List Event := (Report.ofSource source).2.toList

namespace Event

def declaredName? : Event → Option String
  | .declared s => some s.name
  | _ => none

def line? : Event → Option String
  | .emitted i => some i.text
  | _ => none

theorem filterMap_declaredName? (symbols : List Symbol) :
    (symbols.map declared).filterMap declaredName? = symbols.map Symbol.name := by
  rw [List.filterMap_map]
  exact congrFun (List.filterMap_eq_map (f := Symbol.name)) symbols

theorem filterMap_line?_declared (symbols : List Symbol) :
    (symbols.map declared).filterMap line? = [] := by
  simp [line?]

theorem filterMap_declaredName?_emitted (code : List Instruction) :
    (code.map emitted).filterMap declaredName? = [] := by
  simp [declaredName?]

theorem filterMap_line? (code : List Instruction) :
    (code.map emitted).filterMap line? = code.map Instruction.text := by
  rw [List.filterMap_map]
  exact congrFun (List.filterMap_eq_map (f := Instruction.text)) code

end Event

/-- The declarations of a program, in order, that stand before a place. -/
def Program.DeclaredBefore (p : Program) (l : Location) (declared : List Symbol) : Prop :=
  ∃ later, p.declarations = declared ++ later ∧ (∀ s ∈ declared, s.declaredAt < l) ∧
    ∀ s ∈ later, ¬s.declaredAt < l

/-- What a compilation that fails has told before it tells the failure, and the kind of its error. -/
inductive ToldBefore (source : String) : CompileError → String → List Event → Prop
  | lexical {e : LexicalError} : tokenize source = .error e →
    ToldBefore source (.source (.lexical e)) "LexError" []
  | grammar {ts : List Token} {e : GrammarError} : tokenize source = .ok ts →
    Program.ofTokens ts = .error e →
      ToldBefore source (.source (.grammar e)) "ParseError" [.lexed ts.length]
  | naming {ts : List Token} {p : Program} {e : NamingError} {declared : List Symbol} :
    tokenize source = .ok ts → Program.ofTokens ts = .ok p →
      (SymbolTable.empty.check p).1 = .error e → p.DeclaredBefore e.location declared →
        ToldBefore source (.naming e) "SemanticError"
          ([.lexed ts.length, .parsed p.length p.operatorCount] ++ declared.map .declared)

theorem ToldBefore.filterMap_line? {source : String} {e : CompileError} {kind : String}
    {told : List Event} (h : ToldBefore source e kind told) :
    told.filterMap Event.line? = [] := by
  cases h with
  | lexical => rfl
  | grammar => rfl
  | naming =>
    rw [List.filterMap_append, Event.filterMap_line?_declared]
    rfl

section Order

def Symbol.token (s : Symbol) : Token := ⟨.identifier s.name, s.declaredAt⟩

variable {d : Nat} {w : List Token} {before after : StraightLine.Program}
  {s : StraightLine.Statement}

/-- A place among the tokens of a program, between the declarations before it and the others. -/
theorem declaredBefore_of_tokens {p : Program} {u v : List Token} {t : Token}
    {declared later : List Symbol} (hp : p.declarations = declared ++ later)
    (hincreasing : (u ++ t :: v).Pairwise fun t t' => t.location < t'.location)
    (hdeclared : ∀ s ∈ declared, s.token ∈ u) (hlater : ∀ s ∈ later, s.token ∈ t :: v) :
    p.DeclaredBefore t.location declared := by
  rw [List.pairwise_append, List.pairwise_cons] at hincreasing
  obtain ⟨-, ⟨hbehind, -⟩, hacross⟩ := hincreasing
  refine ⟨later, hp, ?_, ?_⟩
  · intro s hs
    exact hacross s.token (hdeclared s hs) t List.mem_cons_self
  · intro s hs hlt
    obtain hsame | hmem := List.mem_cons.1 (hlater s hs)
    · rw [← hsame] at hlt
      exact Location.lt_irrefl _ hlt
    · exact Location.lt_irrefl _ (Location.lt_trans hlt (hbehind s.token hmem))

theorem Grammar.Program.token_mem {p : StraightLine.Program} (h : Grammar.Program d w p) :
    ∀ s ∈ p.declarations, s.token ∈ w := by
  intro s hs
  exact h.declarations_sublist.subset (List.mem_map_of_mem hs)

/-- The name of a statement stands behind the declarations of the statements before it. -/
theorem Grammar.Program.declaredBefore_target
    (h : Grammar.Program d w (before ++ s :: after))
    (hincreasing : w.Pairwise fun t t' => t.location < t'.location) :
    StraightLine.Program.DeclaredBefore (before ++ s :: after) s.location before.declarations := by
  have hp := StraightLine.Program.declarations_append before (s :: after)
  obtain ⟨u, v, rfl, hbefore, hrest⟩ := h.split
  have hlater := hrest.token_mem
  obtain ⟨⟨form, x, l⟩, e⟩ := s
  cases hrest with
  | @cons us v _ _ hs hafter =>
    obtain ⟨target, value, equals, stop, htarget, hsum, rfl⟩ := hs.exists_target
    cases htarget with
    | declaration _ keyword =>
      refine declaredBefore_of_tokens (u := u ++ [⟨.var, keyword⟩]) (t := ⟨.identifier x, l⟩)
        (v := ⟨.assign, equals⟩ :: (value ++ [⟨.semicolon, stop⟩]) ++ v) hp
        (by simpa using hincreasing) ?_ ?_
      · intro s hs
        exact List.mem_append_left _ (hbefore.token_mem s hs)
      · intro s hs
        have hmem := hlater s hs
        rw [List.cons_append, List.cons_append, List.mem_cons] at hmem
        obtain hvar | hmem := hmem
        · cases hvar
        · exact hmem
    | assignment =>
      exact declaredBefore_of_tokens (u := u) (t := ⟨.identifier x, l⟩) hp
        (by simpa using hincreasing) hbefore.token_mem hlater

/-- A variable of a value stands behind the declaration of its own statement as well. -/
theorem Grammar.Program.declaredBefore_use
    (h : Grammar.Program d w (before ++ s :: after))
    (hincreasing : w.Pairwise fun t t' => t.location < t'.location) {x : String} {l : Location}
    (hx : (x, l) ∈ s.value.uses) :
    StraightLine.Program.DeclaredBefore (before ++ s :: after) l
      (StraightLine.Program.declarations (before ++ [s])) := by
  have hp := StraightLine.Program.declarations_append (before ++ [s]) after
  rw [List.append_assoc, List.singleton_append] at hp
  obtain ⟨u, v, rfl, hbefore, hrest⟩ := h.split
  cases hrest with
  | @cons us v _ _ hs hafter =>
    obtain ⟨target, value, equals, stop, htarget, hsum, rfl⟩ := hs.exists_target
    obtain ⟨value, rest, rfl⟩ := List.append_of_mem (hsum.identifier_mem hx)
    refine declaredBefore_of_tokens (u := u ++ (target ++ ⟨.assign, equals⟩ :: value))
      (t := ⟨.identifier x, l⟩) (v := rest ++ [⟨.semicolon, stop⟩] ++ v) hp
      (by simpa using hincreasing) ?_ ?_
    · intro s' hs'
      rw [StraightLine.Program.declarations_append, List.mem_append] at hs'
      obtain hs' | hs' := hs'
      · exact List.mem_append_left _ (hbefore.token_mem s' hs')
      · obtain ⟨hform, rfl⟩ : s.form = .declaration ∧ Symbol.declared s.name s.location = s' := by
          simpa [StraightLine.Program.declarations, Symbol.declared] using hs'
        exact List.mem_append_right _ (List.mem_append_left _ htarget.name_mem)
    · intro s' hs'
      exact List.mem_cons_of_mem _ (List.mem_append_right _ (hafter.token_mem s' hs'))

end Order

namespace SymbolTable

theorem exists_checkStatement_of_check {t : SymbolTable} {p : Program} {e : NamingError}
    (h : (t.check p).1 = .error e) :
    ∃ before s after, p = before ++ s :: after ∧ (t.check before).1 = .ok () ∧
      (t.check before).2.checkStatement s = (.error e, (t.check p).2) := by
  induction p generalizing t with
  | nil => cases h
  | cons s p ih =>
    cases hs : (t.checkStatement s).1 with
    | error e' =>
      rw [check_cons_of_error hs] at h ⊢
      exact ⟨[], s, p, rfl, rfl, Prod.ext h rfl⟩
    | ok u =>
      rw [check_cons_of_ok hs] at h ⊢
      obtain ⟨before, s', after, rfl, hbefore, hfails⟩ := ih h
      refine ⟨s :: before, s', after, rfl, ?_, ?_⟩
      · rw [check_cons_of_ok hs, hbefore]
      · rw [check_cons_of_ok hs, hfails]

theorem location_fault? {o : Occurrence} {e : NamingError} (h : o.fault? = some e) :
    e.location = o.location := by
  unfold Occurrence.fault? at h
  split at h
  all_goals cases h
  all_goals rfl

/-- The table that a check leaves at a fault has the declarations that stand before it in the text. -/
theorem declaredBefore_of_check {d : Nat} {w : List Token} {p : Program} {e : NamingError}
    (hw : Grammar.Program d w p)
    (hincreasing : w.Pairwise fun t t' => t.location < t'.location)
    (h : (empty.check p).1 = .error e) :
    p.DeclaredBefore e.location (empty.check p).2.toList := by
  obtain ⟨before, s, after, rfl, hbefore, hfails⟩ := exists_checkStatement_of_check h
  have hknown : (empty.check before).2.toList = before.declarations := toList_check hbefore
  obtain ⟨e', hfault, hs⟩ | ⟨t, -, hlist, hs⟩ := (empty.check before).2.checkStatement_cases s
  · obtain ⟨he, ht⟩ := Prod.mk.inj (hfails.symm.trans hs)
    cases he
    rw [ht, hknown, location_fault? hfault]
    exact hw.declaredBefore_target hincreasing
  · obtain ⟨he, ht⟩ := Prod.mk.inj (hfails.symm.trans hs)
    obtain ⟨x, l, hx, -, rfl⟩ := checkExpr_eq_error he.symm
    rw [ht, hlist, hknown, ← Program.declarations_append]
    exact hw.declaredBefore_use hincreasing hx

end SymbolTable

section Stages

variable {source : String}

theorem compileLog_of_ok {c : Compiled} (h : compile source = .ok c) :
    compileLog source = (Report.ofStages source).2.toList := by
  rw [compileLog, Report.ofSource, Report.ofStages_eq, h]

theorem compileLog_of_error {e : CompileError} (h : compile source = .error e) :
    compileLog source = (Report.ofStages source).2.toList ++ [.failed e] := by
  rw [compileLog, Report.ofSource, Report.ofStages_eq, h]
  exact Array.toList_push

theorem Report.ofStages_of_ok {ts : List Token} {p : Program} (hts : tokenize source = .ok ts)
    (hp : Program.ofTokens ts = .ok p) :
    ofStages source = ofProgram #[.lexed ts.length, .parsed p.length p.operatorCount] p := by
  simp only [ofStages, hts, ofTokens, hp]
  rfl

theorem toldBefore_ofStages {e : CompileError} (h : compile source = .error e) :
    ToldBefore source e e.kind (Report.ofStages source).2.toList := by
  obtain ⟨e, he, rfl⟩ | ⟨ts, hts, ⟨e, he, rfl⟩ | ⟨p, e, hp, he, rfl⟩⟩ := compile_eq_error h
  · simp only [Report.ofStages, he]
    exact .lexical he
  · simp only [Report.ofStages, hts, Report.ofTokens, he]
    exact .grammar hts he
  · obtain ⟨w, t, rfl, hw⟩ := Program.exists_sentence_of_tokenize hts hp
    have hincreasing := (List.pairwise_append.1 (positioned_tokenize hts).increasing).1
    rw [Report.ofStages_of_ok hts hp, (Report.ofProgram_of_error he _).2]
    exact .naming hts hp he (SymbolTable.declaredBefore_of_check hw hincreasing he)

end Stages

/-- A compilation that succeeds tells of every stage, with the numbers of the program and the symbols
and the code of the result. One that fails tells of the stages before, and at last what has failed. -/
theorem compile_tells (source : String) :
    match compile source with
    | .ok c => ∃ ts p, tokenize source = .ok ts ∧ Program.ofTokens ts = .ok p ∧
        compileLog source = [.lexed ts.length, .parsed p.length p.operatorCount] ++
          c.symbols.toList.map .declared ++ [.checked c.symbols.size] ++ c.code.map .emitted ++
          [.generated c.code.length p.operatorCount] ∧
        c.code.length = p.length + p.operatorCount ∧ c.symbols.toList = p.declarations ∧
        (compileLog source).filterMap Event.declaredName? = c.symbols.names ∧
        (compileLog source).filterMap Event.line? = c.listing
    | .error e => ∃ told, compileLog source = told ++ [.failed e] ∧
        ToldBefore source e e.kind told ∧ (compileLog source).filterMap Event.line? = [] := by
  cases h : compile source with
  | error e =>
    have htold := toldBefore_ofStages h
    have hlog := compileLog_of_error h
    refine ⟨_, hlog, htold, ?_⟩
    rw [hlog, List.filterMap_append, htold.filterMap_line?]
    rfl
  | ok c =>
    obtain ⟨p, hsource, hcheck, rfl⟩ := (compile_eq_ok_iff source c).1 h
    obtain ⟨ts, hts, hp⟩ := (Program.ofSource_eq_ok_iff source p).1 hsource
    have hsize : p.code.length = p.length + p.operatorCount := by
      rw [Program.code_eq, Program.length_codeAfter, Nat.add_comm]
    have hlog := compileLog_of_ok h
    rw [Report.ofStages_of_ok hts hp, (Report.ofProgram_of_ok hcheck _).2] at hlog
    refine ⟨ts, p, hts, hp, hlog, hsize, SymbolTable.toList_check hcheck, ?_, ?_⟩
    · simp only [hlog, List.filterMap_append, Event.filterMap_declaredName?,
        Event.filterMap_declaredName?_emitted]
      simp [List.filterMap_cons, Event.declaredName?, SymbolTable.names]
    · simp only [hlog, List.filterMap_append, Event.filterMap_line?,
        Event.filterMap_line?_declared]
      simp [List.filterMap_cons, Event.line?, Compiled.listing]

end StraightLine
