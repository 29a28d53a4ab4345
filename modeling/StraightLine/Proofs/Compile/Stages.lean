import StraightLine.Proofs.Code.Listing
import StraightLine.Proofs.Compile.Logged
import StraightLine.Proofs.Program.Acceptance
import StraightLine.Proofs.Program.Names
import StraightLine.Proofs.Program.Printing
import StraightLine.Proofs.Token.Layout

/-! What a compilation that succeeds has done: the text is a sentence, its program keeps the
discipline of names, and the code and the symbols are those of the program. -/
namespace StraightLine

theorem exists_ok_of_toOption_map {ε α β : Type} {x : Except ε α} {f : α → β} {v : β}
    (h : x.toOption.map f = some v) : ∃ a, x = .ok a ∧ f a = v := by
  cases x with
  | error e => cases h
  | ok a => exact ⟨a, rfl, Option.some.inj h⟩

theorem Program.ofSource_eq_ok_iff (source : String) (p : Program) :
    Program.ofSource source = .ok p ↔
      ∃ ts, tokenize source = .ok ts ∧ Program.ofTokens ts = .ok p := by
  rw [Program.ofSource, TokenStream.ofSource]
  cases tokenize source with
  | error e => simp
  | ok ts =>
    change (Program.ofTokens ts).mapError SourceError.grammar = .ok p ↔ _
    cases hp : Program.ofTokens ts with
    | error e => simp [hp, Except.mapError]
    | ok q => simp [hp, Except.mapError]

theorem Report.ofProgram_eq_ok_iff (log : Array Event) (p : Program) (c : Compiled) :
    (Report.ofProgram log p).1 = .ok c ↔
      (SymbolTable.empty.check p).1 = .ok () ∧ c = ⟨p.code, (SymbolTable.empty.check p).2⟩ := by
  cases h : (SymbolTable.empty.check p).1 with
  | error e => simp [(Report.ofProgram_of_error h log).1]
  | ok u => simp [(Report.ofProgram_of_ok h log).1, eq_comm]

theorem compile_eq_ok_iff (source : String) (c : Compiled) :
    compile source = .ok c ↔
      ∃ p, Program.ofSource source = .ok p ∧ (SymbolTable.empty.check p).1 = .ok () ∧
        c = ⟨p.code, (SymbolTable.empty.check p).2⟩ := by
  simp only [Program.ofSource_eq_ok_iff]
  rw [compile, Report.fst_ofSource, Report.ofStages]
  cases tokenize source with
  | error e => simp
  | ok ts =>
    simp only [Report.ofTokens]
    cases hp : Program.ofTokens ts with
    | error e => simp [hp]
    | ok p => simp [hp, Report.ofProgram_eq_ok_iff]

theorem compile_of_lexicalError {source : String} {e : LexicalError}
    (h : tokenize source = .error e) : compile source = .error (.source (.lexical e)) := by
  simp only [compile, Report.fst_ofSource, Report.ofStages, h]

theorem compile_of_grammarError {source : String} {ts : List Token} {e : GrammarError}
    (hts : tokenize source = .ok ts) (h : Program.ofTokens ts = .error e) :
    compile source = .error (.source (.grammar e)) := by
  simp only [compile, Report.fst_ofSource, Report.ofStages, hts, Report.ofTokens, h]

theorem compile_of_namingError {source : String} {p : Program} {e : NamingError}
    (hp : Program.ofSource source = .ok p) (h : (SymbolTable.empty.check p).1 = .error e) :
    compile source = .error (.naming e) := by
  obtain ⟨ts, hts, hp⟩ := (Program.ofSource_eq_ok_iff source p).1 hp
  simp only [compile, Report.fst_ofSource, Report.ofStages, hts, Report.ofTokens, hp]
  exact (Report.ofProgram_of_error h _).1

/-- The first stage that fails is the one whose error comes out. -/
theorem compile_eq_error {source : String} {e : CompileError} (h : compile source = .error e) :
    (∃ e', tokenize source = .error e' ∧ e = .source (.lexical e')) ∨
    ∃ ts, tokenize source = .ok ts ∧
      ((∃ e', Program.ofTokens ts = .error e' ∧ e = .source (.grammar e')) ∨
        ∃ p e', Program.ofTokens ts = .ok p ∧ (SymbolTable.empty.check p).1 = .error e' ∧
          e = .naming e') := by
  rw [compile, Report.fst_ofSource, Report.ofStages] at h
  cases hts : tokenize source with
  | error e' =>
    rw [hts] at h
    cases h
    exact .inl ⟨e', rfl, rfl⟩
  | ok ts =>
    rw [hts] at h
    refine .inr ⟨ts, rfl, ?_⟩
    simp only [Report.ofTokens] at h
    cases hp : Program.ofTokens ts with
    | error e' =>
      rw [hp] at h
      cases h
      exact .inl ⟨e', rfl, rfl⟩
    | ok p =>
      rw [hp] at h
      simp only at h
      cases hcheck : (SymbolTable.empty.check p).1 with
      | error e' =>
        rw [(Report.ofProgram_of_error hcheck _).1] at h
        cases h
        exact .inr ⟨p, e', rfl, hcheck, rfl⟩
      | ok u =>
        rw [(Report.ofProgram_of_ok hcheck _).1] at h
        cases h

/-- A program in a text has only names that can stand in a text. -/
theorem Program.isName_of_ofSource {source : String} {p : Program}
    (h : Program.ofSource source = .ok p) {x : String} (hx : p.Mentions x) : isName x = true := by
  obtain ⟨ts, hts, hp⟩ := (Program.ofSource_eq_ok_iff source p).1 h
  have hsentence := (Program.ofTokens_eq_ok_iff_sentence ts p).1 hp
  have hspelled : Spelled (ts.takeWhile fun t => !t.isEof) x := by
    obtain ⟨s, hs, hname | huse⟩ := hx
    · exact hname ▸ (hsentence.spelled s hs).1
    · exact (hsentence.spelled s hs).2 x huse
  obtain ⟨l, hl⟩ := hspelled
  have hwritable := isWritable_tokenize hts _ ((List.takeWhile_sublist _).subset hl)
  simp only [Token.Kind.isWritable, Bool.and_eq_true] at hwritable
  exact hwritable.1

/-- A text that spells what a program is printed with is read as the program, up to places. -/
theorem Program.ofSource_of_spells {p : Program} {source : String}
    (h : Token.Spells source.toList p.kinds)
    (hnesting : ∀ s ∈ p, s.value.nesting ≤ maxNesting) :
    ∃ q, Program.ofSource source = .ok q ∧ q.unplaced = p.unplaced := by
  obtain ⟨ts, hts, hmap⟩ := Cursor.tokens_of_spells h .start
  obtain ⟨w, l, rfl, hw⟩ := map_kind_eq_concat hmap
  have hbefore : (w ++ [Token.mk .eof l]).takeWhile (fun t => !t.isEof) = w := by
    refine takeWhile_concat_eof ?_ rfl
    intro t ht
    have htk := h.ne_eof t.kind (hw ▸ List.mem_map_of_mem ht)
    simpa [Token.isEof] using htk
  obtain ⟨q, hq, hsentence⟩ := Program.exists_sentence hnesting hw
  refine ⟨q, (Program.ofSource_eq_ok_iff _ q).2 ⟨_, hts, ?_⟩, hq⟩
  rw [Program.ofTokens_eq_ok_iff_sentence, hbefore]
  exact hsentence

/-- A printed program is read back, up to places. -/
theorem Program.ofSource_render {p : Program} (hwritable : ∀ s ∈ p, s.IsWritable)
    (hnesting : ∀ s ∈ p, s.value.nesting ≤ maxNesting) :
    ∃ q, Program.ofSource p.render = .ok q ∧ q.unplaced = p.unplaced := by
  have hkinds : ∀ k ∈ p.kinds, k.isWritable = true ∧ k ≠ .eof := by
    intro k hk
    obtain ⟨s, hs, hks⟩ := List.mem_flatMap.1 hk
    exact Statement.isWritable_kinds (hwritable s hs) hks
  exact Program.ofSource_of_spells (Token.spells_intercalate hkinds) hnesting

end StraightLine
