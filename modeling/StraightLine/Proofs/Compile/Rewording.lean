import StraightLine.Proofs.Code.Rewording
import StraightLine.Proofs.Compile.Diagnostics
import StraightLine.Proofs.Scope.Rewording

/-! Compilation in other words. Of a text only its tokens count, and of these only the kinds, up to
the numbers and to names that stay apart: neither blanks nor places nor what a name looks like or
what a number is decides what becomes of a program. -/
namespace StraightLine

def SameIndex (ts ts' : List Token) (l l' : Location) : Prop :=
  ∃ i : Nat, ts[i]?.map Token.location = some l ∧ ts'[i]?.map Token.location = some l'

/-- The second error says of its own text what the first says, with places that are related by
`same`. -/
inductive CompileError.Rewords (φ : Rewording) (same : Location → Location → Prop) :
    CompileError → CompileError → Prop
  | unexpectedToken (expected : String) (found : Token.Kind) {l l' : Location} : same l l' →
    Rewords φ same (.source (.grammar (.unexpectedToken expected found l)))
      (.source (.grammar (.unexpectedToken expected (found.reword φ) l')))
  | invalidFactor (found : Token.Kind) {l l' : Location} : same l l' →
    Rewords φ same (.source (.grammar (.invalidFactor found l)))
      (.source (.grammar (.invalidFactor (found.reword φ) l')))
  | nestingTooDeep (limit : Nat) {l l' : Location} : same l l' →
    Rewords φ same (.source (.grammar (.nestingTooDeep limit l)))
      (.source (.grammar (.nestingTooDeep limit l')))
  | alreadyDeclared (x : String) {l l' previous previous' : Location} : same l l' →
    same previous previous' → Rewords φ same (.naming (.alreadyDeclared x l previous))
      (.naming (.alreadyDeclared (φ.name x) l' previous'))
  | notDeclared (x : String) {l l' : Location} : same l l' →
    Rewords φ same (.naming (.notDeclared x l)) (.naming (.notDeclared (φ.name x) l'))

variable (φ : Rewording) (place : Location → Location)

theorem sameIndex_reword {ts : List Token} {l : Location} (h : ∃ t ∈ ts, l = t.location) :
    SameIndex ts (ts.map (Token.reword φ place)) l (place l) := by
  obtain ⟨t, ht, rfl⟩ := h
  obtain ⟨i, hi⟩ := List.mem_iff_getElem?.1 ht
  refine ⟨i, ?_, ?_⟩
  · rw [hi, Option.map_some]
  · rw [List.getElem?_map, hi, Option.map_some, Option.map_some, Token.reword]

theorem GrammarError.rewords {e : GrammarError} {same : Location → Location → Prop}
    (h : same e.location (place e.location)) :
    CompileError.Rewords φ same (.source (.grammar e)) (.source (.grammar (e.reword φ place))) := by
  cases e with
  | unexpectedToken expected found l => exact .unexpectedToken expected found h
  | invalidFactor found l => exact .invalidFactor found h
  | nestingTooDeep limit l => exact .nestingTooDeep limit h

theorem NamingError.Shown.rewords {e : NamingError} {ts : List Token} (h : e.Shown ts) :
    CompileError.Rewords φ (SameIndex ts (ts.map (Token.reword φ place))) (.naming e)
      (.naming (e.reword φ place)) := by
  have hl := sameIndex_reword φ place ⟨_, h.mem, rfl⟩
  cases e with
  | notDeclared x l => exact .notDeclared x hl
  | alreadyDeclared x l previous =>
    obtain ⟨u, k, v, hts, hu⟩ := h
    obtain ⟨k', hdeclares⟩ := hu.declares
    have hmem : ⟨.identifier x, previous⟩ ∈ ts := by
      rw [hts]
      exact List.mem_append_left _ (hdeclares.subset (by simp))
    exact .alreadyDeclared x hl (sameIndex_reword φ place ⟨_, hmem, rfl⟩)

/-- Two texts whose tokens are the same but for their places, for names that stay apart, and for
numbers, have the same fate. The code and the names of the one are those of the other in other
words, or both have the same fault at the same token. -/
theorem compile_reword {φ : Rewording} (hname : Function.Injective φ.name)
    {source source' : String} {ts ts' : List Token} (hts : tokenize source = .ok ts)
    (hts' : tokenize source' = .ok ts')
    (hkinds : ts'.map Token.kind = ts.map fun t => t.kind.reword φ) :
    (∃ c c', compile source = .ok c ∧ compile source' = .ok c' ∧
      c'.code = c.code.map (Instruction.reword φ) ∧
      c'.symbols.names = c.symbols.names.map φ.name) ∨
    ∃ e e', compile source = .error e ∧ compile source' = .error e' ∧
      e.Rewords φ (SameIndex ts ts') e' := by
  obtain ⟨place, rfl⟩ := exists_map_reword (positioned_tokenize hts).nodup_location hkinds
  obtain ⟨t, ht, heof⟩ := Cursor.exists_eof_of_tokens hts
  have hread := Program.ofTokens_reword φ place (List.ne_nil_of_mem ht)
  cases hp : Program.ofTokens ts with
  | error e =>
    rw [hp] at hread
    refine .inr ⟨_, _, compile_of_grammarError hts hp, compile_of_grammarError hts' hread, ?_⟩
    have htoken := GrammarError.exists_token hp ⟨t, ht, heof⟩
    exact GrammarError.rewords φ place (sameIndex_reword φ place htoken)
  | ok p =>
    rw [hp] at hread
    have hsource := (Program.ofSource_eq_ok_iff source p).2 ⟨ts, hts, hp⟩
    have hsource' := (Program.ofSource_eq_ok_iff source' (p.reword φ place)).2 ⟨_, hts', hread⟩
    have hempty : SymbolTable.Rewords φ place .empty .empty := rfl
    obtain ⟨hresult, htable⟩ := hempty.check hname p
    cases hcheck : (SymbolTable.empty.check p).1 with
    | error e =>
      rw [hcheck] at hresult
      refine .inr ⟨_, _, compile_of_namingError hsource hcheck,
        compile_of_namingError hsource' hresult, ?_⟩
      obtain ⟨-, -, -, -, -, hshown⟩ := NamingError.exists_shown hts hp hcheck
      exact hshown.rewords φ place
    | ok u =>
      rw [hcheck] at hresult
      exact .inl ⟨_, _, (compile_eq_ok_iff source _).2 ⟨p, hsource, hcheck, rfl⟩,
        (compile_eq_ok_iff source' _).2 ⟨p.reword φ place, hsource', hresult, rfl⟩,
        p.code_reword φ place, htable.names⟩

theorem compile_reword_both_outcomes :
    (∃ c c', compile "var a = 1; var b = a + 2;" = .ok c ∧
      compile "var xa=7;var xb =\n xa+7;" = .ok c' ∧
      c.listing = ["a = 1", "t1 = a + 2", "b = t1"] ∧
      c'.code = c.code.map (Instruction.reword ⟨fun x => "x" ++ x, fun _ => 7⟩) ∧
      c'.symbols.names = c.symbols.names.map fun x => "x" ++ x) ∧
    ∃ ts ts', tokenize "var a = 1; var a = a;" = .ok ts ∧
      tokenize "var xa=7;\n  var xa=xa ;" = .ok ts' ∧
      ∃ e e', compile "var a = 1; var a = a;" = .error e ∧
        compile "var xa=7;\n  var xa=xa ;" = .error e' ∧
        e.Rewords ⟨fun x => "x" ++ x, fun _ => 7⟩ (SameIndex ts ts') e' := by
  let φ : Rewording := ⟨fun x => "x" ++ x, fun _ => 7⟩
  have hname : Function.Injective φ.name := by
    intro x y h
    simpa [φ] using h
  refine ⟨?_, ?_⟩
  · have hts : tokenize "var a = 1; var b = a + 2;" =
        .ok ((tokenize "var a = 1; var b = a + 2;").toOption.getD []) := by
      decide +kernel
    have hts' : tokenize "var xa=7;var xb =\n xa+7;" =
        .ok ((tokenize "var xa=7;var xb =\n xa+7;").toOption.getD []) := by
      decide +kernel
    obtain ⟨c₀, hc₀, hlisting⟩ :=
      exists_ok_of_toOption_map (f := Compiled.listing) (x := compile "var a = 1; var b = a + 2;")
        (v := ["a = 1", "t1 = a + 2", "b = t1"]) (by decide +kernel)
    obtain ⟨c, c', hc, hc', hcode, hnames⟩ | ⟨e, e', he, -⟩ :=
      compile_reword (φ := φ) hname hts hts' (by decide +kernel)
    · cases hc₀.symm.trans hc
      exact ⟨c₀, c', hc, hc', hlisting, hcode, hnames⟩
    · cases hc₀.symm.trans he
  · have hts : tokenize "var a = 1; var a = a;" =
        .ok ((tokenize "var a = 1; var a = a;").toOption.getD []) := by
      decide +kernel
    have hts' : tokenize "var xa=7;\n  var xa=xa ;" =
        .ok ((tokenize "var xa=7;\n  var xa=xa ;").toOption.getD []) := by
      decide +kernel
    refine ⟨_, _, hts, hts', ?_⟩
    obtain ⟨c, c', hc, -⟩ | herror :=
      compile_reword (φ := φ) hname hts hts' (by decide +kernel)
    · have hfails : (compile "var a = 1; var a = a;").toOption.isNone = true := by decide +kernel
      rw [hc] at hfails
      cases hfails
    · exact herror

end StraightLine
