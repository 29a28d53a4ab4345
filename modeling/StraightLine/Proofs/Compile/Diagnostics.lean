import Mathlib.Data.List.Nodup
import StraightLine.Proofs.Compile.Stages
import StraightLine.Proofs.Program.Declarations
import StraightLine.Proofs.Program.Misfit
import StraightLine.Proofs.Scope.Violation
import StraightLine.Proofs.Token.LongestMatch
import StraightLine.Proofs.Token.Positions

/-! Where errors and symbols point to: at the text that they are about. A place is made where text
is cut into tokens, and only handed on from there. -/
namespace StraightLine

open Token (Kind)

/-- The one token at this place is of this kind. -/
def TokenAt (ts : List Token) (k : Kind) (l : Location) : Prop :=
  ⟨k, l⟩ ∈ ts ∧ ∀ t ∈ ts, t.location = l → t.kind = k

/-- The text goes on behind `before` with what the error is about: the character, or digits to which
no other joins. -/
def LexicalError.Shown (before after : List Char) : LexicalError → Prop
  | .unexpectedCharacter c _ => after.head? = some c
  | .integerOutOfRange literal _ => literal ≠ "" ∧
    literal.toList = after.takeWhile Char.isDigit ∧ ∀ c ∈ before.getLast?, c.isDigit = false

/-- The token is where the error points to, and an end is only behind the whole text. -/
def GrammarError.Shown (ts : List Token) (after : List Char) : GrammarError → Prop
  | .unexpectedToken _ found l => TokenAt ts found l ∧ (found = .eof → after = [])
  | .invalidFactor found l => TokenAt ts found l ∧ (found = .eof → after = [])
  | .nestingTooDeep _ l => TokenAt ts .lparen l

/-- The name is where the error points to. No declaration of it comes before, or this is one that
comes behind the first. -/
def NamingError.Shown (ts : List Token) : NamingError → Prop
  | .notDeclared x l => ∃ u v, ts = u ++ ⟨.identifier x, l⟩ :: v ∧ ∀ l', ¬Declares u x l'
  | .alreadyDeclared x l previous => ∃ u k v,
    ts = u ++ ⟨.var, k⟩ :: ⟨.identifier x, l⟩ :: v ∧ FirstDeclares u x previous

/-- What a text has behind `before` is what the error is about. -/
def CompileError.Shown (source : String) (before after : List Char) : CompileError → Prop
  | .source (.lexical e) => e.Shown before after
  | .source (.grammar e) => ∃ ts, tokenize source = .ok ts ∧ e.Shown ts after
  | .naming e => ∃ ts, tokenize source = .ok ts ∧
    TokenAt ts (.identifier e.name) e.location ∧ e.Shown ts

theorem Cursor.Positioned.nodup_location {read rest : List Char} {ts : List Token}
    (h : Positioned read rest ts) : (ts.map Token.location).Nodup := by
  refine List.pairwise_map.2 (h.increasing.imp ?_)
  intro t t' hlt hl
  exact Location.lt_irrefl _ (hl ▸ hlt)

theorem Cursor.Positioned.tokenAt {read rest : List Char} {ts : List Token} {t : Token}
    (h : Positioned read rest ts) (ht : t ∈ ts) : TokenAt ts t.kind t.location := by
  refine ⟨ht, ?_⟩
  intro t' ht' hl
  rw [List.inj_on_of_nodup_map h.nodup_location ht' ht hl]

theorem LexicalError.exists_shown {source : String} {e : LexicalError}
    (h : tokenize source = .error e) : ∃ before after, source.toList = before ++ after ∧
      e.location = .behind before ∧ e.Shown before after := by
  obtain ⟨i, hfault, -⟩ := (tokenize_eq_error_iff source e).1 h
  cases hfault with
  | @character before after c htext hc => exact ⟨before, c :: after, htext, rfl, rfl⟩
  | @number before run after htext hrun hvalue =>
    refine ⟨before, run ++ after, by rw [htext, List.append_assoc], rfl, ?_, ?_, ?_⟩
    · intro hempty
      have hnil : run.takeWhile Char.isDigit = [] := by simpa using congrArg String.toList hempty
      simp [Text.leadingValue, hnil] at hvalue
    · rw [String.toList_ofList, hrun.takeWhile_isDigit]
    · intro c hc
      exact Text.not_isDigit_of_not_isAlphanum (hrun.left c hc)

theorem Phase.shown_refusal {phase : Phase} {ts : List Token} {t : Token} {after : List Char}
    (ht : TokenAt ts t.kind t.location) (hend : t.kind = .eof → after = []) :
    (phase.refusal t).Shown ts after := by
  obtain h | ⟨c, h⟩ := phase.atFactor_or_expects
  · rw [h.refusal]
    split
    next hkind =>
      rw [hkind] at ht
      exact ht
    next => exact ⟨ht, hend⟩
  · rw [h.refusal]
    exact ⟨ht, hend⟩

/-- If some token is an end, the reader stops at a token of the list. -/
theorem Reader.current_mem_of_run_eq_error {stop : Location} {r : Reader} {ts ahead : List Token}
    {e : GrammarError} (h : r.run stop ts = (.error e, ahead)) (hts : ∃ t ∈ ts, t.isEof = true) :
    TokenStream.current ⟨ahead, stop⟩ ∈ ts := by
  obtain ⟨u, r', rfl, hu, -, -⟩ := Reader.run_eq_error h
  cases ahead with
  | nil =>
    obtain ⟨t, ht, heof⟩ := hts
    rw [List.append_nil] at ht
    exact absurd heof (by simp [hu t ht])
  | cons t ahead => exact List.mem_append_right u List.mem_cons_self

/-- An error of grammar points to a token, if the tokens have an end. -/
theorem GrammarError.exists_token {ts : List Token} {e : GrammarError}
    (h : Program.ofTokens ts = .error e) (hts : ∃ t ∈ ts, t.isEof = true) :
    ∃ t ∈ ts, e.location = t.location := by
  have hrun : Reader.init.run _ ts = (.error e, _) := Prod.ext h rfl
  obtain ⟨u, r, -, -, -, hrefuses⟩ := Reader.run_eq_error hrun
  refine ⟨_, Reader.current_mem_of_run_eq_error hrun hts, ?_⟩
  rw [hrefuses.error, r.phase.location_refusal]

theorem GrammarError.exists_shown {source : String} {ts : List Token} {e : GrammarError}
    (hts : tokenize source = .ok ts) (h : Program.ofTokens ts = .error e) :
    ∃ before after, source.toList = before ++ after ∧ e.location = .behind before ∧
      e.Shown ts after := by
  have hrun : Reader.init.run _ ts = (.error e, _) := Prod.ext h rfl
  have hmem := Reader.current_mem_of_run_eq_error hrun (Cursor.exists_eof_of_tokens hts)
  obtain ⟨u, r, -, -, -, hrefuses⟩ := Reader.run_eq_error hrun
  generalize TokenStream.current _ = t at hmem hrefuses
  have hpositioned := positioned_tokenize hts
  obtain ⟨before, after, htext, hl, hend⟩ := hpositioned.position t hmem
  obtain rfl := hrefuses.error
  refine ⟨before, after, htext, (r.phase.location_refusal t).trans hl, ?_⟩
  refine Phase.shown_refusal (hpositioned.tokenAt hmem) ?_
  intro hkind
  exact hend (by simp [Token.isEof, hkind])

/-- All tokens of a text but its end are those of the program. -/
theorem Program.exists_sentence_of_tokenize {source : String} {ts : List Token} {p : Program}
    (hts : tokenize source = .ok ts) (hp : Program.ofTokens ts = .ok p) :
    ∃ w t, ts = w ++ [t] ∧ Grammar.Program maxNesting w p := by
  obtain ⟨w, t, rfl, ht, hw⟩ := tokenize_eq_concat hts
  have hsentence := (Program.ofTokens_eq_ok_iff_sentence _ p).1 hp
  rw [takeWhile_concat_eof hw ht] at hsentence
  exact ⟨w, t, rfl, hsentence⟩

theorem NamingError.Shown.append {ts : List Token} {e : NamingError} (h : e.Shown ts)
    (rest : List Token) : e.Shown (ts ++ rest) := by
  cases e with
  | notDeclared x l =>
    obtain ⟨u, v, rfl, hu⟩ := h
    exact ⟨u, v ++ rest, by simp, hu⟩
  | alreadyDeclared x l previous =>
    obtain ⟨u, k, v, rfl, hu⟩ := h
    exact ⟨u, k, v ++ rest, by simp, hu⟩

theorem NamingError.Shown.mem {ts : List Token} {e : NamingError} (h : e.Shown ts) :
    ⟨.identifier e.name, e.location⟩ ∈ ts := by
  cases e with
  | notDeclared x l =>
    obtain ⟨u, v, rfl, -⟩ := h
    exact List.mem_append_right u List.mem_cons_self
  | alreadyDeclared x l previous =>
    obtain ⟨u, k, v, rfl, -⟩ := h
    exact List.mem_append_right u (List.mem_cons_of_mem _ List.mem_cons_self)

/-- The tokens of a statement show how it breaks the discipline. -/
theorem Statement.Violates.shown {d : Nat} {w : List Token} {before after : Program}
    {s : Statement} {e : NamingError} (h : s.Violates before.declarations e)
    (hw : Grammar.Program d w (before ++ s :: after)) (hdistinct : before.declaredNames.Nodup) :
    e.Shown w := by
  cases h with
  | redeclared hform hsymbol hname =>
    obtain ⟨u, k, v, rfl, hbefore⟩ := hw.exists_declaration hform
    exact ⟨u, k, v, rfl, hname ▸ hbefore.firstDeclares hdistinct hsymbol⟩
  | target hform hname =>
    obtain ⟨u, v, rfl, hbefore⟩ := hw.exists_assignment hform
    exact ⟨u, v, rfl, fun l hl => hname (hbefore.mem_declaredNames hl)⟩
  | use hx hname =>
    obtain ⟨u, v, rfl, hu⟩ := hw.exists_use hx
    exact ⟨u, v, rfl, fun l hl => hname (hu _ l hl)⟩

/-- The name of a fault is one of the tokens of the program. -/
theorem Statement.Violates.token_mem {d : Nat} {w : List Token} {before after : Program}
    {s : Statement} {known : List Symbol} {e : NamingError} (h : s.Violates known e)
    (hw : Grammar.Program d w (before ++ s :: after)) :
    ⟨.identifier e.name, e.location⟩ ∈ w := by
  obtain ⟨u, target, value, v, equals, stop, rfl, -, htarget, hsum⟩ := hw.exists_statement
  cases h with
  | redeclared => simp [NamingError.name, NamingError.location, htarget.name_mem]
  | target => simp [NamingError.name, NamingError.location, htarget.name_mem]
  | use hx => simp [NamingError.name, NamingError.location, hsum.identifier_mem hx]

/-- A fault in the names of a program points to one of its tokens. -/
theorem NamingError.exists_token {ts : List Token} {p : Program} {t : SymbolTable}
    {e : NamingError} (hp : Program.ofTokens ts = .ok p) (h : (t.check p).1 = .error e) :
    ∃ t ∈ ts, e.location = t.location := by
  have hsentence := (Program.ofTokens_eq_ok_iff_sentence ts p).1 hp
  obtain ⟨before, s, after, rfl, -, hviolates⟩ := SymbolTable.exists_violates_of_check h
  have hmem := Statement.Violates.token_mem hviolates hsentence
  exact ⟨_, (List.takeWhile_sublist _).subset hmem, rfl⟩

theorem NamingError.exists_shown {source : String} {ts : List Token} {p : Program}
    {e : NamingError} (hts : tokenize source = .ok ts) (hp : Program.ofTokens ts = .ok p)
    (h : (SymbolTable.empty.check p).1 = .error e) :
    ∃ before after, source.toList = before ++ after ∧ e.location = .behind before ∧
      TokenAt ts (.identifier e.name) e.location ∧ e.Shown ts := by
  obtain ⟨w, t, rfl, hsentence⟩ := Program.exists_sentence_of_tokenize hts hp
  obtain ⟨before, s, after, rfl, hbefore, hviolates⟩ := SymbolTable.exists_violates_of_check h
  have hshown := (Statement.Violates.shown hviolates hsentence hbefore.distinct).append [t]
  have hpositioned := positioned_tokenize hts
  obtain ⟨before, after, htext, hl, -⟩ := hpositioned.position _ hshown.mem
  exact ⟨before, after, htext, hl, hpositioned.tokenAt hshown.mem, hshown⟩

theorem CompileError.exists_shown {source : String} {e : CompileError}
    (h : compile source = .error e) : ∃ before after, source.toList = before ++ after ∧
      e.location = .behind before ∧ e.Shown source before after := by
  obtain ⟨e', he, rfl⟩ | ⟨ts, hts, ⟨e', he, rfl⟩ | ⟨p, e', hp, he, rfl⟩⟩ := compile_eq_error h
  · exact LexicalError.exists_shown he
  · obtain ⟨before, after, htext, hl, hshown⟩ := GrammarError.exists_shown hts he
    exact ⟨before, after, htext, hl, ts, hts, hshown⟩
  · obtain ⟨before, after, htext, hl, hshown⟩ := NamingError.exists_shown hts hp he
    exact ⟨before, after, htext, hl, ts, hts, hshown⟩

/-- The names that a program declares are among its tokens, one behind the other. -/
theorem Program.pairwise_declaredAt {source : String} {ts : List Token} {p : Program}
    (hts : tokenize source = .ok ts) (hp : Program.ofTokens ts = .ok p) :
    (p.declarations.map Symbol.declaredAt).Pairwise (· < ·) := by
  obtain ⟨w, t, rfl, hsentence⟩ := Program.exists_sentence_of_tokenize hts hp
  have hsublist := hsentence.declarations_sublist.trans (List.sublist_append_left w [t])
  have hincreasing := (positioned_tokenize hts).increasing.sublist hsublist
  rw [List.pairwise_map] at hincreasing ⊢
  exact hincreasing

/-- The symbols of a program without a name declared twice are what its tokens declare. -/
theorem Program.exists_symbol_iff_declares {source : String} {ts : List Token} {p : Program}
    (hts : tokenize source = .ok ts) (hp : Program.ofTokens ts = .ok p)
    (hdistinct : p.declaredNames.Nodup) (x : String) (l : Location) :
    (∃ symbol ∈ p.declarations, symbol.name = x ∧ symbol.declaredAt = l) ↔ Declares ts x l := by
  obtain ⟨w, t, rfl, hsentence⟩ := Program.exists_sentence_of_tokenize hts hp
  constructor
  · rintro ⟨symbol, hsymbol, rfl, rfl⟩
    exact ((hsentence.firstDeclares hdistinct hsymbol).append [t]).declares
  · intro h
    obtain h | ⟨k, hk⟩ := h.of_append hsentence.getLast?_kind
    · exact ⟨.declared x l, hsentence.mem_declarations h, rfl, rfl⟩
    · exact absurd hk.length_le (by simp)

/-- An error of a compilation is about the text behind the place that it points to. If there is no
error, then the symbols are the names that the text declares, each with its place, and one behind
the other. -/
theorem compile_shown (source : String) :
    match compile source with
    | .error e => ∃ before after, source.toList = before ++ after ∧
        e.location = .behind before ∧ e.Shown source before after
    | .ok c => (c.symbols.toList.map Symbol.declaredAt).Pairwise (· < ·) ∧
        ∃ ts, tokenize source = .ok ts ∧ ∀ x l,
          (∃ symbol ∈ c.symbols.toList, symbol.name = x ∧ symbol.declaredAt = l) ↔
            Declares ts x l := by
  cases h : compile source with
  | error e => exact CompileError.exists_shown h
  | ok c =>
    obtain ⟨p, hsource, hcheck, rfl⟩ := (compile_eq_ok_iff source c).1 h
    obtain ⟨ts, hts, hp⟩ := (Program.ofSource_eq_ok_iff source p).1 hsource
    have hsymbols : (SymbolTable.empty.check p).2.toList = p.declarations :=
      SymbolTable.toList_check hcheck
    have hdistinct := ((SymbolTable.check_eq_ok_iff _ p).1 hcheck).distinct
    simp only [hsymbols]
    exact ⟨p.pairwise_declaredAt hts hp, ts, hts, p.exists_symbol_iff_declares hts hp hdistinct⟩

end StraightLine
