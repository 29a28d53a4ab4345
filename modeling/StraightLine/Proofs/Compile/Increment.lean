import StraightLine.Proofs.Code.Cut
import StraightLine.Proofs.Compile.Diagnostics
import StraightLine.Proofs.Program.Continuation
import StraightLine.Proofs.Token.Seam

/-! Text added behind a program. A program ends with a semicolon, which nothing prolongs, so what it
is read as, the names it declares and its code stay as they are, and whatever the added text does
wrong is behind it. -/
namespace StraightLine

/-- The tokens of what is added to a program, with places counted on from it. -/
def addedTokens (s₁ s₂ : String) : Except LexicalError (List Token) :=
  (Cursor.tokens ⟨s₂.toList, .behind s₁.toList⟩).1

theorem addedTokens_location {s₁ s₂ : String} {v : List Token} (h : addedTokens s₁ s₂ = .ok v)
    {l : Location} (hl : ∃ t ∈ v, l = t.location) : Location.behind s₁.toList ≤ l := by
  obtain ⟨t, ht, rfl⟩ := hl
  obtain ⟨before, -, -, hl, -⟩ := (Cursor.positioned_tokens h s₁.toList rfl).position t ht
  rw [hl]
  exact Location.behind_le_behind _ _

/-- What an added text makes of a program `p`: it cannot be read, or not as statements, or it is
read as statements behind those of `p`. -/
inductive Added (s₁ s₂ : String) (p : Program) : Prop
  | lexicalError (e : LexicalError) : addedTokens s₁ s₂ = .error e →
    tokenize (s₁ ++ s₂) = .error e → Added s₁ s₂ p
  | grammarError (v ts : List Token) (e : GrammarError) : addedTokens s₁ s₂ = .ok v →
    Program.ofTokens v = .error e → tokenize (s₁ ++ s₂) = .ok ts →
      Program.ofTokens ts = .error e → Added s₁ s₂ p
  | program (v : List Token) (q : Program) : addedTokens s₁ s₂ = .ok v →
    Program.ofTokens v = .ok q → Program.ofSource (s₁ ++ s₂) = .ok (p ++ q) → Added s₁ s₂ p

theorem added {s₁ : String} {p : Program} (h : Program.ofSource s₁ = .ok p) (s₂ : String) :
    Added s₁ s₂ p := by
  obtain ⟨ts, hts, hp⟩ := (Program.ofSource_eq_ok_iff s₁ p).1 h
  obtain ⟨w, t, rfl, ht, hw⟩ := tokenize_eq_concat hts
  have hsentence := (Program.ofTokens_eq_ok_iff_sentence _ p).1 hp
  rw [takeWhile_concat_eof hw ht] at hsentence
  have hjoined : tokenize (s₁ ++ s₂) = (addedTokens s₁ s₂).map (w ++ ·) := by
    refine tokenize_append hts ?_
    -- The last token, if there is one, is a semicolon.
    intro t ht c _
    rw [hsentence.getLast?_semicolon t ht]
    rfl
  cases hv : addedTokens s₁ s₂ with
  | error e =>
    rw [hv] at hjoined
    exact .lexicalError e hv hjoined
  | ok v =>
    obtain ⟨t', ht', -⟩ := Cursor.exists_eof_of_tokens hv
    have hread := Program.ofTokens_append hsentence hw (List.ne_nil_of_mem ht')
    rw [hv] at hjoined
    cases hq : Program.ofTokens v with
    | error e =>
      rw [hq] at hread
      exact .grammarError v (w ++ v) e hv hq hjoined hread
    | ok q =>
      rw [hq] at hread
      exact .program v q hv hq ((Program.ofSource_eq_ok_iff _ _).2 ⟨w ++ v, hjoined, hread⟩)

theorem Program.exists_of_ofSource_append {s₁ s₂ : String} {p q : Program}
    (hp : Program.ofSource s₁ = .ok p) (hq : Program.ofSource (s₁ ++ s₂) = .ok q) :
    ∃ r, q = p ++ r := by
  obtain ⟨ts, hts, hofTokens⟩ := (Program.ofSource_eq_ok_iff _ q).1 hq
  cases added hp s₂ with
  | lexicalError e _ he => cases hts.symm.trans he
  | grammarError v ts' e _ _ hts' he =>
    cases hts.symm.trans hts'
    cases hofTokens.symm.trans he
  | program v r _ _ hr =>
    cases hq.symm.trans hr
    exact ⟨r, rfl⟩

theorem CompileError.behind_le_location {s₁ s₂ : String} {c : Compiled} {e : CompileError}
    (h₁ : compile s₁ = .ok c) (h : compile (s₁ ++ s₂) = .error e) :
    Location.behind s₁.toList ≤ e.location := by
  obtain ⟨p, hp, hcheck, -⟩ := (compile_eq_ok_iff s₁ c).1 h₁
  cases added hp s₂ with
  | lexicalError e' hadded he =>
    cases h.symm.trans (compile_of_lexicalError he)
    obtain ⟨before, hl⟩ := Cursor.location_of_tokens_eq_error hadded
    rw [CompileError.location, SourceError.location, hl]
    exact Location.behind_le_behind _ _
  | grammarError v ts e' hv hadded hts he =>
    cases h.symm.trans (compile_of_grammarError hts he)
    have heof := Cursor.exists_eof_of_tokens hv
    exact addedTokens_location hv (GrammarError.exists_token hadded heof)
  | program v q hv hadded hq =>
    have hjoined := SymbolTable.check_append_of_ok hcheck q
    cases he : (SymbolTable.empty.check (p ++ q)).1 with
    | ok u => cases h.symm.trans ((compile_eq_ok_iff _ _).2 ⟨p ++ q, hq, he, rfl⟩)
    | error e' =>
      cases h.symm.trans (compile_of_namingError hq he)
      rw [hjoined] at he
      exact addedTokens_location hv (NamingError.exists_token hadded he)

/-- Text added behind a program that compiles leaves its listing and its symbols as they are, and a
fault of the added text is behind it. Text added behind a program whose names are at fault leaves it
the first fault, unless the whole cannot be read. -/
theorem compile_append (s₁ s₂ : String) :
    (∀ c₁ c, compile s₁ = .ok c₁ → compile (s₁ ++ s₂) = .ok c →
      c₁.listing <+: c.listing ∧ c₁.symbols.toList <+: c.symbols.toList) ∧
    (∀ c₁ e, compile s₁ = .ok c₁ → compile (s₁ ++ s₂) = .error e →
      Location.behind s₁.toList ≤ e.location) ∧
    (∀ e q, compile s₁ = .error (.naming e) → Program.ofSource (s₁ ++ s₂) = .ok q →
      compile (s₁ ++ s₂) = .error (.naming e)) := by
  refine ⟨?_, fun _ _ => CompileError.behind_le_location, ?_⟩
  · intro c₁ c h₁ h
    obtain ⟨p, hp, hcheck₁, rfl⟩ := (compile_eq_ok_iff s₁ c₁).1 h₁
    obtain ⟨q, hq, hcheck, rfl⟩ := (compile_eq_ok_iff _ c).1 h
    obtain ⟨r, rfl⟩ := Program.exists_of_ofSource_append hp hq
    refine ⟨?_, ?_⟩
    · simp only [Compiled.listing, Program.code_append, List.map_append]
      exact List.prefix_append _ _
    · simp only [SymbolTable.toList_check hcheck₁, SymbolTable.toList_check hcheck,
        Program.declarations_append, ← List.append_assoc]
      exact List.prefix_append _ _
  · intro e q h₁ hq
    obtain ⟨e', -, he⟩ | ⟨ts, hts, ⟨e', -, he⟩ | ⟨p, e', hp, hcheck, he⟩⟩ := compile_eq_error h₁
    · cases he
    · cases he
    · cases he
      have hp := (Program.ofSource_eq_ok_iff s₁ p).2 ⟨ts, hts, hp⟩
      obtain ⟨r, rfl⟩ := Program.exists_of_ofSource_append hp hq
      refine compile_of_namingError hq ?_
      rw [SymbolTable.check_append_of_error hcheck, hcheck]

theorem compile_append_each_case :
    (∃ c₁ c, compile "var a = 1;" = .ok c₁ ∧ compile ("var a = 1;" ++ "var b = a + 2;") = .ok c ∧
      c₁.listing = ["a = 1"] ∧ c.listing = ["a = 1", "t1 = a + 2", "b = t1"] ∧
      c₁.listing <+: c.listing ∧ c₁.symbols.toList <+: c.symbols.toList) ∧
    (∃ e, compile ("var a = 1;" ++ "b = a;") = .error e ∧
      Location.behind "var a = 1;".toList ≤ e.location) ∧
    compile "x = 1;" = .error (.naming (.notDeclared "x" ⟨1, 1⟩)) ∧
      compile ("x = 1;" ++ "var x = y;") = .error (.naming (.notDeclared "x" ⟨1, 1⟩)) := by
  obtain ⟨c₁, h₁, hlisting₁⟩ :=
    exists_ok_of_toOption_map (f := Compiled.listing) (x := compile "var a = 1;") (v := ["a = 1"])
      (by decide +kernel)
  obtain ⟨c, h, hlisting⟩ :=
    exists_ok_of_toOption_map (f := Compiled.listing)
      (x := compile ("var a = 1;" ++ "var b = a + 2;")) (v := ["a = 1", "t1 = a + 2", "b = t1"])
      (by decide +kernel)
  obtain ⟨hlistings, hsymbols⟩ := (compile_append _ _).1 c₁ c h₁ h
  refine ⟨⟨c₁, c, h₁, h, hlisting₁, hlisting, hlistings, hsymbols⟩, ?_, ?_⟩
  · cases herror : compile ("var a = 1;" ++ "b = a;") with
    | ok c =>
      have hfails : (compile ("var a = 1;" ++ "b = a;")).toOption.isNone = true := by
        decide +kernel
      rw [herror] at hfails
      cases hfails
    | error e => exact ⟨e, rfl, (compile_append _ _).2.1 c₁ e h₁ herror⟩
  · have hx : Program.ofSource "x = 1;" =
        .ok [⟨⟨.assignment, "x", ⟨1, 1⟩⟩, .number 1 ⟨1, 5⟩⟩] := by
      decide +kernel
    have hfault := compile_of_namingError (e := .notDeclared "x" ⟨1, 1⟩) hx (by decide +kernel)
    have hread : Program.ofSource ("x = 1;" ++ "var x = y;") =
        .ok [⟨⟨.assignment, "x", ⟨1, 1⟩⟩, .number 1 ⟨1, 5⟩⟩,
          ⟨⟨.declaration, "x", ⟨1, 11⟩⟩, .var "y" ⟨1, 15⟩⟩] := by
      decide +kernel
    exact ⟨hfault, (compile_append _ _).2.2 _ _ hfault hread⟩

end StraightLine
