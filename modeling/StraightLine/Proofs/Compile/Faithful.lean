import StraightLine.Proofs.Compile.Clash

/-! The listing carried out as text, against the program it was made from. The two agree as long as
no temporary falls on a variable that is still wanted. Of conditions on names alone, only that no
name looks like a temporary is enough for all programs with these names. -/
namespace StraightLine

/-- The listing leaves every declared variable as the program does. Where the program fails, the
listing fails in the same way, with the variables of `held` as they are there. -/
def Compiled.Faithful (held : List String) (c : Compiled) (p : Program) : Prop :=
  ∀ (arith : Arithmetic) (σ : Store),
    match p.exec arith σ with
    | .ok σ' =>
      ∃ τ, runAll (Listing.step arith) σ c.listing = .ok τ ∧ ∀ x ∈ c.symbols.names, τ x = σ' x
    | .error (fault, σ') =>
      ∃ τ, runAll (Listing.step arith) σ c.listing = .error (.failed fault, τ) ∧
        ∀ x ∈ held, τ x = σ' x

theorem Listing.runAll_code {source : String} {p : Program} (h : Program.ofSource source = .ok p)
    (arith : Arithmetic) (σ : Store) :
    runAll (Listing.step arith) σ (p.code.map Instruction.text) =
      (runAll (OneStore.step arith) σ (Program.codeAfter 0 p)).mapError
        fun e => (.failed e.1, e.2) := by
  rw [Program.code_eq]
  apply Listing.runAll_map_text
  intro i hi x hx
  exact Program.isName_of_ofSource h (Program.mentions_of_mem_codeAfter hi hx)

namespace Compiled

theorem faithful_of_undisturbed {source : String} {p : Program} {held : List String}
    {t : SymbolTable} (h : Program.ofSource source = .ok p)
    (hclear : Undisturbed held t.names p.code) : Compiled.Faithful held ⟨p.code, t⟩ p := by
  intro arith σ
  rw [Program.code_eq] at hclear
  have hrun := OneStore.run_codeAfter arith p 0 σ σ hclear fun _ _ => rfl
  have htext := Listing.runAll_code h arith σ
  simp only [listing, htext]
  cases hexec : p.exec arith σ with
  | ok σ' =>
    rw [hexec] at hrun
    obtain ⟨τ, hτ, hout⟩ := hrun
    exact ⟨τ, by rw [hτ]; rfl, hout⟩
  | error e =>
    rw [hexec] at hrun
    cases hτ : runAll (OneStore.step arith) σ (Program.codeAfter 0 p) with
    | ok τ =>
      rw [hτ] at hrun
      cases hrun
    | error e' =>
      rw [hτ] at hrun
      exact ⟨e'.2, by rw [← hrun.1]; rfl, hrun.2⟩

theorem undisturbed_of_check {p : Program} (hcheck : (SymbolTable.empty.check p).1 = .ok ())
    (hnames : ∀ k, 0 < k → Temp.text k ∉ (SymbolTable.empty.check p).2.names) :
    Undisturbed (SymbolTable.empty.check p).2.names (SymbolTable.empty.check p).2.names p.code := by
  have hdisciplined := (SymbolTable.check_eq_ok_iff _ p).1 hcheck
  have hdeclared := SymbolTable.names_eq_of_toList (SymbolTable.toList_check hcheck)
  rw [Program.code_eq]
  refine undisturbed_of_names (fun _ hx => hx) (fun _ hx => hx) ?_ ?_
  · intro i hi x hx
    rw [hdeclared]
    exact hdisciplined.mem_of_mentions (Program.mentions_of_mem_codeAfter hi hx)
  · intro n hn
    rw [Program.temps_codeAfter, List.mem_range'_1] at hn
    exact hnames n (by omega)

end Compiled

theorem Clash.not_faithful {k : Nat} (hk : 0 < k) (held : List String) {q : Program}
    {t : SymbolTable} (hq : Program.ofSource (program k).render = .ok q)
    (hplaces : q.unplaced = (program k).unplaced) (hnames : t.names = [Temp.text k]) :
    ¬ Compiled.Faithful held ⟨q.code, t⟩ q := by
  intro h
  have hfaithful := h takeRight fun _ => 0
  have hcode : Program.codeAfter 0 q = Program.codeAfter 0 (program k) := by
    rw [← Program.codeAfter_unplaced, hplaces, Program.codeAfter_unplaced]
  obtain ⟨σ', hexec, hzero⟩ := exec_program k fun _ => 0
  obtain ⟨τ, hrun, hone⟩ := run_program hk fun _ => 0
  rw [← Program.exec_unplaced, hplaces, Program.exec_unplaced, hexec] at hfaithful
  obtain ⟨τ', hτ', hagree⟩ := hfaithful
  have htext := Listing.runAll_code hq takeRight fun _ => 0
  rw [hcode, hrun] at htext
  rw [Compiled.listing, htext] at hτ'
  cases hτ'
  have hsame := hagree (Temp.text k) (by simp [hnames])
  rw [hzero, hone] at hsame
  cases hsame

/-- A listing whose temporaries fall on no variable still wanted is faithful. All programs over the
names of a text have faithful listings if and only if none of these names looks like a temporary. -/
theorem compile_listing_faithful (source : String) (c : Compiled) (hc : compile source = .ok c) :
    ∃ p, Program.ofSource source = .ok p ∧
      (∀ held, Undisturbed held c.symbols.names c.code → c.Faithful held p) ∧
      ((∀ source' c', compile source' = .ok c' → c'.symbols.names ⊆ c.symbols.names →
          ∃ p', Program.ofSource source' = .ok p' ∧ c'.Faithful c'.symbols.names p') ↔
        ∀ k, 0 < k → Temp.text k ∉ c.symbols.names) := by
  obtain ⟨p, hp, -, hcode⟩ := (compile_eq_ok_iff source c).1 hc
  refine ⟨p, hp, ?_, ?_, ?_⟩
  · intro held hclear
    subst hcode
    exact Compiled.faithful_of_undisturbed hp hclear
  · intro h k hk hname
    obtain ⟨q, t, hq, hplaces, hc', hnames⟩ := Clash.compile_render k
    obtain ⟨p', hp', hfaithful⟩ := h _ _ hc' (by simpa [hnames] using hname)
    cases hq.symm.trans hp'
    exact Clash.not_faithful hk _ hq hplaces hnames hfaithful
  · intro h source' c' hc' hsubset
    obtain ⟨p', hp', hcheck, rfl⟩ := (compile_eq_ok_iff source' c').1 hc'
    refine ⟨p', hp', Compiled.faithful_of_undisturbed hp' ?_⟩
    apply Compiled.undisturbed_of_check hcheck
    intro k hk hmem
    exact h k hk (hsubset hmem)

/-- A name that looks like a temporary does no harm where the statement sets it anyway. -/
theorem listing_faithful_at_reused_name :
    ∃ c, compile "var t1 = 1 + 2; var x = t1 * 3;" = .ok c ∧
      Undisturbed ["t1", "x"] c.symbols.names c.code ∧
      ∃ p, Program.ofSource "var t1 = 1 + 2; var x = t1 * 3;" = .ok p ∧
        c.Faithful ["t1", "x"] p := by
  have hp : Program.ofSource "var t1 = 1 + 2; var x = t1 * 3;" =
      .ok [⟨⟨.declaration, "t1", ⟨1, 5⟩⟩,
          .binary .add (.number 1 ⟨1, 10⟩) (.number 2 ⟨1, 14⟩) ⟨1, 12⟩⟩,
        ⟨⟨.declaration, "x", ⟨1, 21⟩⟩,
          .binary .mul (.var "t1" ⟨1, 25⟩) (.number 3 ⟨1, 30⟩) ⟨1, 28⟩⟩] := by
    decide +kernel
  have hc := (compile_eq_ok_iff _ _).2 ⟨_, hp, by decide +kernel, rfl⟩
  obtain ⟨p, hp', hfaithful, -⟩ := compile_listing_faithful _ _ hc
  refine ⟨_, hc, ?_, p, hp', hfaithful _ ?_⟩
  · decide +kernel
  · decide +kernel

theorem listing_unfaithful_at_clash :
    ∃ c p, compile "var t1 = 5; var x = 1 + 2;" = .ok c ∧
      Program.ofSource "var t1 = 5; var x = 1 + 2;" = .ok p ∧ ¬ c.Faithful [] p := by
  have hp : Program.ofSource "var t1 = 5; var x = 1 + 2;" =
      .ok [⟨⟨.declaration, "t1", ⟨1, 5⟩⟩, .number 5 ⟨1, 10⟩⟩,
        ⟨⟨.declaration, "x", ⟨1, 17⟩⟩,
          .binary .add (.number 1 ⟨1, 21⟩) (.number 2 ⟨1, 25⟩) ⟨1, 23⟩⟩] := by
    decide +kernel
  have hc := (compile_eq_ok_iff _ _).2 ⟨_, hp, by decide +kernel, rfl⟩
  refine ⟨_, _, hc, hp, ?_⟩
  intro h
  obtain ⟨τ, hτ, hagree⟩ := h (fun _ x y => some (x + y)) fun _ => 0
  have htext := Listing.runAll_code hp (fun _ x y => some (x + y)) fun _ => 0
  rw [Compiled.listing, htext] at hτ
  cases hτ
  have hsame := hagree "t1" (by decide +kernel)
  revert hsame
  decide +kernel

end StraightLine
