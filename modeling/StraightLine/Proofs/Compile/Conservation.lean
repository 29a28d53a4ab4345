import StraightLine.Proofs.Code.Conservation
import StraightLine.Proofs.Compile.Diagnostics

/-! Nothing of a text is lost on the way to its code, and nothing is added but temporaries. A sign of
the text is one token, a token is one part of the program up to parentheses, and the parts of the
program are those of its code. -/
namespace StraightLine

open Token (Kind)
open Text (IsRun IsSegment segments)

namespace Token.Kind

/-- A digit right behind a run would belong to its tokens. -/
theorem prolongedBy_of_run {before run after : List Char} (h : IsRun before run after) :
    ∀ k ∈ ofSegment run, k.prolongedBy '0' = true := by
  obtain ⟨c, cs, rfl⟩ := List.exists_cons_of_ne_nil h.ne_nil
  rw [ofSegment, if_pos (h.isAlphanum c List.mem_cons_self)]
  intro k hk
  obtain hk | hk := List.mem_append.1 hk
  · unfold ofDigits at hk
    split at hk
    next => cases hk
    next => rw [List.mem_singleton.1 hk]; rfl
  · unfold ofWord at hk
    split at hk
    next => cases hk
    next =>
      split at hk
      all_goals rw [List.mem_singleton.1 hk]; rfl

/-- A sign is a token of its own, and no other segment has this token in it. -/
theorem count_ofSegment {before segment after : List Char} (h : IsSegment before segment after)
    {c : Char} {k : Kind} (hc : ofSign? c = some k) :
    (ofSegment segment).count k = segment.count c := by
  cases h with
  | @other d _ hd =>
    have hkinds : ofSegment [d] = (ofSign? d).toList := by simp [ofSegment, hd]
    rw [hkinds]
    by_cases hdc : d = c
    · rw [hdc, hc]
      simp
    · have hne : ofSign? d ≠ some k := by
        intro hk
        have htext := (lexeme_ofSign? hk).1.symm.trans (lexeme_ofSign? hc).1
        exact hdc (List.singleton_inj.1 htext)
      rw [List.count_eq_zero.2 (by simpa using hne), List.count_eq_zero.2 (by simpa using Ne.symm hdc)]
  | run hrun =>
    have hsigns : Text.signs.all (fun c => !c.isAlphanum) = true := rfl
    have hsign : c ∈ Text.signs := (isSome_ofSign? c).1 (by simp [hc])
    have hother : c.isAlphanum = false := by simpa using List.all_eq_true.1 hsigns c hsign
    have hkind : k ∉ ofSegment segment := by
      intro hk
      have hdigit := prolongedBy_of_run hrun k hk
      rw [(lexeme_ofSign? hc).2.2.2] at hdigit
      cases hdigit
    have hchar : c ∉ segment := by
      intro hmem
      cases (hrun.isAlphanum c hmem).symm.trans hother
    rw [List.count_eq_zero.2 hkind, List.count_eq_zero.2 hchar]

end Token.Kind

/-- A sign stands in a text as often as among its tokens. -/
theorem count_kind_of_tokenize {source : String} {ts : List Token} (h : tokenize source = .ok ts)
    {c : Char} {k : Kind} (hc : Kind.ofSign? c = some k) :
    (ts.map Token.kind).count k = source.toList.count c := by
  have hsegments : ∀ text : List Char,
      ((segments text).flatMap Kind.ofSegment).count k = text.count c := by
    intro text
    induction text using Text.segment_induction with
    | nil => rfl
    | append segment rest hsegment ih =>
      have hcut : segments (segment ++ rest) = segment :: segments rest := hsegment.segments_eq
      rw [hcut, List.flatMap_cons, List.count_append, List.count_append,
        Kind.count_ofSegment hsegment hc, ih]
  have hend : [Kind.eof].count k = 0 := by
    rw [List.count_eq_zero, List.mem_singleton]
    exact (Token.lexeme_ofSign? hc).2.2.1
  obtain ⟨-, ts', hts, hkinds⟩ | ⟨_, _, _, e, -, -, -, he⟩ :=
    Cursor.tokens_cases source.toList .start
  · cases h.symm.trans hts
    rw [hkinds, List.count_append, hsegments, hend, Nat.add_zero]
  · cases h.symm.trans he

namespace Grammar

theorem Sum.filter_kind {d : Nat} {w : List Token} {e : Expr} (h : Sum d w e) :
    (w.map Token.kind).filter Kind.isCoded = e.kinds.filter Kind.isCoded := by
  refine h.closed (M := fun w e =>
    (w.map Token.kind).filter Kind.isCoded = e.kinds.filter Kind.isCoded) ?_ ?_ ?_ ?_
  · intro n l
    rfl
  · intro x l
    rfl
  · intro w e opening closing ih
    simp [Kind.isCoded, ih]
  · intro u v a b op l iha ihb
    simp [Expr.kinds, Expr.filter_parenthesized, List.filter_cons, iha, ihb]

theorem Statement.filter_kind {d : Nat} {w : List Token} {s : StraightLine.Statement}
    (h : Statement d w s) :
    (w.map Token.kind).filter Kind.isCoded = s.kinds.filter Kind.isCoded := by
  cases h with
  | declaration x keyword name equals stop hsum =>
    simp [Statement.kinds, List.filter_cons, hsum.filter_kind]
  | assignment x name equals stop hsum =>
    simp [Statement.kinds, List.filter_cons, hsum.filter_kind]

/-- But for parentheses, a sentence is what its program is printed with. -/
theorem Program.filter_kind {d : Nat} {w : List Token} {p : StraightLine.Program}
    (h : Program d w p) :
    (w.map Token.kind).filter Kind.isCoded = p.kinds.filter Kind.isCoded := by
  induction h with
  | nil => rfl
  | @cons u v s p hs hp ih =>
    rw [List.map_append, List.filter_append, hs.filter_kind, ih, ← List.filter_append]
    rfl

theorem Statement.count_var {d : Nat} {w : List Token} {s : StraightLine.Statement}
    (h : Statement d w s) :
    (w.map Token.kind).count .var = (StraightLine.Program.declarations [s]).length := by
  have hvalue : ∀ {v : List Token} {e : Expr}, Sum d v e → (v.map Token.kind).count .var = 0 := by
    intro v e hsum
    rw [List.count_eq_zero, List.mem_map]
    rintro ⟨t, ht, hvar⟩
    exact hsum.kind_ne_var t ht hvar
  cases h with
  | declaration x keyword name equals stop hsum =>
    simp [hvalue hsum, StraightLine.Program.declarations]
  | assignment x name equals stop hsum =>
    simp [hvalue hsum, StraightLine.Program.declarations]

theorem Program.count_var {d : Nat} {w : List Token} {p : StraightLine.Program}
    (h : Program d w p) : (w.map Token.kind).count .var = p.declarations.length := by
  induction h with
  | nil => rfl
  | @cons u v s p hs hp ih =>
    rw [List.map_append, List.count_append, hs.count_var, ih,
      StraightLine.Program.declarations_cons s p, List.length_append]

end Grammar

/-- All tokens of a text but its end are a sentence. -/
theorem Program.exists_eof_of_tokenize {source : String} {ts : List Token} {p : Program}
    (hts : tokenize source = .ok ts) (hp : Program.ofTokens ts = .ok p) :
    ∃ w, ts.map Token.kind = w.map Token.kind ++ [.eof] ∧ Grammar.Program maxNesting w p := by
  obtain ⟨w, t, rfl, hsentence⟩ := Program.exists_sentence_of_tokenize hts hp
  obtain ⟨w', t', hsame, ht, -⟩ := tokenize_eq_concat hts
  obtain ⟨rfl, hlast⟩ := List.append_inj' hsame rfl
  cases hlast
  exact ⟨w, by simpa [Token.isEof] using ht, hsentence⟩

/-- The code of a text comes from all its tokens but parentheses, keywords and the end. -/
theorem Program.perm_kinds_code {source : String} {ts : List Token} {p : Program}
    (hts : tokenize source = .ok ts) (hp : Program.ofTokens ts = .ok p) :
    (p.code.flatMap Instruction.kinds).Perm ((ts.map Token.kind).filter Kind.isCoded) := by
  obtain ⟨w, hkinds, hsentence⟩ := Program.exists_eof_of_tokenize hts hp
  have hend : [Kind.eof].filter Kind.isCoded = [] := rfl
  rw [hkinds, List.filter_append, hend, List.append_nil, hsentence.filter_kind, Program.code_eq]
  exact p.perm_kinds_codeAfter 0

theorem count_kind_of_code {source : String} {ts : List Token} {p : Program}
    (hts : tokenize source = .ok ts) (hp : Program.ofTokens ts = .ok p) {c : Char} {k : Kind}
    (hc : Kind.ofSign? c = some k) (hk : k.isCoded = true) :
    (p.code.flatMap Instruction.kinds).count k = source.toList.count c := by
  rw [(Program.perm_kinds_code hts hp).count_eq, List.count_filter hk,
    count_kind_of_tokenize hts hc]

/-- Each operator sign of a text is applied by one instruction and each semicolon ends with one copy;
each keyword leads to one symbol; and the numbers and the names of the text are those of the code,
each as often. -/
theorem compile_conserves {source : String} {c : Compiled} (h : compile source = .ok c) :
    ∃ ts, tokenize source = .ok ts ∧
      (∀ op : Operator, (c.code.countP fun i => i.operator? = some op) =
        source.toList.count op.symbol) ∧
      (c.code.countP fun i => i.dest?.isSome) = source.toList.count ';' ∧
      c.symbols.size = (ts.map Token.kind).count .var ∧
      ((c.code.flatMap Instruction.operands).filterMap Operand.literal?).Perm
        ((ts.map Token.kind).filterMap Kind.value?) ∧
      ((ts.map Token.kind).filterMap Kind.name?).Perm
        (c.code.filterMap Instruction.dest? ++
          (c.code.flatMap Instruction.operands).filterMap Operand.var?) := by
  obtain ⟨p, hsource, hcheck, rfl⟩ := (compile_eq_ok_iff source c).1 h
  obtain ⟨ts, hts, hp⟩ := (Program.ofSource_eq_ok_iff source p).1 hsource
  have hperm := Program.perm_kinds_code hts hp
  refine ⟨ts, hts, ?_, ?_, ?_, ?_, ?_⟩
  · intro op
    rw [← Instruction.count_operator_kinds]
    refine count_kind_of_code hts hp ?_ rfl
    cases op <;> rfl
  · rw [← Instruction.count_semicolon_kinds]
    exact count_kind_of_code hts hp rfl rfl
  · obtain ⟨w, hkinds, hsentence⟩ := Program.exists_eof_of_tokenize hts hp
    have hsymbols : (SymbolTable.empty.check p).2.toList = p.declarations :=
      SymbolTable.toList_check hcheck
    have hend : [Kind.eof].count Kind.var = 0 := rfl
    rw [hkinds, List.count_append, hend, hsentence.count_var, ← hsymbols]
    rfl
  · have hvalue : ∀ k : Kind, k.isCoded = false → k.value? = none := by
      intro k hk
      cases k with
      | integer n => cases hk
      | _ => rfl
    rw [← Instruction.filterMap_value_kinds, ← Kind.filterMap_isCoded hvalue (ts.map Token.kind)]
    exact hperm.filterMap _
  · have hname : ∀ k : Kind, k.isCoded = false → k.name? = none := by
      intro k hk
      cases k with
      | identifier x => cases hk
      | _ => rfl
    rw [← Kind.filterMap_isCoded hname (ts.map Token.kind)]
    exact (hperm.symm.filterMap _).trans (Instruction.perm_name_kinds p.code)

/-- A number that is written twice is used twice, and parentheses leave nothing behind. -/
theorem compile_conserves_repeated_number :
    ∃ c, compile "var x = 2 * (3 + 2); x = x;" = .ok c ∧ c.symbols.size = 1 ∧
      ((c.code.flatMap Instruction.operands).filterMap Operand.literal?).Perm [2, 3, 2] ∧
      ["x", "x", "x"].Perm (c.code.filterMap Instruction.dest? ++
        (c.code.flatMap Instruction.operands).filterMap Operand.var?) := by
  obtain ⟨c, hc, -⟩ := exists_ok_of_toOption_map (x := compile "var x = 2 * (3 + 2); x = x;")
    (f := fun c => c.symbols.size) (v := 1) (by decide +kernel)
  obtain ⟨ts, hts, hview⟩ :=
    exists_ok_of_toOption_map (x := tokenize "var x = 2 * (3 + 2); x = x;")
      (f := fun ts => ((ts.map Token.kind).count .var, (ts.map Token.kind).filterMap Kind.value?,
        (ts.map Token.kind).filterMap Kind.name?))
      (v := (1, [2, 3, 2], ["x", "x", "x"])) (by decide +kernel)
  obtain ⟨ts', hts', -, -, hsymbols, hvalues, hnames⟩ := compile_conserves hc
  cases hts.symm.trans hts'
  simp only [Prod.mk.injEq] at hview
  rw [hview.1] at hsymbols
  rw [hview.2.1] at hvalues
  rw [hview.2.2] at hnames
  exact ⟨c, hc, hsymbols, hvalues, hnames⟩

end StraightLine
