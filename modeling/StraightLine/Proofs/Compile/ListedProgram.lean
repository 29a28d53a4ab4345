import StraightLine.Proofs.Compile.Conservation

/-! Code as a program of the language it was compiled from. A line of a listing is an assignment but
for its semicolon, and it writes a temporary as a name. With the semicolons put in, a listing is read
as one assignment for each instruction. -/
namespace StraightLine

open Token (Kind Spells)

/-- An operand as an expression. -/
def Operand.leaf : Operand → Expr
  | .literal n => .number n .start
  | .var x => .var x .start
  | .temp n => .var (Temp.text n) .start

/-- An instruction as an assignment. -/
def Instruction.statement : Instruction → Statement
  | .copy dest source => ⟨⟨.assignment, dest, .start⟩, source.leaf⟩
  | .binary temp left op right =>
    ⟨⟨.assignment, Temp.text temp, .start⟩, .binary op left.leaf right.leaf .start⟩

/-- The lines of the listing, each with a semicolon and a line feed behind it. -/
def Compiled.toSource (c : Compiled) : String := String.join (c.listing.map (· ++ ";\n"))

theorem Token.Kind.isWritable_temp (n : Nat) : (Kind.identifier (Temp.text n)).isWritable = true := by
  have hvar : Temp.text n ≠ "var" := by
    intro h
    have hhead := congrArg (fun x : String => x.toList.head?) h
    simp [Temp.text] at hhead
  simp [Kind.isWritable, isName_temp, hvar]

theorem Token.Kind.prolongedBy_semicolon (k : Kind) : k.prolongedBy ';' = false := by
  cases k <;> rfl

namespace Operand

/-- The token that an operand is written as. -/
def kind : Operand → Kind
  | .literal n => .integer n
  | .var x => .identifier x
  | .temp n => .identifier (Temp.text n)

theorem lexeme_kind (x : Operand) : x.kind.lexeme = x.text := by
  cases x <;> rfl

theorem kinds_leaf (x : Operand) : x.leaf.kinds = [x.kind] := by
  cases x <;> rfl

/-- A leaf binds tighter than an operator, so it has no parentheses as its operand. -/
theorem tightness_binary_lt (op : Operator) (a b : Expr) (l : Location) (x : Operand) :
    (Expr.binary op a b l).tightness < x.leaf.tightness := by
  have hleaf : x.leaf.tightness = 2 := by
    cases x <;> rfl
  rw [hleaf, Expr.tightness]
  split <;> decide

theorem kinds_binary (op : Operator) (x y : Operand) (l : Location) :
    (Expr.binary op x.leaf y.leaf l).kinds = [x.kind, .operator op, y.kind] := by
  have hleft := Nat.lt_asymm (tightness_binary_lt op x.leaf y.leaf l x)
  have hright := Nat.not_le_of_lt (tightness_binary_lt op x.leaf y.leaf l y)
  simp [Expr.kinds, Expr.parenthesized, hleft, hright, kinds_leaf]

theorem nesting_leaf (x : Operand) : x.leaf.nesting = 0 := by
  cases x <;> rfl

theorem nesting_binary (op : Operator) (x y : Operand) (l : Location) :
    (Expr.binary op x.leaf y.leaf l).nesting = 0 := by
  have hleft := Nat.lt_asymm (tightness_binary_lt op x.leaf y.leaf l x)
  have hright := Nat.not_le_of_lt (tightness_binary_lt op x.leaf y.leaf l y)
  simp [Expr.nesting, hleft, hright, nesting_leaf]

theorem unplaced_leaf (x : Operand) : x.leaf.unplaced = x.leaf := by
  cases x <;> rfl

theorem isWritable_kind {x : Operand} (h : ∀ k ∈ x.kinds, k.isWritable = true) :
    x.kind.isWritable = true ∧ x.kind ≠ .eof := by
  cases x with
  | literal n => exact ⟨h _ (List.mem_singleton_self _), Kind.noConfusion⟩
  | var x => exact ⟨h _ (List.mem_singleton_self _), Kind.noConfusion⟩
  | temp n => exact ⟨Kind.isWritable_temp n, Kind.noConfusion⟩

end Operand

namespace Instruction

/-- The tokens of a line. -/
def line : Instruction → List Kind
  | .copy dest source => [.identifier dest, .assign, source.kind]
  | .binary temp left op right =>
    [.identifier (Temp.text temp), .assign, left.kind, .operator op, right.kind]

theorem lexeme_line (i : Instruction) : i.line.map Kind.lexeme = i.words := by
  cases i with
  | copy dest source =>
    simp only [line, words, List.map_cons, List.map_nil, Operand.lexeme_kind]
    rfl
  | binary temp left op right =>
    simp only [line, words, List.map_cons, List.map_nil, Operand.lexeme_kind]
    rfl

theorem kinds_statement (i : Instruction) : i.statement.kinds = i.line ++ [.semicolon] := by
  cases i with
  | copy dest source => simp [statement, Statement.kinds, line, Operand.kinds_leaf]
  | binary temp left op right => simp [statement, Statement.kinds, line, Operand.kinds_binary]

theorem nesting_statement (i : Instruction) : i.statement.value.nesting = 0 := by
  cases i with
  | copy dest source => exact source.nesting_leaf
  | binary temp left op right => exact Operand.nesting_binary op left right .start

theorem unplaced_statement (i : Instruction) : i.statement.unplaced = i.statement := by
  cases i with
  | copy dest source => simp [statement, Statement.unplaced, Operand.unplaced_leaf]
  | binary temp left op right =>
    simp [statement, Statement.unplaced, Expr.unplaced, Operand.unplaced_leaf]

theorem isWritable_line {i : Instruction} (h : ∀ k ∈ i.kinds, k.isWritable = true) :
    ∀ k ∈ i.line, k.isWritable = true ∧ k ≠ .eof := by
  have hassign : Kind.assign.isWritable = true ∧ Kind.assign ≠ .eof := by decide
  cases i with
  | copy dest source =>
    simp only [kinds, List.forall_mem_cons, List.forall_mem_append] at h
    obtain ⟨hdest, -, hsource, -⟩ := h
    simp only [line, List.forall_mem_cons]
    exact ⟨⟨hdest, Kind.noConfusion⟩, hassign, Operand.isWritable_kind hsource, by simp⟩
  | binary temp left op right =>
    simp only [kinds, List.forall_mem_append, List.forall_mem_cons] at h
    obtain ⟨hleft, hop, hright⟩ := h
    simp only [line, List.forall_mem_cons]
    exact ⟨⟨Kind.isWritable_temp temp, Kind.noConfusion⟩, hassign, Operand.isWritable_kind hleft,
      ⟨hop, Kind.noConfusion⟩, Operand.isWritable_kind hright, by simp⟩

/-- A line with its semicolon in front of a text spells its statement in front of what the text
spells. -/
theorem spells_text {i : Instruction} (h : ∀ k ∈ i.kinds, k.isWritable = true) {text : List Char}
    {ks : List Kind} (htext : Spells text ks) :
    Spells ((i.text ++ ";\n").toList ++ text) (i.statement.kinds ++ ks) := by
  have hfeed : Spells ('\n' :: text) ks := htext.blank_cons (by decide)
  have hend : Spells ([] ++ Kind.semicolon.lexeme.toList ++ '\n' :: text) (.semicolon :: ks) :=
    .cons (by simp) rfl Kind.noConfusion (fun _ _ => rfl) hfeed
  have hspells := Token.spells_intercalate_append (isWritable_line h)
    (by simpa [Kind.lexeme] using fun k _ => Kind.prolongedBy_semicolon k) hend
  rw [text_eq, ← lexeme_line, kinds_statement]
  simpa [Kind.lexeme] using hspells

theorem spells_lines {code : List Instruction}
    (h : ∀ i ∈ code, ∀ k ∈ i.kinds, k.isWritable = true) :
    Spells (String.join ((code.map text).map (· ++ ";\n"))).toList
      (Program.kinds (code.map statement)) := by
  induction code with
  | nil => exact .nil (by simp)
  | cons i code ih =>
    rw [List.forall_mem_cons] at h
    have hspells := spells_text h.1 (ih h.2)
    simpa [Program.kinds] using hspells

end Instruction

/-- The tokens that code comes from can stand in a text, since they did. -/
theorem isWritable_kinds_of_compile {source : String} {c : Compiled} (h : compile source = .ok c) :
    ∀ i ∈ c.code, ∀ k ∈ i.kinds, k.isWritable = true := by
  obtain ⟨p, hp, -, rfl⟩ := (compile_eq_ok_iff source c).1 h
  obtain ⟨ts, hts, hp⟩ := (Program.ofSource_eq_ok_iff source p).1 hp
  intro i hi k hk
  have hcoded := (Program.perm_kinds_code hts hp).subset (List.mem_flatMap_of_mem hi hk)
  obtain ⟨t, ht, rfl⟩ := List.mem_map.1 (List.mem_of_mem_filter hcoded)
  exact isWritable_tokenize hts t ht

/-- A listing with a semicolon behind each line is a text of the language: it is read as the
instructions, each as one assignment of a leaf or of one operator over two leaves. -/
theorem compile_listing_is_program {source : String} {c : Compiled} (h : compile source = .ok c) :
    ∃ q, Program.ofSource c.toSource = .ok q ∧
      q.unplaced = c.code.map Instruction.statement := by
  have hspells : Spells c.toSource.toList (Program.kinds (c.code.map Instruction.statement)) :=
    Instruction.spells_lines (isWritable_kinds_of_compile h)
  obtain ⟨q, hq, hunplaced⟩ := Program.ofSource_of_spells hspells (by
    intro s hs
    obtain ⟨i, -, rfl⟩ := List.mem_map.1 hs
    rw [i.nesting_statement]
    exact Nat.zero_le _)
  refine ⟨q, hq, hunplaced.trans ?_⟩
  simp [Program.unplaced, Instruction.unplaced_statement]

/-- A variable and a temporary of one name are the same variable in the text that is read back. -/
theorem compile_listing_is_program_clash :
    ∃ c, compile "var t1 = 7; t1 = (t1 - 2) * 3;" = .ok c ∧
      c.toSource = "t1 = 7;\nt1 = t1 - 2;\nt2 = t1 * 3;\nt1 = t2;\n" ∧
      ∃ q, Program.ofSource c.toSource = .ok q ∧ q.unplaced =
        [⟨⟨.assignment, "t1", .start⟩, .number 7 .start⟩,
          ⟨⟨.assignment, "t1", .start⟩, .binary .sub (.var "t1" .start) (.number 2 .start) .start⟩,
          ⟨⟨.assignment, "t2", .start⟩, .binary .mul (.var "t1" .start) (.number 3 .start) .start⟩,
          ⟨⟨.assignment, "t1", .start⟩, .var "t2" .start⟩] := by
  obtain ⟨c, hc, hview⟩ :=
    exists_ok_of_toOption_map (x := compile "var t1 = 7; t1 = (t1 - 2) * 3;")
      (f := fun c => (c.toSource, c.code))
      (v := ("t1 = 7;\nt1 = t1 - 2;\nt2 = t1 * 3;\nt1 = t2;\n",
        [.copy "t1" (.literal 7), .binary 1 (.var "t1") .sub (.literal 2),
          .binary 2 (.temp 1) .mul (.literal 3), .copy "t1" (.temp 2)])) (by decide +kernel)
  obtain ⟨hsource, hcode⟩ := Prod.mk.inj hview
  obtain ⟨q, hq, hunplaced⟩ := compile_listing_is_program hc
  refine ⟨c, hc, hsource, q, hq, hunplaced.trans ?_⟩
  rw [hcode]
  rfl

end StraightLine
