import StraightLine.Proofs.Compile.Stages

/-! Programs printed and read back. The printer writes no parentheses but those without which the
text would be read as another tree, so it never opens more of them at once than the text that the
tree was read from. -/
namespace StraightLine

open Token (Kind)

theorem Expr.tightness_binary (op : Operator) (a b : Expr) (l : Location) :
    (binary op a b l).tightness = if op.isProduct then 1 else 0 := rfl

theorem Expr.nesting_binary (op : Operator) (a b : Expr) (l : Location) :
    (binary op a b l).nesting =
      max (a.nesting + if a.tightness < (binary op a b l).tightness then 1 else 0)
        (b.nesting + if b.tightness ≤ (binary op a b l).tightness then 1 else 0) := rfl

namespace Grammar

mutual

theorem Factor.nesting_le {d : Nat} {w : List Token} {e : Expr} :
    Factor d w e → e.nesting + (if e.tightness < 2 then 1 else 0) ≤ d
  | .number d n l => by simp [Expr.nesting, Expr.tightness]
  | .var d x l => by simp [Expr.nesting, Expr.tightness]
  | .paren opening closing h => by
    have hinner := h.nesting_le
    split <;> omega

theorem Product.nesting_le {d : Nat} {w : List Token} {e : Expr} :
    Product d w e → e.nesting + (if e.tightness < 1 then 1 else 0) ≤ d
  | .factor h => by
    have hinner := h.nesting_le
    grind
  | .apply op l hop ha hb => by
    have hleft := ha.nesting_le
    have hright := hb.nesting_le
    rw [Expr.nesting_binary, Expr.tightness_binary, if_pos hop]
    grind

theorem Sum.nesting_le {d : Nat} {w : List Token} {e : Expr} : Sum d w e → e.nesting ≤ d
  | .product h => by
    have hinner := h.nesting_le
    omega
  | .apply op l hop ha hb => by
    have hleft := ha.nesting_le
    have hright := hb.nesting_le
    rw [Expr.nesting_binary, Expr.tightness_binary, hop, if_neg Bool.false_ne_true]
    grind

end

theorem Program.nesting_le {d : Nat} {w : List Token} {p : StraightLine.Program}
    (h : Program d w p) : ∀ s ∈ p, s.value.nesting ≤ d := by
  induction h with
  | nil => simp
  | cons hs _ ih =>
    obtain ⟨u, v, equals, stop, -, hsum, -⟩ := hs.exists_target
    exact List.forall_mem_cons.2 ⟨hsum.nesting_le, ih⟩

/-- Tokens that can stand in a text make programs that can be printed. -/
theorem Program.isWritable {d : Nat} {w : List Token} {p : StraightLine.Program}
    (h : Program d w p) (hw : ∀ t ∈ w, t.kind.isWritable = true) : ∀ s ∈ p, s.IsWritable := by
  induction h with
  | nil => simp
  | cons hs _ ih =>
    rw [List.forall_mem_append] at hw
    obtain ⟨u, v, equals, stop, htarget, hsum, rfl⟩ := hs.exists_target
    refine List.forall_mem_cons.2 ⟨⟨hw.1 _ (List.mem_append_left _ htarget.name_mem), ?_⟩, ih hw.2⟩
    intro node hnode
    have hkind := hw.1 node.token (by simp [hsum.token_mem node hnode])
    cases node <;> exact hkind

end Grammar

/-- As many parentheses are closed as are opened. -/
def Balanced (ks : List Kind) : Prop := ks.count .lparen = ks.count .rparen

/-- Somewhere in these kinds of tokens `n` parentheses are open at once. -/
def Reaches (ks : List Kind) (n : Nat) : Prop :=
  ∃ u, u <+: ks ∧ u.count .lparen = u.count .rparen + n

theorem Balanced.append {ks ks' : List Kind} (h : Balanced ks) (h' : Balanced ks') :
    Balanced (ks ++ ks') := by
  simp only [Balanced, List.count_append] at *
  omega

theorem Balanced.parenthesized {ks : List Kind} (h : Balanced ks) (needed : Bool) :
    Balanced (Expr.parenthesized needed ks) := by
  cases needed with
  | false => exact h
  | true =>
    unfold Balanced at *
    simp [Expr.parenthesized, h]

theorem Reaches.append_right {ks : List Kind} {n : Nat} (h : Reaches ks n) (ks' : List Kind) :
    Reaches (ks ++ ks') n := by
  obtain ⟨u, hu, hn⟩ := h
  exact ⟨u, hu.trans (List.prefix_append _ _), hn⟩

theorem Reaches.append_left {ks ks' : List Kind} {n : Nat} (h : Reaches ks' n)
    (hks : Balanced ks) : Reaches (ks ++ ks') n := by
  obtain ⟨u, hu, hn⟩ := h
  refine ⟨ks ++ u, (List.prefix_append_right_inj ks).2 hu, ?_⟩
  simp only [Balanced, List.count_append] at *
  omega

theorem Reaches.parenthesized {ks : List Kind} {n : Nat} (h : Reaches ks n) (needed : Bool) :
    Reaches (Expr.parenthesized needed ks) (n + if needed then 1 else 0) := by
  cases needed with
  | false => exact h
  | true =>
    obtain ⟨u, hu, hn⟩ := h
    refine ⟨.lparen :: u, ?_, ?_⟩
    · exact List.cons_prefix_cons.2 ⟨rfl, hu.trans (List.prefix_append _ _)⟩
    · simp [hn]
      omega

namespace Expr

theorem balanced_kinds (e : Expr) : Balanced e.kinds := by
  induction e with
  | number n l => rfl
  | var x l => rfl
  | binary op a b l iha ihb =>
    have hright := ihb.parenthesized (decide (b.tightness ≤ (binary op a b l).tightness))
    have hsign : Balanced [.operator op] := rfl
    exact (iha.parenthesized _).append (hsign.append hright)

/-- The nesting of an expression is reached where it is printed. -/
theorem reaches_nesting (e : Expr) : Reaches e.kinds e.nesting := by
  induction e with
  | number n l => exact ⟨[], List.nil_prefix, rfl⟩
  | var x l => exact ⟨[], List.nil_prefix, rfl⟩
  | binary op a b l iha ihb =>
    have hleft := iha.parenthesized (decide (a.tightness < (binary op a b l).tightness))
    have hright := ihb.parenthesized (decide (b.tightness ≤ (binary op a b l).tightness))
    have hsign : Balanced [.operator op] := rfl
    have hbalanced := a.balanced_kinds.parenthesized
      (decide (a.tightness < (binary op a b l).tightness))
    simp only [decide_eq_true_eq] at hleft hright
    rw [nesting_binary]
    obtain hmax | hmax := Nat.le_total
      (a.nesting + if a.tightness < (binary op a b l).tightness then 1 else 0)
      (b.nesting + if b.tightness ≤ (binary op a b l).tightness then 1 else 0)
    · rw [Nat.max_eq_right hmax]
      exact (hright.append_left hsign).append_left hbalanced
    · rw [Nat.max_eq_left hmax]
      exact hleft.append_right _

end Expr

namespace Statement

theorem exists_kinds (s : Statement) :
    ∃ target, Balanced target ∧ s.kinds = target ++ (s.value.kinds ++ [.semicolon]) := by
  unfold kinds
  cases s.form with
  | declaration => exact ⟨[.var, .identifier s.name, .assign], rfl, by simp⟩
  | assignment => exact ⟨[.identifier s.name, .assign], rfl, by simp⟩

theorem balanced_kinds (s : Statement) : Balanced s.kinds := by
  obtain ⟨target, htarget, hkinds⟩ := s.exists_kinds
  rw [hkinds]
  exact htarget.append (s.value.balanced_kinds.append rfl)

theorem reaches_nesting (s : Statement) : Reaches s.kinds s.value.nesting := by
  obtain ⟨target, htarget, hkinds⟩ := s.exists_kinds
  rw [hkinds]
  exact (s.value.reaches_nesting.append_right _).append_left htarget

end Statement

theorem Program.balanced_kinds (p : Program) : Balanced p.kinds := by
  induction p with
  | nil => rfl
  | cons s p ih => exact s.balanced_kinds.append ih

theorem Program.reaches_nesting {p : Program} {s : Statement} (hs : s ∈ p) :
    Reaches p.kinds s.value.nesting := by
  obtain ⟨u, v, rfl⟩ := List.append_of_mem hs
  have hkinds : Program.kinds (u ++ s :: v) =
      Program.kinds u ++ (s.kinds ++ Program.kinds v) := by
    simp [Program.kinds]
  rw [hkinds]
  exact (s.reaches_nesting.append_right _).append_left (Program.balanced_kinds u)

namespace Text

/-- Nowhere in a text are more than `d` parentheses open at once. -/
def OpensAtMost (d : Nat) (text : List Char) : Prop :=
  ∀ u, u <+: text → u.count '(' ≤ u.count ')' + d

/-- The texts of tokens with one space between any two. -/
def spaced (ks : List Kind) : List Char := (" ".intercalate (ks.map Kind.lexeme)).toList

theorem spaced_cons_cons (k k' : Kind) (ks : List Kind) :
    spaced (k :: k' :: ks) = k.lexeme.toList ++ ' ' :: spaced (k' :: ks) := by
  simp [spaced, String.intercalate_cons_cons]

theorem spaced_singleton (k : Kind) : spaced [k] = k.lexeme.toList := by
  simp [spaced]

theorem spaced_prefix {u ks : List Kind} (h : u <+: ks) : spaced u <+: spaced ks := by
  induction u generalizing ks with
  | nil => exact List.nil_prefix
  | cons k u ih =>
    obtain ⟨v, rfl⟩ := h
    cases u with
    | nil =>
      cases v with
      | nil => exact List.prefix_rfl
      | cons k' v =>
        rw [List.singleton_append, spaced_cons_cons, spaced_singleton]
        exact List.prefix_append _ _
    | cons k' u =>
      have hrest := ih (List.prefix_append (k' :: u) v)
      simp only [List.cons_append, spaced_cons_cons]
      exact (List.prefix_append_right_inj _).2 (List.cons_prefix_cons.2 ⟨rfl, hrest⟩)

theorem count_spaced {c : Char} (hc : c ≠ ' ') {k₀ : Kind} {ks : List Kind}
    (h : ∀ k ∈ ks, k.lexeme.toList.count c = if k = k₀ then 1 else 0) :
    (spaced ks).count c = ks.count k₀ := by
  induction ks with
  | nil => rfl
  | cons k ks ih =>
    rw [List.forall_mem_cons] at h
    cases ks with
    | nil =>
      rw [spaced_singleton, h.1]
      simp [List.count_cons, beq_iff_eq]
    | cons k' ks =>
      rw [spaced_cons_cons, List.count_append, List.count_cons_of_ne hc.symm, h.1, ih h.2,
        List.count_cons (b := k)]
      simp [Nat.add_comm]

end Text

theorem Token.Kind.isAlphanum_lexeme_integer {n : Int64} (h : 0 ≤ n.toInt) :
    ∀ c ∈ (Kind.integer n).lexeme.toList, c.isAlphanum = true := by
  intro c hc
  rw [Kind.lexeme, Int.repr_eq_if, if_pos h, Nat.toList_repr] at hc
  have hdigit := Nat.isDigit_of_mem_toDigits (b := 10) (by decide) (by decide) hc
  simp [Char.isAlphanum, hdigit]

/-- The text of a parenthesis is the only one with a parenthesis in it. -/
theorem Token.Kind.count_lexeme {k : Kind} (h : k.isWritable = true) :
    k.lexeme.toList.count '(' = (if k = .lparen then 1 else 0) ∧
      k.lexeme.toList.count ')' = (if k = .rparen then 1 else 0) := by
  have hword : ∀ {text : List Char}, (∀ c ∈ text, c.isAlphanum = true) →
      text.count '(' = 0 ∧ text.count ')' = 0 := by
    intro text htext
    constructor
    · exact List.count_eq_zero.2 fun hc => absurd (htext _ hc) (by decide)
    · exact List.count_eq_zero.2 fun hc => absurd (htext _ hc) (by decide)
  cases k with
  | integer n => exact hword (isAlphanum_lexeme_integer (by simpa [isWritable] using h))
  | identifier x =>
    simp only [isWritable, Bool.and_eq_true] at h
    exact hword (isAlphanum_of_isName h.1)
  | operator op => cases op <;> exact ⟨rfl, rfl⟩
  | _ => exact ⟨rfl, rfl⟩

/-- What is open at once in the printed text bounds the nesting of the program. -/
theorem Program.nesting_le_of_render {p : Program} {d : Nat} (hwritable : ∀ s ∈ p, s.IsWritable)
    (h : Text.OpensAtMost d p.render.toList) : ∀ s ∈ p, s.value.nesting ≤ d := by
  intro s hs
  obtain ⟨u, hu, hn⟩ := Program.reaches_nesting hs
  have hkinds : ∀ k ∈ u, k.isWritable = true := by
    intro k hk
    obtain ⟨s', hs', hks⟩ := List.mem_flatMap.1 (hu.subset hk)
    exact (Statement.isWritable_kinds (hwritable s' hs') hks).1
  have hopen := Text.count_spaced (c := '(') (by decide)
    fun k hk => (Token.Kind.count_lexeme (hkinds k hk)).1
  have hclosed := Text.count_spaced (c := ')') (by decide)
    fun k hk => (Token.Kind.count_lexeme (hkinds k hk)).2
  have hd := h _ (Text.spaced_prefix hu)
  omega

theorem Statement.isWritable_of_names {p : Program}
    (hnames : ∀ x, p.Mentions x → isName x = true ∧ x ≠ "var")
    (hnumbers : ∀ s ∈ p, ∀ n l, .number n l ∈ s.value.nodes → 0 ≤ n.toInt) :
    ∀ s ∈ p, s.IsWritable := by
  have hname : ∀ x, p.Mentions x → (Kind.identifier x).isWritable = true := by
    intro x hx
    simp [Kind.isWritable, hnames x hx]
  intro s hs
  refine ⟨hname s.name ⟨s, hs, .inl rfl⟩, ?_⟩
  intro node hnode
  cases node with
  | number n l => simpa [Expr.Node.kind, Kind.isWritable] using hnumbers s hs n l hnode
  | var x l =>
    have huse : (x, l) ∈ s.value.uses := List.mem_filterMap.2 ⟨_, hnode, rfl⟩
    exact hname x ⟨s, hs, .inr ((s.value.mentions_iff_mem_uses x).2 ⟨l, huse⟩)⟩
  | operator op l => rfl

/-- A program that can be printed is read back from its text up to places: one that is put together
by hand, if its names and numbers can stand in a text and its text opens no more parentheses than a
reader allows, and without condition one that was read from a text. -/
theorem Program.ofSource_render_unplaced :
    (∀ p : Program, (∀ x, p.Mentions x → isName x = true ∧ x ≠ "var") →
      (∀ s ∈ p, ∀ n l, .number n l ∈ s.value.nodes → 0 ≤ n.toInt) →
      Text.OpensAtMost maxNesting p.render.toList →
        ∃ q, Program.ofSource p.render = .ok q ∧ q.unplaced = p.unplaced) ∧
    ∀ (source : String) (p : Program), Program.ofSource source = .ok p →
      ∃ q, Program.ofSource p.render = .ok q ∧ q.unplaced = p.unplaced := by
  constructor
  · intro p hnames hnumbers hopen
    have hwritable := Statement.isWritable_of_names hnames hnumbers
    exact Program.ofSource_render hwritable (Program.nesting_le_of_render hwritable hopen)
  · intro source p h
    obtain ⟨ts, hts, hp⟩ := (Program.ofSource_eq_ok_iff source p).1 h
    have hsentence := (Program.ofTokens_eq_ok_iff_sentence ts p).1 hp
    refine Program.ofSource_render (hsentence.isWritable ?_) hsentence.nesting_le
    intro t ht
    exact isWritable_tokenize hts t ((List.takeWhile_sublist _).subset ht)

/-- A program whose right operand needs its parentheses. -/
def Program.difference : Program :=
  [⟨⟨.assignment, "x", .start⟩, .binary .sub (.number 8 .start)
    (.binary .sub (.var "x" .start) (.number 2 .start) .start) .start⟩]

theorem Program.ofSource_render_difference :
    Program.difference.render = "x = 8 - ( x - 2 ) ;" ∧
    ∃ q, Program.ofSource "x = 8 - ( x - 2 ) ;" = .ok q ∧
      q.unplaced = Program.difference.unplaced ∧
      ∃ q', Program.ofSource q.render = .ok q' ∧ q'.unplaced = q.unplaced := by
  have hrender : Program.difference.render = "x = 8 - ( x - 2 ) ;" := by decide
  have hnames : ∀ x, Program.difference.Mentions x → isName x = true ∧ x ≠ "var" := by
    rintro x ⟨s, hs, hx⟩
    obtain rfl := List.mem_singleton.1 hs
    obtain rfl : x = "x" := by simpa [Expr.mentions_iff_mem_uses, eq_comm] using hx
    decide
  have hnumbers : ∀ s ∈ Program.difference, ∀ n l, .number n l ∈ s.value.nodes →
      0 ≤ n.toInt := by
    intro s hs n l hn
    obtain rfl := List.mem_singleton.1 hs
    obtain ⟨rfl, -⟩ | ⟨rfl, -⟩ : n = 8 ∧ l = .start ∨ n = 2 ∧ l = .start := by simpa using hn
    all_goals decide
  have hopen : Text.OpensAtMost maxNesting Program.difference.render.toList := by
    intro u hu
    have hone : Program.difference.render.toList.count '(' ≤ maxNesting := by decide
    exact Nat.le_add_left_of_le (Nat.le_trans (hu.sublist.count_le '(') hone)
  obtain ⟨q, hq, hunplaced⟩ :=
    Program.ofSource_render_unplaced.1 Program.difference hnames hnumbers hopen
  rw [hrender] at hq
  exact ⟨hrender, q, hq, hunplaced, Program.ofSource_render_unplaced.2 _ q hq⟩

end StraightLine
