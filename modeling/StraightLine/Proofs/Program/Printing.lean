import StraightLine.Program.Grammar
import StraightLine.Program.Printer
import StraightLine.Proofs.Program.Places
import StraightLine.Proofs.Token.Names

/-! Tokens that spell a program are a sentence with the program for its tree, up to places. The
printer's parentheses stand just where the grammar asks for an expression that binds tighter. -/
namespace StraightLine

open Token (Kind)

namespace Grammar

/-- An expression that binds at least as tight as `t` says: a sum, a product or a factor. -/
def Tight : Nat → Nat → List Token → Expr → Prop
  | 0 => Sum
  | 1 => Product
  | _ => Factor

theorem Tight.mono {s t d : Nat} {w : List Token} {e : Expr} (h : Tight t d w e) (hst : s ≤ t) :
    Tight s d w e := by
  match s, t with
  | 0, 0 => exact h
  | 0, 1 => exact .product h
  | 0, t + 2 => exact .product (.factor h)
  | 1, 1 => exact h
  | 1, t + 2 => exact .factor h
  | s + 2, t + 2 => exact h

end Grammar

theorem map_kind_eq_cons {w : List Token} {k : Kind} {ks : List Kind}
    (h : w.map Token.kind = k :: ks) : ∃ l v, w = ⟨k, l⟩ :: v ∧ v.map Token.kind = ks := by
  obtain ⟨t, v, hw, ht, hv⟩ := List.map_eq_cons_iff.1 h
  exact ⟨t.location, v, by rw [hw, ← ht], hv⟩

theorem map_kind_eq_concat {w : List Token} {k : Kind} {ks : List Kind}
    (h : w.map Token.kind = ks ++ [k]) : ∃ v l, w = v ++ [⟨k, l⟩] ∧ v.map Token.kind = ks := by
  obtain ⟨v, u, hw, hv, hu⟩ := List.map_eq_append_iff.1 h
  obtain ⟨l, u', hl, hu'⟩ := map_kind_eq_cons hu
  rw [List.map_eq_nil_iff.1 hu'] at hl
  exact ⟨v, l, by rw [hw, hl], hv⟩

namespace Expr

/-- The most parentheses that are open at once where the expression is printed. -/
def nesting : Expr → Nat
  | .number _ _ | .var _ _ => 0
  | .binary op a b l =>
    let t := (binary op a b l).tightness
    max (a.nesting + if a.tightness < t then 1 else 0)
      (b.nesting + if b.tightness ≤ t then 1 else 0)

/-- Tokens of these kinds stand for the expression, in a place for one as tight as `t`. -/
def ReadsAs (t d : Nat) (ks : List Kind) (e : Expr) : Prop :=
  ∀ w : List Token, w.map Token.kind = ks →
    ∃ e' : Expr, e'.unplaced = e.unplaced ∧ Grammar.Tight t d w e'

theorem ReadsAs.parenthesized {e : Expr} {d s : Nat} {needed : Bool}
    (h : ∀ d, e.nesting ≤ d → ReadsAs e.tightness d e.kinds e)
    (hd : e.nesting + (if needed then 1 else 0) ≤ d) (hs : needed = false → s ≤ e.tightness) :
    ReadsAs s d (parenthesized needed e.kinds) e := by
  intro w hw
  cases needed with
  | false =>
    obtain ⟨e', he, htight⟩ := h d (by simpa using hd) w hw
    exact ⟨e', he, htight.mono (hs rfl)⟩
  | true =>
    obtain ⟨opening, v, hv, hkinds⟩ := map_kind_eq_cons hw
    obtain ⟨u, closing, hu, hinner⟩ := map_kind_eq_concat hkinds
    obtain ⟨d', rfl⟩ : ∃ d', d = d' + 1 := ⟨d - 1, by simp at hd; omega⟩
    obtain ⟨e', he, htight⟩ := h d' (by simp at hd; omega) u hinner
    have hfactor : Grammar.Tight (s + 2) (d' + 1) w e' := by
      rw [hv, hu]
      exact .paren opening closing (htight.mono (Nat.zero_le _))
    exact ⟨e', he, hfactor.mono (by omega)⟩

theorem readsAs_binary {op : Operator} {a b : Expr} {d : Nat} {us vs : List Kind} (l : Location)
    (ha : ReadsAs (binary op a b l).tightness d us a)
    (hb : ReadsAs ((binary op a b l).tightness + 1) d vs b) :
    ReadsAs (binary op a b l).tightness d (us ++ .operator op :: vs) (binary op a b l) := by
  intro w hw
  obtain ⟨u, v, rfl, hu, hv⟩ := List.map_eq_append_iff.1 hw
  obtain ⟨sign, v', rfl, hv'⟩ := map_kind_eq_cons hv
  obtain ⟨a', hea, hta⟩ := ha u hu
  obtain ⟨b', heb, htb⟩ := hb v' hv'
  refine ⟨binary op a' b' sign, by simp [unplaced, hea, heb], ?_⟩
  cases hop : op.isProduct with
  | true =>
    simp only [tightness, hop, if_true] at hta htb ⊢
    exact .apply op sign hop hta htb
  | false =>
    simp only [tightness, hop, Bool.false_eq_true, if_false] at hta htb ⊢
    exact .apply op sign hop hta htb

theorem readsAs_kinds (e : Expr) (d : Nat) (hd : e.nesting ≤ d) :
    ReadsAs e.tightness d e.kinds e := by
  induction e generalizing d with
  | number n l =>
    intro w hw
    obtain ⟨l', v, rfl, hv⟩ := map_kind_eq_cons hw
    rw [List.map_eq_nil_iff.1 hv]
    exact ⟨.number n l', rfl, .number d n l'⟩
  | var x l =>
    intro w hw
    obtain ⟨l', v, rfl, hv⟩ := map_kind_eq_cons hw
    rw [List.map_eq_nil_iff.1 hv]
    exact ⟨.var x l', rfl, .var d x l'⟩
  | binary op a b l iha ihb =>
    simp only [nesting, Nat.max_le] at hd
    apply readsAs_binary l
    · apply ReadsAs.parenthesized iha
      · simpa using hd.1
      · intro h
        have hloose := of_decide_eq_false h
        omega
    · apply ReadsAs.parenthesized ihb
      · simpa using hd.2
      · intro h
        have hloose := of_decide_eq_false h
        omega

/-- Tokens of the kinds that an expression is printed with are a sum that stands for it. -/
theorem exists_sum {e : Expr} {d : Nat} {w : List Token} (hd : e.nesting ≤ d)
    (hw : w.map Token.kind = e.kinds) :
    ∃ e' : Expr, e'.unplaced = e.unplaced ∧ Grammar.Sum d w e' := by
  obtain ⟨e', he, htight⟩ := readsAs_kinds e d hd w hw
  exact ⟨e', he, htight.mono (Nat.zero_le _)⟩

end Expr

theorem Statement.exists_statement {s : Statement} {d : Nat} {w : List Token}
    (hd : s.value.nesting ≤ d) (hw : w.map Token.kind = s.kinds) :
    ∃ s' : Statement, s'.unplaced = s.unplaced ∧ Grammar.Statement d w s' := by
  obtain ⟨⟨form, x, l⟩, e⟩ := s
  cases form with
  | declaration =>
    obtain ⟨keyword, w₁, rfl, hw₁⟩ := map_kind_eq_cons hw
    obtain ⟨name, w₂, rfl, hw₂⟩ := map_kind_eq_cons hw₁
    obtain ⟨equals, w₃, rfl, hw₃⟩ := map_kind_eq_cons hw₂
    obtain ⟨v, stop, rfl, hv⟩ := map_kind_eq_concat hw₃
    obtain ⟨e', he, hsum⟩ := Expr.exists_sum hd hv
    exact ⟨_, by simp [unplaced, he], .declaration x keyword name equals stop hsum⟩
  | assignment =>
    obtain ⟨name, w₁, rfl, hw₁⟩ := map_kind_eq_cons hw
    obtain ⟨equals, w₂, rfl, hw₂⟩ := map_kind_eq_cons hw₁
    obtain ⟨v, stop, rfl, hv⟩ := map_kind_eq_concat hw₂
    obtain ⟨e', he, hsum⟩ := Expr.exists_sum hd hv
    exact ⟨_, by simp [unplaced, he], .assignment x name equals stop hsum⟩

/-- What is printed for one node of an expression. -/
def Expr.Node.kind : Node → Kind
  | .number n _ => .integer n
  | .var x _ => .identifier x
  | .operator op _ => .operator op

theorem Expr.mem_parenthesized {needed : Bool} {ks : List Kind} {k : Kind}
    (h : k ∈ parenthesized needed ks) : k = .lparen ∨ k = .rparen ∨ k ∈ ks := by
  cases needed with
  | false => exact .inr (.inr h)
  | true =>
    simp only [parenthesized, if_true, List.cons_append, List.mem_cons, List.mem_append,
      List.not_mem_nil, or_false] at h
    grind

/-- Besides parentheses an expression is printed with its nodes only. -/
theorem Expr.mem_kinds {e : Expr} {k : Kind} (h : k ∈ e.kinds) :
    k = .lparen ∨ k = .rparen ∨ ∃ node ∈ e.nodes, node.kind = k := by
  induction e with
  | number n l => exact .inr (.inr ⟨.number n l, by simp, (List.mem_singleton.1 h).symm⟩)
  | var x l => exact .inr (.inr ⟨.var x l, by simp, (List.mem_singleton.1 h).symm⟩)
  | binary op a b l iha ihb =>
    have hoperand : ∀ {e : Expr} {needed : Bool},
        (∀ node ∈ e.nodes, node ∈ (binary op a b l).nodes) →
        (k ∈ e.kinds → k = .lparen ∨ k = .rparen ∨ ∃ node ∈ e.nodes, node.kind = k) →
        k ∈ parenthesized needed e.kinds →
        k = .lparen ∨ k = .rparen ∨ ∃ node ∈ (binary op a b l).nodes, node.kind = k := by
      intro e needed hnodes ih hk
      have hinner := mem_parenthesized hk
      grind
    simp only [kinds, List.mem_append, List.mem_cons] at h
    obtain hleft | hsign | hright := h
    · exact hoperand (fun node hnode => by simp [hnode]) iha hleft
    · exact .inr (.inr ⟨.operator op l, by simp, hsign.symm⟩)
    · exact hoperand (fun node hnode => by simp [hnode]) ihb hright

/-- What can be printed: names and numbers as they stand in texts. -/
def Statement.IsWritable (s : Statement) : Prop :=
  (Kind.identifier s.name).isWritable = true ∧ ∀ node ∈ s.value.nodes, node.kind.isWritable = true

theorem Statement.isWritable_kinds {s : Statement} (h : s.IsWritable) {k : Kind}
    (hk : k ∈ s.kinds) : k.isWritable = true ∧ k ≠ .eof := by
  have hvalue : k ∈ s.value.kinds → k.isWritable = true ∧ k ≠ .eof := by
    intro hk
    obtain hk | hk | ⟨node, hnode, hk⟩ := Expr.mem_kinds hk
    · simp [hk, Kind.isWritable]
    · simp [hk, Kind.isWritable]
    · refine ⟨hk ▸ h.2 node hnode, ?_⟩
      cases node <;> simp [← hk, Expr.Node.kind]
  have hassignment : k ∈ .identifier s.name :: .assign :: s.value.kinds ++ [.semicolon] →
      k.isWritable = true ∧ k ≠ .eof := by
    intro hk
    simp only [List.cons_append, List.mem_cons, List.mem_append, List.not_mem_nil, or_false] at hk
    obtain hk | hk | hk | hk := hk
    · exact ⟨hk ▸ h.1, by simp [hk]⟩
    · simp [hk, Kind.isWritable]
    · exact hvalue hk
    · simp [hk, Kind.isWritable]
  unfold Statement.kinds at hk
  cases hform : s.form with
  | declaration =>
    rw [hform] at hk
    obtain hk | hk := List.mem_cons.1 hk
    · simp [hk, Kind.isWritable]
    · exact hassignment hk
  | assignment =>
    rw [hform] at hk
    exact hassignment hk

/-- Tokens of the kinds that a program is printed with are a sentence that stands for it. -/
theorem Program.exists_sentence {p : Program} {d : Nat} {w : List Token}
    (hd : ∀ s ∈ p, s.value.nesting ≤ d) (hw : w.map Token.kind = p.kinds) :
    ∃ q : Program, q.unplaced = p.unplaced ∧ Grammar.Program d w q := by
  induction p generalizing w with
  | nil =>
    rw [List.map_eq_nil_iff.1 hw]
    exact ⟨[], rfl, .nil d⟩
  | cons s p ih =>
    rw [List.forall_mem_cons] at hd
    obtain ⟨u, v, rfl, hu, hv⟩ := List.map_eq_append_iff.1 hw
    obtain ⟨s', hs, hstatement⟩ := Statement.exists_statement hd.1 hu
    obtain ⟨q, hq, hprogram⟩ := ih hd.2 hv
    refine ⟨s' :: q, ?_, .cons hstatement hprogram⟩
    change s'.unplaced :: q.unplaced = s.unplaced :: Program.unplaced p
    rw [hs, hq]

end StraightLine
