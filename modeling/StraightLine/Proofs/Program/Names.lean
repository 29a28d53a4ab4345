import StraightLine.Program.Grammar
import StraightLine.Proofs.Scope.Discipline

/-! The names of a program are names of its tokens, and so are its other nodes. -/
namespace StraightLine

/-- The token that a node comes from. -/
def Expr.Node.token : Node → Token
  | .number n l => ⟨.integer n, l⟩
  | .var x l => ⟨.identifier x, l⟩
  | .operator op l => ⟨.operator op, l⟩

/-- A token of the list is the name. -/
def Spelled (w : List Token) (x : String) : Prop := ∃ l, ⟨.identifier x, l⟩ ∈ w

theorem Spelled.mono {u w : List Token} {x : String} (h : Spelled u x) (hu : ∀ t ∈ u, t ∈ w) :
    Spelled w x := by
  obtain ⟨l, hl⟩ := h
  exact ⟨l, hu _ hl⟩

namespace Grammar

theorem Sum.token_mem {d : Nat} {w : List Token} {e : Expr} (h : Sum d w e) :
    ∀ node ∈ e.nodes, node.token ∈ w := by
  refine h.closed (M := fun w e => ∀ node ∈ e.nodes, node.token ∈ w) ?_ ?_ ?_ ?_
  · simp [Expr.Node.token]
  · simp [Expr.Node.token]
  · intro w e opening closing ih node hnode
    simp [ih node hnode]
  · intro u v a b op l iha ihb node hnode
    simp only [Expr.nodes_binary, List.mem_append, List.mem_singleton] at hnode
    obtain (ha | hb) | rfl := hnode
    · simp [iha node ha]
    · simp [ihb node hb]
    · simp [Expr.Node.token]

theorem Sum.identifier_mem {d : Nat} {w : List Token} {e : Expr} (h : Sum d w e) {x : String}
    {l : Location} (hx : (x, l) ∈ e.uses) : ⟨.identifier x, l⟩ ∈ w := by
  obtain ⟨node, hnode, hnx⟩ := List.mem_filterMap.1 hx
  cases node with
  | var => cases hnx; exact h.token_mem _ hnode
  | _ => cases hnx

theorem Sum.spelled {d : Nat} {w : List Token} {e : Expr} {x : String} (h : Sum d w e)
    (hx : e.Mentions x) : Spelled w x := by
  obtain ⟨l, hl⟩ := (e.mentions_iff_mem_uses x).1 hx
  exact ⟨l, h.identifier_mem hl⟩

theorem Statement.spelled {d : Nat} {w : List Token} {s : StraightLine.Statement}
    (h : Statement d w s) :
    Spelled w s.name ∧ ∀ x, s.value.Mentions x → Spelled w x := by
  cases h with
  | declaration x keyword name equals stop hsum =>
    refine ⟨⟨name, by simp⟩, ?_⟩
    intro y hy
    apply (hsum.spelled hy).mono
    intro t ht
    simp [ht]
  | assignment x name equals stop hsum =>
    refine ⟨⟨name, by simp⟩, ?_⟩
    intro y hy
    apply (hsum.spelled hy).mono
    intro t ht
    simp [ht]

theorem Program.spelled {d : Nat} {w : List Token} {p : StraightLine.Program}
    (h : Program d w p) :
    ∀ s ∈ p, Spelled w s.name ∧ ∀ x, s.value.Mentions x → Spelled w x := by
  induction h with
  | nil => simp
  | @cons u v s p hs hp ih =>
    have hu : ∀ t ∈ u, t ∈ u ++ v := fun t ht => List.mem_append_left v ht
    have hv : ∀ t ∈ v, t ∈ u ++ v := fun t ht => List.mem_append_right u ht
    intro s' hs'
    obtain rfl | hs' := List.mem_cons.1 hs'
    · exact ⟨hs.spelled.1.mono hu, fun x hx => (hs.spelled.2 x hx).mono hu⟩
    · exact ⟨(ih s' hs').1.mono hv, fun x hx => ((ih s' hs').2 x hx).mono hv⟩

end Grammar

end StraightLine
