import Mathlib.Data.List.Basic
import StraightLine.Proofs.Program.Derivation
import StraightLine.Proofs.Program.Names

/-! Declarations in a program and in its tokens. The keyword stands only in front of a statement, so
a name right behind it is one that the program declares, and its place is that of the statement. -/
namespace StraightLine

open Grammar (Sum)

/-- The name stands at `l` among these tokens, right behind the keyword. -/
def Declares (w : List Token) (x : String) (l : Location) : Prop :=
  ∃ k, [⟨.var, k⟩, ⟨.identifier x, l⟩] <:+: w

/-- The name is declared at `l`, and nowhere before that. -/
def FirstDeclares (w : List Token) (x : String) (l : Location) : Prop :=
  ∃ u k v, w = u ++ ⟨.var, k⟩ :: ⟨.identifier x, l⟩ :: v ∧ ∀ l', ¬Declares u x l'

theorem FirstDeclares.append {w : List Token} {x : String} {l : Location}
    (h : FirstDeclares w x l) (v : List Token) : FirstDeclares (w ++ v) x l := by
  obtain ⟨u, k, rest, rfl, hu⟩ := h
  exact ⟨u, k, rest ++ v, by simp, hu⟩

theorem FirstDeclares.declares {w : List Token} {x : String} {l : Location}
    (h : FirstDeclares w x l) : Declares w x l := by
  obtain ⟨u, k, v, rfl, -⟩ := h
  exact ⟨k, u, v, by simp⟩

theorem Declares.of_append {u v : List Token} {x : String} {l : Location}
    (h : Declares (u ++ v) x l) (hu : ∀ t ∈ u.getLast?, t.kind ≠ .var) :
    Declares u x l ∨ Declares v x l := by
  obtain ⟨k, h⟩ := h
  obtain h | h | ⟨a, b, ha, hb, hab, hsuffix, -⟩ := List.infix_append_iff_ne_nil.1 h
  · exact .inl ⟨k, h⟩
  · exact .inr ⟨k, h⟩
  · -- The keyword would be the last token of `u`.
    obtain ⟨w, rfl⟩ := hsuffix
    cases a with
    | nil => exact absurd rfl ha
    | cons t a =>
      rw [List.cons_append, List.cons.injEq] at hab
      obtain ⟨rfl, hab⟩ := hab
      cases a with
      | nil => exact absurd rfl (hu ⟨.var, k⟩ (by simp))
      | cons t' a =>
        rw [List.cons_append, List.cons.injEq] at hab
        exact absurd (List.append_eq_nil_iff.1 hab.2.symm).2 hb

theorem Declares.exists_var_mem {w : List Token} {x : String} {l : Location}
    (h : Declares w x l) : ∃ k, ⟨.var, k⟩ ∈ w := by
  obtain ⟨k, h⟩ := h
  exact ⟨k, h.subset List.mem_cons_self⟩

theorem Grammar.Sum.kind_ne_var {d : Nat} {w : List Token} {e : Expr} (h : Sum d w e) :
    ∀ t ∈ w, t.kind ≠ .var := by
  refine h.closed (M := fun w _ => ∀ t ∈ w, t.kind ≠ .var) ?_ ?_ ?_ ?_
  · simp
  · simp
  · intro w e opening closing ih
    simpa [or_imp, forall_and] using ih
  · intro u v a b op l iha ihb
    simpa [or_imp, forall_and] using ⟨iha, ihb⟩

/-- Among the tokens of a statement only the target can declare a name, its own at its place. -/
theorem Target.Covers.eq_of_declares {target : Target} {u v : List Token} {x : String}
    {l : Location} (hu : target.Covers u) (hv : ∀ t ∈ v, t.kind ≠ .var)
    (h : Declares (u ++ v) x l) :
    target.form = .declaration ∧ target.name = x ∧ target.location = l := by
  have hlast : ∀ t ∈ u.getLast?, t.kind ≠ .var := by
    cases hu <;> simp
  obtain ⟨k, hk⟩ | h := h.of_append hlast
  · cases hu with
    | declaration y keyword name =>
      cases hk.eq_of_length rfl
      exact ⟨rfl, rfl, rfl⟩
    | assignment y name => exact absurd hk.length_le (by simp)
  · obtain ⟨k, hk⟩ := h.exists_var_mem
    exact absurd rfl (hv _ hk)

theorem Grammar.Statement.getLast?_semicolon {d : Nat} {w : List Token}
    {s : StraightLine.Statement} (h : Statement d w s) :
    ∀ t ∈ w.getLast?, t.kind = .semicolon := by
  obtain ⟨target, value, equals, stop, -, -, rfl⟩ := h.exists_target
  rw [← List.cons_append, ← List.append_assoc, List.getLast?_concat]
  simp

theorem Grammar.Statement.getLast?_kind {d : Nat} {w : List Token} {s : StraightLine.Statement}
    (h : Statement d w s) : ∀ t ∈ w.getLast?, t.kind ≠ .var := by
  intro t ht
  simp [h.getLast?_semicolon t ht]

namespace Grammar.Program

theorem getLast?_semicolon {d : Nat} {w : List Token} {p : StraightLine.Program}
    (h : Program d w p) : ∀ t ∈ w.getLast?, t.kind = .semicolon := by
  induction h with
  | nil => simp
  | @cons u v s p hs hp ih =>
    by_cases hv : v = []
    · rw [hv, List.append_nil]
      exact hs.getLast?_semicolon
    · rwa [List.getLast?_append_of_ne_nil _ hv]

theorem getLast?_kind {d : Nat} {w : List Token} {p : StraightLine.Program} (h : Program d w p) :
    ∀ t ∈ w.getLast?, t.kind ≠ .var := by
  intro t ht
  simp [h.getLast?_semicolon t ht]

/-- The tokens of a program fall apart with its statements. -/
theorem split {d : Nat} {w : List Token} {p q : StraightLine.Program} (h : Program d w (p ++ q)) :
    ∃ u v, w = u ++ v ∧ Program d u p ∧ Program d v q := by
  induction p generalizing w with
  | nil => exact ⟨[], w, rfl, .nil d, h⟩
  | cons s p ih =>
    cases h with
    | @cons u v _ _ hs hp =>
      obtain ⟨u', v', rfl, hp, hq⟩ := ih hp
      exact ⟨u ++ u', v', by simp, .cons hs hp, hq⟩

/-- What is declared among the tokens of a program is a symbol of it. -/
theorem mem_declarations {d : Nat} {w : List Token} {p : StraightLine.Program} {x : String}
    {l : Location} (h : Program d w p) (hx : Declares w x l) :
    Symbol.declared x l ∈ p.declarations := by
  induction h with
  | nil =>
    obtain ⟨k, hk⟩ := hx.exists_var_mem
    cases hk
  | @cons u v s p hs hp ih =>
    rw [StraightLine.Program.declarations_cons, List.mem_append]
    obtain ⟨target, value, equals, stop, htarget, hsum, rfl⟩ := hs.exists_target
    obtain h | h := hx.of_append hs.getLast?_kind
    · have hvalue : ∀ t ∈ Token.mk .assign equals :: (value ++ [⟨.semicolon, stop⟩]),
          t.kind ≠ .var := by
        simpa [or_imp, forall_and] using hsum.kind_ne_var
      obtain ⟨hform, rfl, rfl⟩ := htarget.eq_of_declares hvalue h
      rw [StraightLine.Program.declarations_of_declaration hform]
      exact .inl (List.mem_singleton_self _)
    · exact .inr (ih h)

theorem mem_declaredNames {d : Nat} {w : List Token} {p : StraightLine.Program} {x : String}
    {l : Location} (h : Program d w p) (hx : Declares w x l) : x ∈ p.declaredNames :=
  List.mem_map_of_mem (h.mem_declarations hx)

/-- The statement at one place in a program, and the tokens before it. -/
theorem exists_statement {d : Nat} {w : List Token} {before after : StraightLine.Program}
    {s : StraightLine.Statement} (h : Program d w (before ++ s :: after)) :
    ∃ u target value v equals stop,
      w = u ++ (target ++ ⟨.assign, equals⟩ :: (value ++ [⟨.semicolon, stop⟩])) ++ v ∧
        Program d u before ∧ s.toTarget.Covers target ∧ Sum d value s.value := by
  obtain ⟨u, v, rfl, hbefore, hrest⟩ := h.split
  cases hrest with
  | @cons _ v _ _ hs hafter =>
    obtain ⟨target, value, equals, stop, htarget, hsum, rfl⟩ := hs.exists_target
    exact ⟨u, target, value, v, equals, stop, by simp, hbefore, htarget, hsum⟩

/-- The tokens of a declaration come right behind those of the statements before it. -/
theorem exists_declaration {d : Nat} {w : List Token} {before after : StraightLine.Program}
    {s : StraightLine.Statement} (h : Program d w (before ++ s :: after))
    (hs : s.form = .declaration) :
    ∃ u k v, w = u ++ ⟨.var, k⟩ :: ⟨.identifier s.name, s.location⟩ :: v ∧ Program d u before := by
  obtain ⟨u, target, value, v, equals, stop, rfl, hbefore, htarget, -⟩ := h.exists_statement
  obtain ⟨⟨form, x, l⟩, e⟩ := s
  cases htarget with
  | declaration _ keyword =>
    refine ⟨u, keyword, ⟨.assign, equals⟩ :: (value ++ [⟨.semicolon, stop⟩]) ++ v, ?_, hbefore⟩
    simp
  | assignment => cases hs

theorem exists_assignment {d : Nat} {w : List Token} {before after : StraightLine.Program}
    {s : StraightLine.Statement} (h : Program d w (before ++ s :: after))
    (hs : s.form = .assignment) :
    ∃ u v, w = u ++ ⟨.identifier s.name, s.location⟩ :: v ∧ Program d u before := by
  obtain ⟨u, target, value, v, equals, stop, rfl, hbefore, htarget, -⟩ := h.exists_statement
  obtain ⟨⟨form, x, l⟩, e⟩ := s
  cases htarget with
  | declaration => cases hs
  | assignment =>
    refine ⟨u, ⟨.assign, equals⟩ :: (value ++ [⟨.semicolon, stop⟩]) ++ v, ?_, hbefore⟩
    simp

/-- Before a variable of a value only the statements before and the value's own can declare. -/
theorem exists_use {d : Nat} {w : List Token} {before after : StraightLine.Program}
    {s : StraightLine.Statement} (h : Program d w (before ++ s :: after)) {x : String}
    {l : Location} (hx : (x, l) ∈ s.value.uses) :
    ∃ u v, w = u ++ ⟨.identifier x, l⟩ :: v ∧ ∀ y l', Declares u y l' →
      y ∈ before.declaredNames ++ StraightLine.Program.declaredNames [s] := by
  obtain ⟨u, target, value, v, equals, stop, rfl, hbefore, htarget, hsum⟩ := h.exists_statement
  obtain ⟨value, rest, rfl⟩ := List.append_of_mem (hsum.identifier_mem hx)
  refine ⟨u ++ (target ++ ⟨.assign, equals⟩ :: value), rest ++ [⟨.semicolon, stop⟩] ++ v,
    by simp, ?_⟩
  intro y l' hy
  rw [List.mem_append]
  obtain hy | hy := hy.of_append hbefore.getLast?_kind
  · exact .inl (hbefore.mem_declaredNames hy)
  · have hvalue := hsum.kind_ne_var
    rw [List.forall_mem_append] at hvalue
    have hrest : ∀ t ∈ Token.mk .assign equals :: value, t.kind ≠ .var :=
      List.forall_mem_cons.2 ⟨by simp, hvalue.1⟩
    obtain ⟨hform, hname, -⟩ := htarget.eq_of_declares hrest hy
    exact .inr ((StraightLine.Program.mem_declaredNames_singleton s y).2 ⟨hform, hname⟩)

/-- A symbol of a program is declared at its place, and for the first time if names are distinct. -/
theorem firstDeclares {d : Nat} {w : List Token} {p : StraightLine.Program} (h : Program d w p)
    (hdistinct : p.declaredNames.Nodup) {symbol : Symbol} (hsymbol : symbol ∈ p.declarations) :
    FirstDeclares w symbol.name symbol.declaredAt := by
  obtain ⟨s, hs, rfl⟩ := List.mem_map.1 hsymbol
  obtain ⟨hmem, hform⟩ := List.mem_filter.1 hs
  obtain ⟨before, after, rfl⟩ := List.append_of_mem hmem
  obtain ⟨u, k, v, rfl, hbefore⟩ := h.exists_declaration (of_decide_eq_true hform)
  refine ⟨u, k, v, rfl, ?_⟩
  intro l hl
  have hearlier := hbefore.mem_declaredNames hl
  have hlater : s.name ∈ StraightLine.Program.declaredNames (s :: after) := by
    rw [StraightLine.Program.declaredNames_cons, List.mem_append]
    exact .inl ((StraightLine.Program.mem_declaredNames_singleton s _).2
      ⟨of_decide_eq_true hform, rfl⟩)
  rw [StraightLine.Program.declaredNames_append, List.nodup_append] at hdistinct
  exact hdistinct.2.2 _ hearlier _ hlater rfl

/-- The declared names stand among the tokens in the order of their declarations. -/
theorem declarations_sublist {d : Nat} {w : List Token} {p : StraightLine.Program}
    (h : Program d w p) :
    (p.declarations.map fun s => Token.mk (.identifier s.name) s.declaredAt).Sublist w := by
  induction h with
  | nil => exact List.Sublist.refl []
  | @cons u v s p hs hp ih =>
    rw [StraightLine.Program.declarations_cons, List.map_append]
    refine List.Sublist.append ?_ ih
    obtain ⟨target, value, equals, stop, htarget, -, rfl⟩ := hs.exists_target
    obtain ⟨⟨form, x, l⟩, e⟩ := s
    cases htarget with
    | declaration _ keyword =>
      exact List.singleton_sublist.2 (List.mem_cons_of_mem _ List.mem_cons_self)
    | assignment => exact List.nil_sublist _

end Grammar.Program

end StraightLine
