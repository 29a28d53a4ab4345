import Mathlib.Logic.Function.Basic
import StraightLine.Proofs.Program.Rewording
import StraightLine.Proofs.Scope.Discipline

/-! The discipline of names in other words. A table is asked nothing but whether two names are the
same, so names that stay apart are declared, found and missed as before. -/
namespace StraightLine

variable (φ : Rewording) (place : Location → Location)

def Symbol.reword (s : Symbol) : Symbol := ⟨φ.name s.name, s.type, s.value, place s.declaredAt⟩

def NamingError.reword : NamingError → NamingError
  | .alreadyDeclared x l previous => .alreadyDeclared (φ.name x) (place l) (place previous)
  | .notDeclared x l => .notDeclared (φ.name x) (place l)

theorem Expr.uses_reword (e : Expr) :
    (e.reword φ place).uses = e.uses.map (Prod.map φ.name place) := by
  induction e with
  | number n l => rfl
  | var x l => rfl
  | binary op a b l iha ihb => simp [reword, iha, ihb]

namespace SymbolTable

/-- The symbols of `t'` are those of `t` in other words. -/
def Rewords (t t' : SymbolTable) : Prop := t'.toList = t.toList.map (Symbol.reword φ place)

variable {φ} {place} {t t' : SymbolTable}

theorem Rewords.names (h : Rewords φ place t t') : t'.names = t.names.map φ.name := by
  simp [SymbolTable.names, show t'.toList = _ from h, Symbol.reword]

theorem Rewords.lookup? (h : Rewords φ place t t') (hname : Function.Injective φ.name)
    (x : String) : t'.lookup? (φ.name x) = (t.lookup? x).map (Symbol.reword φ place) := by
  rw [lookup?_eq_find?, lookup?_eq_find?, show t'.toList = _ from h, List.find?_map]
  congr 2
  funext s
  simp [Symbol.reword, hname.eq_iff]

theorem Rewords.contains (h : Rewords φ place t t') (hname : Function.Injective φ.name)
    (x : String) : t'.contains (φ.name x) = t.contains x := by
  rw [contains_eq_isSome_lookup?, contains_eq_isSome_lookup?, h.lookup? hname, Option.isSome_map]

theorem Rewords.checkExpr (h : Rewords φ place t t') (hname : Function.Injective φ.name)
    (e : Expr) : t'.checkExpr (e.reword φ place) =
      (t.checkExpr e).mapError (NamingError.reword φ place) := by
  have hfind : (e.reword φ place).uses.find? (fun u => !t'.contains u.1) =
      (e.uses.find? fun u => !t.contains u.1).map (Prod.map φ.name place) := by
    rw [Expr.uses_reword, List.find?_map]
    congr 2
    funext u
    exact congrArg not (h.contains hname u.1)
  rw [checkExpr_eq, checkExpr_eq, hfind]
  cases e.uses.find? fun u => !t.contains u.1 <;> rfl

theorem Rewords.push (h : Rewords φ place t t') {x : String} (hfresh : t.lookup? x = none)
    (hfresh' : t'.lookup? (φ.name x) = none) (l : Location) :
    Rewords φ place (t.push (.declared x l) hfresh)
      (t'.push (.declared (φ.name x) (place l)) hfresh') := by
  simp [Rewords, toList_push, show t'.toList = _ from h, Symbol.reword, Symbol.declared]

/-- A statement in other words has the same fault, or none, and leaves the tables alike. -/
theorem Rewords.checkStatement (h : Rewords φ place t t') (hname : Function.Injective φ.name)
    (s : Statement) :
    (t'.checkStatement (s.reword φ place)).1 =
        (t.checkStatement s).1.mapError (NamingError.reword φ place) ∧
      Rewords φ place (t.checkStatement s).2 (t'.checkStatement (s.reword φ place)).2 := by
  have hlookup := h.lookup? hname s.name
  obtain ⟨⟨form, x, l⟩, e⟩ := s
  cases form with
  | declaration =>
    cases hx : t.lookup? x with
    | some symbol =>
      rw [hx] at hlookup
      simp only [SymbolTable.checkStatement, Statement.reword, Target.reword, declare_of_some hx,
        declare_of_some hlookup]
      exact ⟨rfl, h⟩
    | none =>
      rw [hx] at hlookup
      simp only [SymbolTable.checkStatement, Statement.reword, Target.reword, declare_of_none hx,
        declare_of_none hlookup]
      have hpush := h.push hx hlookup l
      exact ⟨hpush.checkExpr hname e, hpush⟩
  | assignment =>
    cases hx : t.lookup? x with
    | some symbol =>
      rw [hx] at hlookup
      simp only [SymbolTable.checkStatement, Statement.reword, Target.reword, require, hx, hlookup]
      exact ⟨h.checkExpr hname e, h⟩
    | none =>
      rw [hx] at hlookup
      simp only [SymbolTable.checkStatement, Statement.reword, Target.reword, require, hx, hlookup]
      exact ⟨rfl, h⟩

theorem Rewords.check (h : Rewords φ place t t') (hname : Function.Injective φ.name)
    (p : Program) :
    (t'.check (p.reword φ place)).1 =
        (t.check p).1.mapError (NamingError.reword φ place) ∧
      Rewords φ place (t.check p).2 (t'.check (p.reword φ place)).2 := by
  induction p generalizing t t' with
  | nil => exact ⟨rfl, h⟩
  | cons s p ih =>
    obtain ⟨hresult, htable⟩ := h.checkStatement hname s
    change (t'.check (s.reword φ place :: Program.reword φ place p)).1 = _ ∧
      Rewords φ place _ (t'.check (s.reword φ place :: Program.reword φ place p)).2
    cases hs : (t.checkStatement s).1 with
    | ok u =>
      rw [hs] at hresult
      rw [check_cons_of_ok hs, check_cons_of_ok hresult]
      exact ih htable
    | error e =>
      rw [hs] at hresult
      rw [check_cons_of_error hs, check_cons_of_error hresult]
      exact h.checkStatement hname s

end SymbolTable

end StraightLine
