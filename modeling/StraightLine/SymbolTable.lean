import Std.Data.TreeMap
import StraightLine.Location

/-! The names a program has declared. Symbols stand in the order of their declaration, and an index
finds a name's symbol without walking over the others. -/
namespace StraightLine

inductive SymbolType where
  | int
  deriving DecidableEq

def SymbolType.text : SymbolType → String
  | .int => "int"

structure Symbol where
  name : String
  type : SymbolType
  value : Option Int64
  declaredAt : Location
  deriving DecidableEq

namespace Symbol

/-- A symbol just declared, which has no value yet. -/
def declared (name : String) (l : Location) : Symbol := ⟨name, .int, none, l⟩

def valueText : Option Int64 → String
  | none => "None"
  | some n => n.toInt.repr

def text (s : Symbol) : String :=
  "\x7btype: " ++ s.type.text ++ ", value: " ++ valueText s.value ++ "\x7d"

end Symbol

inductive NamingError where
  | alreadyDeclared (name : String) (location previous : Location)
  | notDeclared (name : String) (location : Location)
  deriving DecidableEq

namespace NamingError

def name : NamingError → String
  | .alreadyDeclared x _ _ => x
  | .notDeclared x _ => x

def location : NamingError → Location
  | .alreadyDeclared _ l _ => l
  | .notDeclared _ l => l

def message : NamingError → String
  | .alreadyDeclared x l previous =>
    "Variable " ++ x ++ " already declared at " ++ l.text ++
      " (first declared at " ++ previous.text ++ ")"
  | .notDeclared x l => "Variable " ++ x ++ " not declared at " ++ l.text

end NamingError

structure SymbolTable where
  symbols : Array Symbol
  index : Std.TreeMap String Nat
  /-- A name leads to the one slot whose symbol has it. -/
  index_eq_some_iff : ∀ (x : String) (i : Nat),
    index[x]? = some i ↔ symbols[i]?.map Symbol.name = some x

namespace SymbolTable

def empty : SymbolTable where
  symbols := #[]
  index := ∅
  index_eq_some_iff := by simp

def toList (t : SymbolTable) : List Symbol := t.symbols.toList

def size (t : SymbolTable) : Nat := t.symbols.size

def isEmpty (t : SymbolTable) : Bool := t.symbols.isEmpty

def names (t : SymbolTable) : List String := t.toList.map Symbol.name

def lookup? (t : SymbolTable) (x : String) : Option Symbol := t.index[x]?.bind (t.symbols[·]?)

def contains (t : SymbolTable) (x : String) : Bool := t.index.contains x

/-- The symbol of a name used at `l`. -/
def require (t : SymbolTable) (x : String) (l : Location) : Except NamingError Symbol :=
  match t.lookup? x with
  | some s => .ok s
  | none => .error (.notDeclared x l)

theorem lookup?_eq_none_iff (t : SymbolTable) (x : String) :
    t.lookup? x = none ↔ t.index[x]? = none := by
  cases h : t.index[x]? with
  | none => simp [lookup?, h]
  | some i =>
    have hs := (t.index_eq_some_iff x i).1 h
    cases hi : t.symbols[i]? with
    | none => simp [hi] at hs
    | some s => simp [lookup?, h, hi]

theorem contains_eq_isSome_lookup? (t : SymbolTable) (x : String) :
    t.contains x = (t.lookup? x).isSome := by
  rw [Bool.eq_iff_iff, contains, Std.TreeMap.contains_iff_mem,
    ← Std.TreeMap.isSome_getElem?_iff_mem, Option.isSome_iff_ne_none, Option.isSome_iff_ne_none, Ne, Ne, lookup?_eq_none_iff]

/-- The table with one more symbol, whose name is new. -/
def push (t : SymbolTable) (s : Symbol) (fresh : t.lookup? s.name = none) : SymbolTable :=
  -- The slot is read first, so that the array is free to grow in place.
  let slot := t.symbols.size
  ⟨t.symbols.push s, t.index.insert s.name slot, fun x i => by
    have hold := t.index_eq_some_iff x i
    have hnew := (t.lookup?_eq_none_iff s.name).1 fresh
    simp only [slot, Std.TreeMap.getElem?_insert, Array.getElem?_push, Std.compare_eq_iff_eq]
    split
    next hx =>
      subst hx
      rw [hnew] at hold
      by_cases hi : i = t.symbols.size
      · simp [hi]
      · simp_all [Ne.symm hi]
    next hx =>
      by_cases hi : i = t.symbols.size
      · simp_all
      · simpa [hi] using hold⟩

/-- Declares a name at `l`, if it is new. -/
def declare (t : SymbolTable) (x : String) (l : Location) :
    Except NamingError Symbol × SymbolTable :=
  match h : t.lookup? x with
  | some s => (.error (.alreadyDeclared x l s.declaredAt), t)
  | none => (.ok (.declared x l), t.push (.declared x l) h)

@[simp] theorem toList_empty : empty.toList = [] := rfl

@[simp] theorem toList_push (t : SymbolTable) (s : Symbol) (fresh : t.lookup? s.name = none) :
    (t.push s fresh).toList = t.toList ++ [s] := Array.toList_push

theorem declare_of_some {t : SymbolTable} {x : String} {s : Symbol} (h : t.lookup? x = some s)
    (l : Location) : t.declare x l = (.error (.alreadyDeclared x l s.declaredAt), t) := by
  rw [declare]
  split
  next s' h' => cases h.symm.trans h'; rfl
  next h' => cases h.symm.trans h'

theorem declare_of_none {t : SymbolTable} {x : String} (h : t.lookup? x = none) (l : Location) :
    t.declare x l = (.ok (.declared x l), t.push (.declared x l) h) := by
  rw [declare]
  split
  next s' h' => cases h.symm.trans h'
  next h' => rfl

end SymbolTable

end StraightLine
