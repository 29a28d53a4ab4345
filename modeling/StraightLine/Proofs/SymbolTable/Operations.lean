import Mathlib.Data.List.Nodup
import StraightLine.Proofs.SymbolTable.View

/-! A table under any sequence of operations, beside a plain list of symbols that is searched from
the front and only ever added to at its end. The two give the same replies, and the index of the
table leads each of its names to its own slot all the while. -/
namespace StraightLine

namespace SymbolTable

inductive Operation where
  | declare (name : String) (location : Location)
  | require (name : String) (location : Location)
  | lookup (name : String)
  | contains (name : String)
  | size
  | isEmpty
  | names
  | toList

inductive Reply where
  | symbol (result : Except NamingError Symbol)
  | found (symbol : Option Symbol)
  | truth (value : Bool)
  | count (value : Nat)
  | names (list : List String)
  | symbols (list : List Symbol)

def reply (t : SymbolTable) : Operation → Reply × SymbolTable
  | .declare x l => (.symbol (t.declare x l).1, (t.declare x l).2)
  | .require x l => (.symbol (t.require x l), t)
  | .lookup x => (.found (t.lookup? x), t)
  | .contains x => (.truth (t.contains x), t)
  | .size => (.count t.size, t)
  | .isEmpty => (.truth t.isEmpty, t)
  | .names => (.names t.names, t)
  | .toList => (.symbols t.toList, t)

def replies (t : SymbolTable) : List Operation → List Reply
  | [] => []
  | op :: ops => (t.reply op).1 :: (t.reply op).2.replies ops

def after (t : SymbolTable) (ops : List Operation) : SymbolTable :=
  ops.foldl (fun t op => (t.reply op).2) t

end SymbolTable

/-- The symbols in the order of their declaration, without an index. -/
structure SymbolList where
  symbols : List Symbol

namespace SymbolList

open SymbolTable (Operation Reply)

def find? (s : SymbolList) (x : String) : Option Symbol :=
  s.symbols.find? fun symbol => symbol.name = x

def reply (s : SymbolList) : Operation → Reply × SymbolList
  | .declare x l =>
    match s.find? x with
    | some symbol => (.symbol (.error (.alreadyDeclared x l symbol.declaredAt)), s)
    | none => (.symbol (.ok (.declared x l)), ⟨s.symbols ++ [.declared x l]⟩)
  | .require x l =>
    match s.find? x with
    | some symbol => (.symbol (.ok symbol), s)
    | none => (.symbol (.error (.notDeclared x l)), s)
  | .lookup x => (.found (s.find? x), s)
  | .contains x => (.truth (s.symbols.any fun symbol => symbol.name = x), s)
  | .size => (.count s.symbols.length, s)
  | .isEmpty => (.truth s.symbols.isEmpty, s)
  | .names => (.names (s.symbols.map Symbol.name), s)
  | .toList => (.symbols s.symbols, s)

def replies (s : SymbolList) : List Operation → List Reply
  | [] => []
  | op :: ops => (s.reply op).1 :: (s.reply op).2.replies ops

def after (s : SymbolList) (ops : List Operation) : SymbolList :=
  ops.foldl (fun s op => (s.reply op).2) s

end SymbolList

namespace SymbolTable

/-- The table without its index. -/
def list (t : SymbolTable) : SymbolList := ⟨t.toList⟩

theorem contains_eq_any (t : SymbolTable) (x : String) :
    t.contains x = t.toList.any fun s => s.name = x := by
  rw [Bool.eq_iff_iff, contains_eq_isSome_lookup?, lookup?_eq_find?, List.find?_isSome,
    List.any_eq_true]

/-- One operation does to the list what it does to the table. -/
theorem reply_list (t : SymbolTable) (op : Operation) :
    t.list.reply op = ((t.reply op).1, (t.reply op).2.list) := by
  have hfind (x : String) : t.list.find? x = t.lookup? x := (t.lookup?_eq_find? x).symm
  cases op with
  | declare x l =>
    obtain ⟨s, hx, hdeclare⟩ | ⟨t', hx, hlist, hdeclare⟩ := t.declare_cases x l
    · simp only [SymbolList.reply, reply, hfind, hx, hdeclare]
    · simp only [SymbolList.reply, reply, hfind, hx, hdeclare]
      simp only [list, hlist]
  | require x l =>
    simp only [SymbolList.reply, reply, hfind, require]
    cases t.lookup? x <;> rfl
  | lookup x => simp only [SymbolList.reply, reply, hfind]
  | contains x => simp only [SymbolList.reply, reply, contains_eq_any, list]
  | size => rfl
  | isEmpty => simp only [SymbolList.reply, reply, isEmpty, list, toList, Array.isEmpty_toList]
  | names => rfl
  | toList => rfl

theorem replies_list (t : SymbolTable) (ops : List Operation) :
    t.list.replies ops = t.replies ops := by
  induction ops generalizing t with
  | nil => rfl
  | cons op ops ih => rw [SymbolList.replies, replies, reply_list, ih]

theorem after_list (t : SymbolTable) (ops : List Operation) :
    t.list.after ops = (t.after ops).list := by
  unfold SymbolList.after after
  induction ops generalizing t with
  | nil => rfl
  | cons op ops ih => rw [List.foldl_cons, List.foldl_cons, reply_list, ih]

theorem after_append (t : SymbolTable) (u v : List Operation) :
    t.after (u ++ v) = (t.after u).after v := List.foldl_append

/-- Symbols are added at the end, if at all. -/
theorem toList_reply (t : SymbolTable) (op : Operation) :
    t.toList <+: (t.reply op).2.toList := by
  cases op with
  | declare x l =>
    obtain ⟨s, hx, hdeclare⟩ | ⟨t', hx, hlist, hdeclare⟩ := t.declare_cases x l
    · exact ⟨[], by rw [reply, hdeclare, List.append_nil]⟩
    · exact ⟨_, by rw [reply, hdeclare, hlist]⟩
  | _ => exact List.prefix_rfl

theorem toList_after (t : SymbolTable) (ops : List Operation) :
    t.toList <+: (t.after ops).toList := by
  unfold after
  induction ops generalizing t with
  | nil => exact List.prefix_rfl
  | cons op ops ih => exact (t.toList_reply op).trans (ih (t.reply op).2)

theorem nodup_names (t : SymbolTable) : t.names.Nodup := by
  rw [List.nodup_iff_getElem?_ne_getElem?]
  intro i j hij hj hsame
  -- The name at both slots would be led to two slots by the index.
  have hslot (k : Nat) : t.names[k]? = t.symbols[k]?.map Symbol.name := by simp [names, toList]
  have hname := List.getElem?_eq_getElem hj
  have hi := (t.index_eq_some_iff t.names[j] i).2 (by rw [← hslot, hsame, hname])
  have hj := (t.index_eq_some_iff t.names[j] j).2 (by rw [← hslot, hname])
  rw [hi] at hj
  exact Nat.ne_of_lt hij (Option.some.inj hj)

/-- The index is the list of the names, each with its slot. -/
theorem perm_index (t : SymbolTable) : t.index.toList.Perm t.names.zipIdx := by
  have hindex : t.index.toList.Nodup := by
    refine Std.TreeMap.distinct_keys_toList.imp ?_
    rintro a b hne rfl
    exact hne Std.ReflCmp.compare_self
  have hnames : t.names.zipIdx.Nodup :=
    .of_map Prod.fst (by rw [List.zipIdx_map_fst]; exact t.nodup_names)
  rw [List.perm_ext_iff_of_nodup hindex hnames]
  rintro ⟨x, i⟩
  rw [Std.TreeMap.mem_toList_iff_getElem?_eq_some, index_eq_some_iff,
    List.mem_zipIdx_iff_getElem?]
  simp [names, toList]

/-- Where an operation declares the name. -/
def Operation.declaredAt? (x : String) : Operation → Option Location
  | .declare y l => if y = x then some l else none
  | _ => none

theorem lookup?_reply (t : SymbolTable) (op : Operation) (x : String) :
    (t.reply op).2.lookup? x =
      (t.lookup? x).or ((op.declaredAt? x).map (Symbol.declared x)) := by
  cases op with
  | declare y l =>
    obtain ⟨s, hy, hdeclare⟩ | ⟨t', hy, hlist, hdeclare⟩ := t.declare_cases y l
    · rw [reply, hdeclare, Operation.declaredAt?]
      by_cases hxy : y = x
      · subst hxy
        rw [hy, Option.some_or]
      · rw [if_neg hxy, Option.map_none, Option.or_none]
    · rw [reply, hdeclare, Operation.declaredAt?]
      rw [lookup?_eq_find?, hlist, List.find?_append, ← lookup?_eq_find?]
      by_cases hxy : y = x
      · subst hxy
        simp [Symbol.declared]
      · simp [Symbol.declared, hxy]
  | _ => simp [reply, Operation.declaredAt?]

/-- The symbol of a name is that of its first declaration. -/
theorem lookup?_after (t : SymbolTable) (ops : List Operation) (x : String) :
    (t.after ops).lookup? x =
      (t.lookup? x).or ((ops.findSome? (Operation.declaredAt? x)).map (Symbol.declared x)) := by
  unfold after
  induction ops generalizing t with
  | nil => simp
  | cons op ops ih =>
    rw [List.foldl_cons, ih, lookup?_reply, Option.or_assoc, List.findSome?_cons]
    cases op.declaredAt? x <;> simp

/-- What is to hold of a table after the operations `u`. -/
structure Follows (t : SymbolTable) (u : List Operation) : Prop where
  list : t.list = SymbolList.after ⟨[]⟩ u
  distinct : t.names.Nodup
  /-- The index holds the names and no others, each with its own slot. -/
  entries : t.index.toList.Perm t.names.zipIdx
  slots : ∀ (x : String) (i : Nat), t.index[x]? = some i →
    ∃ s : Symbol, t.symbols[i]? = some s ∧ s.name = x
  /-- A name is refused if it has been declared, and its first declaration is told. -/
  refused : ∀ (x : String) (l : Location) (e : NamingError), (t.declare x l).1 = .error e ↔
    ∃ l₀, u.findSome? (Operation.declaredAt? x) = some l₀ ∧ e = .alreadyDeclared x l l₀
  unchanged : ∀ (x : String) (l : Location) (e : NamingError), (t.declare x l).1 = .error e →
    (t.declare x l).2 = t

theorem follows_after (u : List Operation) : (empty.after u).Follows u := by
  have hlookup (x : String) : (empty.after u).lookup? x =
      (u.findSome? (Operation.declaredAt? x)).map (Symbol.declared x) := lookup?_after empty u x
  refine ⟨(after_list empty u).symm, nodup_names _, perm_index _, ?slots, ?refused, ?unchanged⟩
  case slots =>
    intro x i hi
    exact Option.map_eq_some_iff.1 ((index_eq_some_iff _ x i).1 hi)
  case refused =>
    intro x l e
    obtain ⟨s, hx, hdeclare⟩ | ⟨t', hx, -, hdeclare⟩ := (empty.after u).declare_cases x l
    · rw [hlookup] at hx
      obtain ⟨l₀, hl₀, rfl⟩ := Option.map_eq_some_iff.1 hx
      simp [hdeclare, hl₀, Symbol.declared, eq_comm]
    · rw [hlookup] at hx
      simp [hdeclare, Option.map_eq_none_iff.1 hx]
  case unchanged =>
    intro x l e he
    obtain ⟨s, -, hdeclare⟩ | ⟨t', -, -, hdeclare⟩ := (empty.after u).declare_cases x l
    · rw [hdeclare]
    · rw [hdeclare] at he
      cases he

/-- Whatever operations a new table is given, its replies are those of the plain list. Throughout,
its index and its symbols agree, and the symbols it has stay as they are, in front of later ones. -/
theorem operations_refine_list (ops : List Operation) :
    empty.replies ops = SymbolList.replies ⟨[]⟩ ops ∧
    ∀ u v, ops = u ++ v →
      (empty.after u).Follows u ∧ (empty.after u).toList <+: (empty.after ops).toList := by
  refine ⟨(replies_list empty ops).symm, ?_⟩
  rintro u v rfl
  refine ⟨follows_after u, ?_⟩
  rw [after_append]
  exact toList_after _ v

end SymbolTable

end StraightLine
