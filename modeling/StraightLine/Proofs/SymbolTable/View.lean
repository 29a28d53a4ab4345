import StraightLine.SymbolTable

/-! A table seen as the list of its symbols. -/
namespace StraightLine.SymbolTable

theorem mem_names_iff (t : SymbolTable) (x : String) :
    x ∈ t.names ↔ ∃ i : Nat, t.symbols[i]?.map Symbol.name = some x := by
  simp only [names, toList, List.mem_map, Array.mem_toList_iff, Array.mem_iff_getElem?,
    Option.map_eq_some_iff]
  constructor
  · intro h
    obtain ⟨s, ⟨i, hi⟩, hs⟩ := h
    exact ⟨i, s, hi, hs⟩
  · intro h
    obtain ⟨i, s, hi, hs⟩ := h
    exact ⟨s, ⟨i, hi⟩, hs⟩

theorem lookup?_eq_none_iff_not_mem_names (t : SymbolTable) (x : String) :
    t.lookup? x = none ↔ x ∉ t.names := by
  rw [lookup?_eq_none_iff, mem_names_iff, Option.eq_none_iff_forall_ne_some]
  simp only [ne_eq, index_eq_some_iff, not_exists]

/-- What is found for a name is a symbol of that name. -/
theorem mem_of_lookup?_eq_some {t : SymbolTable} {x : String} {s : Symbol}
    (h : t.lookup? x = some s) : s ∈ t.toList ∧ s.name = x := by
  obtain ⟨i, hi, hs⟩ := Option.bind_eq_some_iff.1 h
  have hname := (t.index_eq_some_iff x i).1 hi
  rw [hs] at hname
  exact ⟨Array.mem_toList_iff.2 (Array.mem_of_getElem? hs), Option.some.inj hname⟩

theorem lookup?_of_require_eq_ok {t : SymbolTable} {x : String} {l : Location} {s : Symbol}
    (h : t.require x l = .ok s) : t.lookup? x = some s := by
  unfold require at h
  split at h
  next s' hs =>
    cases h
    exact hs
  next => cases h

theorem require_eq_error {t : SymbolTable} {x : String} {l : Location} {e : NamingError}
    (h : t.require x l = .error e) : t.lookup? x = none ∧ e = .notDeclared x l := by
  unfold require at h
  split at h
  next => cases h
  next hx =>
    cases h
    exact ⟨hx, rfl⟩

/-- The index leads to the symbol that a walk over all of them finds first. -/
theorem lookup?_eq_find? (t : SymbolTable) (x : String) :
    t.lookup? x = t.toList.find? fun s => s.name = x := by
  cases h : t.lookup? x with
  | none =>
    have hx := (t.lookup?_eq_none_iff_not_mem_names x).1 h
    symm
    rw [List.find?_eq_none]
    intro s hs hname
    exact hx (List.mem_map.2 ⟨s, hs, by simpa using hname⟩)
  | some s =>
    obtain ⟨i, hi, hs⟩ := Option.bind_eq_some_iff.1 h
    obtain ⟨hlt, hs⟩ := Array.getElem?_eq_some_iff.1 hs
    symm
    rw [List.find?_eq_some_iff_getElem]
    refine ⟨by simpa using (mem_of_lookup?_eq_some h).2, i, hlt, hs, ?_⟩
    intro j hj
    -- A name before the slot would be led to that place instead.
    have hne : t.symbols[j].name ≠ x := by
      intro hname
      have hindex := (t.index_eq_some_iff x j).2
        (by rw [Array.getElem?_eq_getElem (by omega), Option.map_some, hname])
      rw [hi] at hindex
      cases hindex
      exact Nat.lt_irrefl _ hj
    rw [Bool.not_eq_true']
    exact decide_eq_false hne

theorem contains_iff_mem_names (t : SymbolTable) (x : String) :
    t.contains x = true ↔ x ∈ t.names := by
  have h := lookup?_eq_none_iff_not_mem_names t x
  rw [contains_eq_isSome_lookup?, Option.isSome_iff_ne_none, Ne, h, Decidable.not_not]

@[simp] theorem names_push (t : SymbolTable) (s : Symbol) (fresh : t.lookup? s.name = none) :
    (t.push s fresh).names = t.names ++ [s.name] := by
  simp [names]

/-- A name that is known leaves the table as it was; a new one adds its symbol at the end. -/
theorem declare_cases (t : SymbolTable) (x : String) (l : Location) :
    (∃ s, t.lookup? x = some s ∧
      t.declare x l = (.error (.alreadyDeclared x l s.declaredAt), t)) ∨
    ∃ t' : SymbolTable, t.lookup? x = none ∧ t'.toList = t.toList ++ [.declared x l] ∧
      t.declare x l = (.ok (.declared x l), t') := by
  cases h : t.lookup? x with
  | some s => exact .inl ⟨s, rfl, declare_of_some h l⟩
  | none => exact .inr ⟨_, rfl, toList_push t (.declared x l) h, declare_of_none h l⟩

end StraightLine.SymbolTable
