import StraightLine.Command

/-! What the command takes for arguments: one path, which must not look like a flag, and `--tokens`
as often and wherever one likes. All else is an error of usage, whatever the files are. -/
namespace StraightLine.Command

namespace Config

/-- The flag counts wherever it is, and nothing else depends on it. -/
theorem ofArgsAfter_eq_map (path? : Option String) (dump dump' : Bool) (args : List String) :
    ofArgsAfter path? dump args =
      (ofArgsAfter path? dump' (args.filter fun a => a ≠ "--tokens")).map
        fun config => ⟨config.path, dump || decide ("--tokens" ∈ args)⟩ := by
  induction args generalizing path? dump with
  | nil => cases path? <;> simp [ofArgsAfter, Except.map]
  | cons a args ih =>
    by_cases ha : a = "--tokens"
    · subst ha
      have hstep : ofArgsAfter path? dump ("--tokens" :: args) = ofArgsAfter path? true args := by
        cases path? <;> simp only [ofArgsAfter, if_true]
      rw [hstep, ih, List.filter_cons_of_neg (by simp)]
      simp
    · rw [List.filter_cons_of_pos (by simpa using ha)]
      cases path? with
      | some path =>
        simp only [ofArgsAfter, if_neg ha]
        cases isFlag a <;> rfl
      | none =>
        simp only [ofArgsAfter, if_neg ha]
        cases isFlag a with
        | true => rfl
        | false =>
          simp only [Bool.false_eq_true, if_false]
          rw [ih]
          simp [Ne.symm ha]

theorem ofArgs_eq_map (args : List String) :
    ofArgs args = (ofArgs (args.filter fun a => a ≠ "--tokens")).map
      fun config => ⟨config.path, decide ("--tokens" ∈ args)⟩ := by
  rw [ofArgs, ofArgsAfter_eq_map none false false, Bool.false_or]
  rfl

theorem isFlag_iff (a : String) : isFlag a = true ↔ ['-', '-'] <+: a.toList := by
  unfold isFlag
  constructor
  · intro h
    split at h
    next rest ha =>
      rw [ha]
      exact ⟨rest, rfl⟩
    next => cases h
  · rintro ⟨rest, ha⟩
    rw [← ha]
    rfl

/-- But for `--tokens` there is one argument, and it does not begin as a flag does. -/
def Names (args : List String) (path : String) : Prop :=
  args.filter (fun a => a ≠ "--tokens") = [path] ∧ ¬['-', '-'] <+: path.toList

theorem exists_ofArgsAfter_some_eq_error {b : String} (hb : b ≠ "--tokens") (path : String)
    (dump : Bool) (args : List String) :
    ∃ e, ofArgsAfter (some path) dump (b :: args) = .error e := by
  simp only [ofArgsAfter, if_neg hb]
  cases isFlag b with
  | true => exact ⟨_, rfl⟩
  | false => exact ⟨_, rfl⟩

theorem ofArgs_plain_eq_ok_iff {args : List String} (h : "--tokens" ∉ args) (config : Config) :
    ofArgs args = .ok config ↔
      args = [config.path] ∧ isFlag config.path = false ∧ config.dumpTokens = false := by
  obtain ⟨path, dump⟩ := config
  rw [ofArgs]
  cases args with
  | nil => simp [ofArgsAfter]
  | cons a args =>
    obtain ⟨ha, hargs⟩ := List.ne_and_not_mem_of_not_mem_cons h
    simp only [ofArgsAfter, if_neg ha.symm]
    cases hflag : isFlag a with
    | true =>
      have hpath : a = path → isFlag path = true := fun hpath => hpath ▸ hflag
      simp only [if_true, reduceCtorEq, false_iff]
      rintro ⟨hargs, hnot, -⟩
      cases (hpath (List.cons.inj hargs).1).symm.trans hnot
    | false =>
      cases args with
      | nil =>
        constructor
        · intro hconfig
          cases hconfig
          exact ⟨rfl, hflag, rfl⟩
        · rintro ⟨hpath, -, rfl⟩
          cases hpath
          rfl
      | cons b args =>
        obtain ⟨hb, -⟩ := List.ne_and_not_mem_of_not_mem_cons hargs
        obtain ⟨e, he⟩ := exists_ofArgsAfter_some_eq_error hb.symm a false args
        simp [he]

theorem ofArgs_eq_ok_iff (args : List String) (config : Config) :
    ofArgs args = .ok config ↔
      Names args config.path ∧ config.dumpTokens = decide ("--tokens" ∈ args) := by
  have hplain : "--tokens" ∉ args.filter fun a => a ≠ "--tokens" := by simp
  obtain ⟨path, dump⟩ := config
  have hiff := ofArgs_plain_eq_ok_iff hplain ⟨path, false⟩
  rw [Names, ← isFlag_iff, Bool.not_eq_true]
  constructor
  · intro h
    rw [ofArgs_eq_map] at h
    cases hc : ofArgs (args.filter fun a => a ≠ "--tokens") with
    | error e =>
      rw [hc] at h
      cases h
    | ok c =>
      rw [hc] at h
      obtain ⟨hpath, hflag, -⟩ := (ofArgs_plain_eq_ok_iff hplain c).1 hc
      cases h
      exact ⟨⟨hpath, hflag⟩, rfl⟩
  · rintro ⟨⟨hpath, hflag⟩, rfl⟩
    rw [ofArgs_eq_map, hiff.2 ⟨hpath, hflag, rfl⟩]
    rfl

/-- With the flag put in, arguments fail as they did or ask for the tokens of the same file. -/
theorem ofArgs_cases {args dumped : List String}
    (hargs : dumped.filter (fun a => a ≠ "--tokens") = args) (hdumped : "--tokens" ∈ dumped) :
    (∃ e, ofArgs args = .error e ∧ ofArgs dumped = .error e) ∨
    ∃ path, ofArgs args = .ok ⟨path, false⟩ ∧ ofArgs dumped = .ok ⟨path, true⟩ := by
  have hfull := ofArgs_eq_map dumped
  rw [hargs, decide_eq_true hdumped] at hfull
  cases h : ofArgs args with
  | error e =>
    rw [h] at hfull
    exact .inl ⟨e, rfl, hfull⟩
  | ok config =>
    rw [h] at hfull
    have hdump := ((ofArgs_eq_ok_iff args config).1 h).2
    obtain ⟨path, dump⟩ := config
    obtain rfl : dump = false := by simpa [← hargs] using hdump
    exact .inr ⟨path, rfl, hfull⟩

end Config

def source? (args : List String) (files : String → Except FileError ByteArray) : Option String :=
  match Config.ofArgs args with
  | .error _ => none
  | .ok config => (files config.path >>= textOf).toOption

theorem source?_eq_some_iff (args : List String) (files : String → Except FileError ByteArray)
    (source : String) :
    source? args files = some source ↔
      ∃ path, Config.Names args path ∧ files path >>= textOf = .ok source := by
  unfold source?
  cases h : Config.ofArgs args with
  | error e =>
    simp only [reduceCtorEq, false_iff, not_exists, not_and]
    intro path hpath _
    have hok := (Config.ofArgs_eq_ok_iff args ⟨path, _⟩).2 ⟨hpath, rfl⟩
    cases h.symm.trans hok
  | ok config =>
    obtain ⟨hpath, -⟩ := (Config.ofArgs_eq_ok_iff args config).1 h
    constructor
    · intro hsource
      refine ⟨config.path, hpath, ?_⟩
      cases hfile : files config.path >>= textOf with
      | error e =>
        simp only [hfile] at hsource
        cases hsource
      | ok text =>
        simp only [hfile] at hsource
        exact congrArg Except.ok (Option.some.inj hsource)
    · rintro ⟨path, ⟨hargs, -⟩, hfile⟩
      cases List.singleton_inj.1 (hpath.1.symm.trans hargs)
      simp only [hfile]
      rfl

end StraightLine.Command
