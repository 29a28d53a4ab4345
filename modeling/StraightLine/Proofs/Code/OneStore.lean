import StraightLine.Proofs.Code.Occurrences
import StraightLine.Semantics

/-! Code that keeps variables and temporaries in one store, each under the name it has in a text.
There a temporary may fall on a variable of the program. That does no harm as long as nothing later
wants the variable's value: then the one store has, of all that is wanted, what the program has. -/
namespace StraightLine

theorem Temp.text_injective {m n : Nat} (h : Temp.text m = Temp.text n) : m = n := by
  have hdigits : Nat.toDigits 10 m = Nat.toDigits 10 n := by
    simpa [Temp.text] using congrArg String.toList h
  rw [← Nat.ofDigitChars_ten_toDigits (n := m), hdigits, Nat.ofDigitChars_ten_toDigits]

namespace Operand

def valueIn (σ : Store) : Operand → Int64
  | .literal n => n
  | .var x => σ x
  | .temp n => σ (Temp.text n)

/-- The same with the variables taken from a store of their own. -/
def valueFrom (σ τ : Store) : Operand → Int64
  | .literal n => n
  | .var x => σ x
  | .temp n => τ (Temp.text n)

theorem valueIn_eq_valueFrom {x : Operand} {σ τ : Store} (h : ∀ y ∈ x.vars, τ y = σ y) :
    x.valueIn τ = x.valueFrom σ τ := by
  cases x with
  | literal n => rfl
  | var y => exact h y (List.mem_singleton_self y)
  | temp n => rfl

end Operand

namespace OneStore

def step (arith : Arithmetic) (σ : Store) : Instruction → Except Application Store
  | .copy dest source => .ok (σ.set dest (source.valueIn σ))
  | .binary n a op b =>
    match arith.apply op (a.valueIn σ) (b.valueIn σ) with
    | .ok v => .ok (σ.set (Temp.text n) v)
    | .error fault => .error fault

end OneStore

/-- The variables whose values the code uses, if those of `out` are used after it and those of
`held` where it fails. A copy to what is not used does not use its source; an operator, which may
fail, always uses its operands. -/
def wanted (held out : List String) : List Instruction → List String
  | [] => out
  | .copy dest source :: rest =>
    if dest ∈ wanted held out rest then
      (wanted held out rest).filter (· ≠ dest) ++ source.vars
    else wanted held out rest
  | .binary _ a _ b :: rest => held ++ a.vars ++ b.vars ++ wanted held out rest

/-- No temporary is set while the variable of its name is wanted. -/
def Undisturbed (held out : List String) : List Instruction → Prop
  | [] => True
  | .copy _ _ :: rest => Undisturbed held out rest
  | .binary n _ _ _ :: rest => Temp.text n ∉ wanted held out rest ∧ Undisturbed held out rest

instance decidableUndisturbed (held out : List String) :
    ∀ code, Decidable (Undisturbed held out code)
  | [] => isTrue trivial
  | .copy _ _ :: rest => decidableUndisturbed held out rest
  | .binary n _ _ _ :: rest =>
    have := decidableUndisturbed held out rest
    inferInstanceAs (Decidable (Temp.text n ∉ wanted held out rest ∧ Undisturbed held out rest))

theorem Undisturbed.of_append {held out : List String} {u v : List Instruction}
    (h : Undisturbed held out (u ++ v)) : Undisturbed held out v := by
  induction u with
  | nil => exact h
  | cons i u ih =>
    cases i with
    | copy dest source => exact ih h
    | binary n a op b => exact ih h.2

section Names

variable {names : String → Prop} {held out : List String} {code : List Instruction}

theorem wanted_names (hheld : ∀ x ∈ held, names x) (hout : ∀ x ∈ out, names x)
    (hcode : ∀ i ∈ code, ∀ x ∈ i.vars, names x) : ∀ x ∈ wanted held out code, names x := by
  induction code with
  | nil => exact hout
  | cons i rest ih =>
    rw [List.forall_mem_cons] at hcode
    have hrest := ih hcode.2
    intro x hx
    cases i with
    | copy dest source =>
      have hsource : ∀ y ∈ source.vars, names y := fun y hy =>
        hcode.1 y (List.mem_cons_of_mem dest hy)
      rw [wanted] at hx
      split at hx
      · obtain hx | hx := List.mem_append.1 hx
        · exact hrest x (List.mem_filter.1 hx).1
        · exact hsource x hx
      · exact hrest x hx
    | binary n a op b =>
      simp only [wanted, List.mem_append] at hx
      obtain ((hx | hx) | hx) | hx := hx
      · exact hheld x hx
      · exact hcode.1 x (List.mem_append_left _ hx)
      · exact hcode.1 x (List.mem_append_right _ hx)
      · exact hrest x hx

/-- Code is undisturbed if none of its temporaries looks like one of the names around. -/
theorem undisturbed_of_names (hheld : ∀ x ∈ held, names x) (hout : ∀ x ∈ out, names x)
    (hcode : ∀ i ∈ code, ∀ x ∈ i.vars, names x)
    (htemps : ∀ n ∈ code.filterMap Instruction.temp?, ¬ names (Temp.text n)) :
    Undisturbed held out code := by
  induction code with
  | nil => trivial
  | cons i rest ih =>
    rw [List.forall_mem_cons] at hcode
    cases i with
    | copy dest source => exact ih hcode.2 htemps
    | binary n a op b =>
      simp only [List.filterMap_cons, Instruction.temp?, List.forall_mem_cons] at htemps
      refine ⟨?_, ih hcode.2 htemps.2⟩
      intro hn
      exact htemps.1 (wanted_names hheld hout hcode.2 _ hn)

end Names

namespace OneStore

variable {held out : List String} {rest : List Instruction} {σ τ τ' τ'' : Store}

/-- What a store must have in common with the program's: the wanted variables. -/
def Agrees (held out : List String) (code : List Instruction) (σ τ : Store) : Prop :=
  ∀ x ∈ wanted held out code, τ x = σ x

/-- The temporaries up to `k` are as they were. -/
def KeepsTemps (k : Nat) (τ τ' : Store) : Prop :=
  ∀ j ≤ k, τ' (Temp.text j) = τ (Temp.text j)

theorem KeepsTemps.trans {j k : Nat} (h : KeepsTemps j τ τ') (g : KeepsTemps k τ' τ'')
    (hjk : j ≤ k) : KeepsTemps j τ τ'' := by
  intro i hi
  exact (g i (by omega)).trans (h i hi)

theorem keepsTemps_set {k n : Nat} (τ : Store) (v : Int64) (h : k < n) :
    KeepsTemps k τ (τ.set (Temp.text n) v) := by
  intro j hj
  have hne : Temp.text j ≠ Temp.text n := by
    intro he
    have hjn := Temp.text_injective he
    omega
  simp [Store.set, hne]

theorem KeepsTemps.valueFrom_operandAfter {k : Nat} {e : Expr}
    (h : KeepsTemps (k + e.operatorCount) τ τ') :
    (e.operandAfter k).valueFrom σ τ' = (e.operandAfter k).valueFrom σ τ := by
  cases e with
  | number n l => rfl
  | var x l => rfl
  | binary op a b l => exact h _ (Nat.le_refl _)

section Binary

variable {n : Nat} {a b : Operand} {op : Operator}

theorem Agrees.of_held (h : Agrees held out (.binary n a op b :: rest) σ τ) :
    ∀ x ∈ held, τ x = σ x := by
  intro x hx
  apply h x
  simp [wanted, hx]

theorem Agrees.of_left (h : Agrees held out (.binary n a op b :: rest) σ τ) :
    ∀ x ∈ a.vars, τ x = σ x := by
  intro x hx
  apply h x
  simp [wanted, hx]

theorem Agrees.of_right (h : Agrees held out (.binary n a op b :: rest) σ τ) :
    ∀ x ∈ b.vars, τ x = σ x := by
  intro x hx
  apply h x
  simp [wanted, hx]

/-- The store with the result of an operator agrees, if no wanted variable has its name. -/
theorem Agrees.set_temp (h : Agrees held out (.binary n a op b :: rest) σ τ)
    (hclear : Temp.text n ∉ wanted held out rest) (v : Int64) :
    Agrees held out rest σ (τ.set (Temp.text n) v) := by
  intro x hx
  have hne : x ≠ Temp.text n := by
    intro he
    exact hclear (he ▸ hx)
  rw [Store.set, if_neg hne]
  apply h x
  simp [wanted, hx]

end Binary

theorem Agrees.set_var {dest : String} {source : Operand}
    (h : Agrees held out (.copy dest source :: rest) σ τ) :
    Agrees held out rest (σ.set dest (source.valueFrom σ τ)) (τ.set dest (source.valueIn τ)) := by
  intro x hx
  by_cases hxd : x = dest
  · have hdest : dest ∈ wanted held out rest := hxd ▸ hx
    have hsource : source.valueIn τ = source.valueFrom σ τ := by
      apply Operand.valueIn_eq_valueFrom
      intro y hy
      apply h y
      rw [wanted, if_pos hdest]
      exact List.mem_append_right _ hy
    simp [Store.set, hxd, hsource]
  · have hτ : τ x = σ x := by
      apply h x
      rw [wanted]
      split
      · exact List.mem_append_left _ (by simp [hx, hxd])
      · exact hx
    simp [Store.set, hxd, hτ]

theorem run_binary (arith : Arithmetic) {a b : Operand} {x y : Int64} (n : Nat) (op : Operator)
    (ha : a.valueIn τ = x) (hb : b.valueIn τ = y) :
    runAll (step arith) τ [.binary n a op b] =
      match arith.apply op x y with
      | .ok v => .ok (τ.set (Temp.text n) v)
      | .error fault => .error (fault, τ) := by
  simp only [runAll, step, ha, hb]
  cases arith.apply op x y <;> rfl

/-- A run that fails as the program does in `σ`, with the variables of `held` as they are there. -/
def Fails (held : List String) (fault : Application) (σ : Store) :
    Except (Application × Store) Store → Prop
  | .ok _ => False
  | .error (fault', τ) => fault' = fault ∧ ∀ x ∈ held, τ x = σ x

theorem Fails.append {arith : Arithmetic} {fault : Application} {u : List Instruction}
    (h : Fails held fault σ (runAll (step arith) τ u)) (v : List Instruction) :
    Fails held fault σ (runAll (step arith) τ (u ++ v)) := by
  cases hu : runAll (step arith) τ u with
  | ok τ' =>
    rw [hu] at h
    cases h
  | error e =>
    rw [runAll_append_of_error hu]
    rw [hu] at h
    exact h

/-- Code that comes to a value in the operand `x`, or fails where the value does, and keeps what
the code after it wants. -/
def Computes (arith : Arithmetic) (held out : List String) (k : Nat) (σ τ : Store)
    (code rest : List Instruction) (x : Operand) : Except Application Int64 → Prop
  | .ok v => ∃ τ', runAll (step arith) τ code = .ok τ' ∧ Agrees held out rest σ τ' ∧
      KeepsTemps k τ τ' ∧ x.valueFrom σ τ' = v
  | .error fault => Fails held fault σ (runAll (step arith) τ code)

theorem computes_codeAfter (arith : Arithmetic) (e : Expr) (k : Nat) (rest : List Instruction)
    (σ τ : Store) (hclear : Undisturbed held out (e.codeAfter k ++ rest))
    (hagree : Agrees held out (e.codeAfter k ++ rest) σ τ) :
    Computes arith held out k σ τ (e.codeAfter k) rest (e.operandAfter k) (e.eval arith σ) := by
  induction e generalizing k rest τ with
  | number n l => exact ⟨τ, rfl, hagree, fun _ _ => rfl, rfl⟩
  | var x l => exact ⟨τ, rfl, hagree, fun _ _ => rfl, rfl⟩
  | binary op a b l iha ihb =>
    simp only [Expr.codeAfter, List.append_assoc, List.singleton_append] at hclear hagree ⊢
    simp only [Expr.eval]
    have hleft := iha k _ τ hclear hagree
    cases ha : a.eval arith σ with
    | error fault =>
      rw [ha] at hleft
      exact hleft.append _
    | ok x =>
      rw [ha] at hleft
      obtain ⟨τ₁, hrun₁, hagree₁, hkeep₁, hx⟩ := hleft
      have hright := ihb (k + a.operatorCount) _ τ₁ hclear.of_append hagree₁
      cases hb : b.eval arith σ with
      | error fault =>
        rw [hb] at hright
        change Fails held fault σ _
        rw [runAll_append_of_ok hrun₁]
        exact hright.append _
      | ok y =>
        rw [hb] at hright
        obtain ⟨τ₂, hrun₂, hagree₂, hkeep₂, hy⟩ := hright
        have hx₂ : (a.operandAfter k).valueIn τ₂ = x := by
          rw [Operand.valueIn_eq_valueFrom hagree₂.of_left, hkeep₂.valueFrom_operandAfter, hx]
        have hy₂ : (b.operandAfter (k + a.operatorCount)).valueIn τ₂ = y := by
          rw [Operand.valueIn_eq_valueFrom hagree₂.of_right, hy]
        have hbinary := run_binary arith (k + (Expr.binary op a b l).operatorCount) op hx₂ hy₂
        change Computes arith held out k σ τ _ rest _ (arith.apply op x y)
        cases hv : arith.apply op x y with
        | error fault =>
          rw [hv] at hbinary
          change Fails held fault σ _
          rw [runAll_append_of_ok hrun₁, runAll_append_of_ok hrun₂, hbinary]
          exact ⟨rfl, hagree₂.of_held⟩
        | ok v =>
          rw [hv] at hbinary
          have hroom : k < k + (Expr.binary op a b l).operatorCount := by
            rw [Expr.operatorCount_binary]
            omega
          have hkeep := hkeep₁.trans hkeep₂ (by omega)
          refine ⟨_, ?_, hagree₂.set_temp hclear.of_append.of_append.1 v,
            hkeep.trans (keepsTemps_set τ₂ v hroom) (Nat.le_refl k), by
              simp [Expr.operandAfter, Operand.valueFrom, Store.set]⟩
          rw [runAll_append_of_ok hrun₁, runAll_append_of_ok hrun₂, hbinary]

/-- One statement: its value, then its target. -/
theorem run_statement (arith : Arithmetic) (s : Statement) (k : Nat) (rest : List Instruction)
    (σ τ : Store) (hclear : Undisturbed held out (s.codeAfter k ++ rest))
    (hagree : Agrees held out (s.codeAfter k ++ rest) σ τ) :
    match s.value.eval arith σ with
    | .ok v =>
      ∃ τ', runAll (step arith) τ (s.codeAfter k) = .ok τ' ∧
        Agrees held out rest (σ.set s.name v) τ'
    | .error fault => Fails held fault σ (runAll (step arith) τ (s.codeAfter k)) := by
  simp only [Statement.codeAfter, List.append_assoc, List.singleton_append] at hclear hagree ⊢
  have hvalue := computes_codeAfter arith s.value k _ σ τ hclear hagree
  cases hv : s.value.eval arith σ with
  | error fault =>
    rw [hv] at hvalue
    exact hvalue.append _
  | ok v =>
    rw [hv] at hvalue
    obtain ⟨τ', hrun, hagree', -, rfl⟩ := hvalue
    refine ⟨_, ?_, hagree'.set_var⟩
    rw [runAll_append_of_ok hrun]
    rfl

/-- Undisturbed code leaves the variables of `out` as the program does. Or it fails where the
program does, with those of `held` as they are there. -/
theorem run_codeAfter (arith : Arithmetic) (p : Program) (k : Nat) (σ τ : Store)
    (hclear : Undisturbed held out (Program.codeAfter k p))
    (hagree : Agrees held out (Program.codeAfter k p) σ τ) :
    match p.exec arith σ with
    | .ok σ' =>
      ∃ τ', runAll (step arith) τ (Program.codeAfter k p) = .ok τ' ∧ ∀ x ∈ out, τ' x = σ' x
    | .error (fault, σ') =>
      Fails held fault σ' (runAll (step arith) τ (Program.codeAfter k p)) := by
  induction p generalizing k σ τ with
  | nil => exact ⟨τ, rfl, hagree⟩
  | cons s p ih =>
    have hs := run_statement arith s k _ σ τ hclear hagree
    simp only [Program.exec, Program.codeAfter]
    cases hv : s.value.eval arith σ with
    | error fault =>
      rw [hv] at hs
      exact hs.append _
    | ok v =>
      rw [hv] at hs
      obtain ⟨τ', hrun, hagree'⟩ := hs
      have hrest := ih (k + s.value.operatorCount) (σ.set s.name v) τ' hclear.of_append hagree'
      simp only [runAll_append_of_ok hrun]
      exact hrest

end OneStore

end StraightLine
