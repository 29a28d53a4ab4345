import Mathlib.Algebra.GroupWithZero.Nat
import Mathlib.Data.List.Nodup
import StraightLine.Proofs.Code.Cut

/-! Every temporary is set once and used once, by its own statement. An emitter numbers them in the
order in which it writes them, whatever it is asked for. -/
namespace StraightLine

def Operand.temp? : Operand → Option Nat
  | .temp n => some n
  | _ => none

theorem Operand.temp?_eq_some {x : Operand} {n : Nat} : x.temp? = some n ↔ x = .temp n := by
  cases x <;> simp [temp?]

namespace Emitter

/-- What an emitter can be asked to write. -/
inductive Request where
  | program (p : Program)
  | statement (s : Statement)
  | expr (e : Expr)

namespace Request

def operatorCount : Request → Nat
  | .program p => p.operatorCount
  | .statement s => s.value.operatorCount
  | .expr e => e.operatorCount

def statementCount : Request → Nat
  | .program p => p.length
  | .statement _ => 1
  | .expr _ => 0

end Request

def serve (m : Emitter) : Request → Emitter
  | .program p => m.emitProgram p
  | .statement s => m.emitStatement s
  | .expr e => (m.emit e).2

def serveAll (m : Emitter) (requests : List Request) : Emitter := requests.foldl serve m

/-- An emitter that has written so many operators and statements: its temporaries are numbered from
one on, in order, and each operator and each statement has one instruction. -/
structure Counted (m : Emitter) (operators statements : Nat) : Prop where
  temps : m.temps = operators
  numbered : m.code.toList.filterMap Instruction.temp? = List.range' 1 operators
  length : m.code.size = operators + statements

end Emitter

theorem Expr.length_codeAfter (e : Expr) (k : Nat) : (e.codeAfter k).length = e.operatorCount := by
  induction e generalizing k with
  | number n l => simp [codeAfter]
  | var x l => simp [codeAfter]
  | binary op a b l iha ihb => simp [codeAfter, iha, ihb, Nat.add_assoc]

theorem Program.length_codeAfter (p : Program) (k : Nat) :
    (Program.codeAfter k p).length = p.operatorCount + p.length := by
  induction p generalizing k with
  | nil => rfl
  | cons s p ih =>
    simp only [codeAfter, Statement.codeAfter, List.length_append, Expr.length_codeAfter, ih,
      operatorCount_cons, List.length_cons, List.length_nil]
    omega

namespace Emitter

/-- Code with the next temporaries in order, and so many instructions, keeps the count. -/
theorem Counted.append {m : Emitter} {operators statements : Nat}
    (h : m.Counted operators statements) {code : List Instruction} {j k : Nat}
    (htemps : code.filterMap Instruction.temp? = List.range' (m.temps + 1) j)
    (hlength : code.length = j + k) :
    Counted ⟨m.code ++ code.toArray, m.temps + j⟩ (operators + j) (statements + k) := by
  obtain ⟨rfl, hnumbered, hsize⟩ := h
  refine ⟨rfl, ?_, ?_⟩
  · rw [Array.toList_append, List.filterMap_append, hnumbered, htemps, Nat.add_comm m.temps 1,
      List.range'_append_1]
  · rw [Array.size_append, hsize, List.size_toArray, hlength]
    omega

theorem Counted.serve {m : Emitter} {operators statements : Nat}
    (h : m.Counted operators statements) (r : Request) :
    (m.serve r).Counted (operators + r.operatorCount) (statements + r.statementCount) := by
  cases r with
  | program p =>
    rw [Emitter.serve, emitProgram_eq]
    exact h.append (p.temps_codeAfter m.temps) (p.length_codeAfter m.temps)
  | statement s =>
    have hs : Program.codeAfter m.temps [s] = s.codeAfter m.temps := by
      simp [Program.codeAfter]
    rw [Emitter.serve, emitStatement_eq, ← hs]
    exact h.append (Program.temps_codeAfter [s] m.temps) (Program.length_codeAfter [s] m.temps)
  | expr e =>
    rw [Emitter.serve, emit_eq_lower, lower_eq]
    exact h.append (e.temps_codeAfter m.temps) (e.length_codeAfter m.temps)

theorem Counted.serveAll {m : Emitter} {operators statements : Nat}
    (h : m.Counted operators statements) (rs : List Request) :
    (m.serveAll rs).Counted (operators + (rs.map Request.operatorCount).sum)
      (statements + (rs.map Request.statementCount).sum) := by
  induction rs generalizing m operators statements with
  | nil => exact h
  | cons r rs ih =>
    simp only [List.map_cons, List.sum_cons, ← Nat.add_assoc]
    exact ih (h.serve r)

theorem counted_empty : Counted empty 0 0 := ⟨rfl, rfl, rfl⟩

end Emitter

/-- The temporaries that code uses, in the order of their use. -/
def usedTemps (code : List Instruction) : List Nat :=
  (code.flatMap Instruction.operands).filterMap Operand.temp?

theorem usedTemps_append (u v : List Instruction) :
    usedTemps (u ++ v) = usedTemps u ++ usedTemps v := by
  simp [usedTemps]

theorem count_usedTemps (code : List Instruction) (n : Nat) :
    (usedTemps code).count n = (code.flatMap Instruction.operands).count (.temp n) := by
  rw [usedTemps, List.count_filterMap, List.count]
  refine List.countP_congr ?_
  intro x _
  simp [Operand.temp?_eq_some]

theorem mem_usedTemps {code : List Instruction} {n : Nat} :
    n ∈ usedTemps code ↔ ∃ i ∈ code, .temp n ∈ i.operands := by
  simp only [usedTemps, List.mem_filterMap, List.mem_flatMap, Operand.temp?_eq_some,
    exists_eq_right]

theorem usedTemps_binary (n : Nat) (x : Operand) (op : Operator) (y : Operand) :
    usedTemps [.binary n x op y] = x.temp?.toList ++ y.temp?.toList := by
  cases x <;> cases y <;> rfl

theorem usedTemps_copy (dest : String) (x : Operand) :
    usedTemps [.copy dest x] = x.temp?.toList := by
  cases x <;> rfl

namespace Expr

/-- Of the temporaries of an expression its code uses each once, but for the one that holds the
value. -/
theorem perm_usedTemps_codeAfter (e : Expr) (k : Nat) :
    (usedTemps (e.codeAfter k) ++ (e.operandAfter k).temp?.toList).Perm
      (List.range' (k + 1) e.operatorCount) := by
  induction e generalizing k with
  | number n l =>
    rw [operatorCount_number]
    exact .nil
  | var x l =>
    rw [operatorCount_var]
    exact .nil
  | binary op a b l iha ihb =>
    have hb := ihb (k + a.operatorCount)
    have hrange : List.range' (k + 1) (binary op a b l).operatorCount =
        List.range' (k + 1) a.operatorCount ++
          List.range' (k + a.operatorCount + 1) b.operatorCount ++
            [k + (binary op a b l).operatorCount] := by
      rw [operatorCount_binary, Nat.add_right_comm k, List.range'_append_1, List.range'_1_concat]
      congr 2
      omega
    have hoperands := List.perm_append_comm_assoc (usedTemps (b.codeAfter (k + a.operatorCount)))
      (a.operandAfter k).temp?.toList (b.operandAfter (k + a.operatorCount)).temp?.toList
    -- The operator uses up the values of both operands, and its own is left over.
    rw [hrange]
    refine .trans (.append_right _ ?_) (((iha k).append hb).append_right _)
    simp only [codeAfter, usedTemps_append, usedTemps_binary, List.append_assoc]
    exact hoperands.append_left _

end Expr

theorem Statement.perm_usedTemps_codeAfter (s : Statement) (k : Nat) :
    (usedTemps (s.codeAfter k)).Perm (List.range' (k + 1) s.value.operatorCount) := by
  rw [Statement.codeAfter, usedTemps_append, usedTemps_copy]
  exact s.value.perm_usedTemps_codeAfter k

theorem Program.perm_usedTemps_codeAfter (p : Program) (k : Nat) :
    (usedTemps (Program.codeAfter k p)).Perm (List.range' (k + 1) p.operatorCount) := by
  induction p generalizing k with
  | nil => exact .nil
  | cons s p ih =>
    have hp := ih (k + s.value.operatorCount)
    rw [Nat.add_right_comm] at hp
    rw [codeAfter, usedTemps_append, operatorCount_cons, ← List.range'_append_1]
    exact (s.perm_usedTemps_codeAfter k).append hp

/-- The temporary is set by an instruction and used by a later one. -/
def SetThenUsed (code : List Instruction) (n : Nat) : Prop :=
  ∃ setter user, [setter, user].Sublist code ∧ setter.temp? = some n ∧ .temp n ∈ user.operands

theorem SetThenUsed.sublist {u v : List Instruction} {n : Nat} (h : SetThenUsed u n)
    (huv : u.Sublist v) : SetThenUsed v n := by
  obtain ⟨setter, user, hsub, hset, huse⟩ := h
  exact ⟨setter, user, hsub.trans huv, hset, huse⟩

theorem setThenUsed_concat {code : List Instruction} {setter user : Instruction} {n : Nat}
    (hmem : setter ∈ code) (hset : setter.temp? = some n) (huse : .temp n ∈ user.operands) :
    SetThenUsed (code ++ [user]) n :=
  ⟨setter, user, (List.singleton_sublist.2 hmem).append (.refl [user]), hset, huse⟩

namespace Expr

/-- The last instruction of an expression sets the temporary of its value. -/
theorem exists_setter {e : Expr} {k n : Nat} (h : e.operandAfter k = .temp n) :
    ∃ setter ∈ e.codeAfter k, setter.temp? = some n := by
  cases e with
  | number m l => cases h
  | var x l => cases h
  | binary op a b l =>
    cases h
    exact ⟨_, List.mem_append_right _ (List.mem_singleton_self _), rfl⟩

theorem setThenUsed {e : Expr} {k n : Nat} {i : Instruction} (hi : i ∈ e.codeAfter k)
    (hn : .temp n ∈ i.operands) : SetThenUsed (e.codeAfter k) n := by
  induction e generalizing k with
  | number m l => cases hi
  | var x l => cases hi
  | binary op a b l iha ihb =>
    simp only [codeAfter, List.mem_append, List.mem_singleton] at hi
    obtain (ha | hb) | rfl := hi
    · refine (iha ha).sublist ?_
      rw [codeAfter, List.append_assoc]
      exact List.sublist_append_left _ _
    · refine (ihb hb).sublist ?_
      rw [codeAfter, List.append_assoc]
      exact (List.sublist_append_left _ _).trans (List.sublist_append_right _ _)
    · have hoperand : .temp n = a.operandAfter k ∨
          .temp n = b.operandAfter (k + a.operatorCount) := by
        simpa [Instruction.operands] using hn
      rw [codeAfter]
      obtain hleft | hright := hoperand
      · obtain ⟨setter, hmem, hset⟩ := exists_setter hleft.symm
        exact setThenUsed_concat (List.mem_append_left _ hmem) hset hn
      · obtain ⟨setter, hmem, hset⟩ := exists_setter hright.symm
        exact setThenUsed_concat (List.mem_append_right _ hmem) hset hn

end Expr

theorem Statement.setThenUsed {s : Statement} {k n : Nat} (h : n ∈ usedTemps (s.codeAfter k)) :
    SetThenUsed (s.codeAfter k) n := by
  obtain ⟨i, hi, hn⟩ := mem_usedTemps.1 h
  rw [Statement.codeAfter, List.mem_append, List.mem_singleton] at hi
  rw [Statement.codeAfter]
  obtain hvalue | rfl := hi
  · exact (Expr.setThenUsed hvalue hn).sublist (List.sublist_append_left _ _)
  · obtain ⟨setter, hmem, hset⟩ := Expr.exists_setter (List.mem_singleton.1 hn).symm
    exact setThenUsed_concat hmem hset hn

namespace Program

/-- A temporary is set and used within the code of one statement. -/
theorem exists_cut_setThenUsed {p : Program} {n : Nat} (hpos : 1 ≤ n) (hle : n ≤ p.operatorCount) :
    ∃ s before body x after, p.Cut s before body x after ∧
      SetThenUsed (body ++ [.copy s.name x]) n := by
  have hmem : n ∈ (Program.codeAfter 0 p).filterMap Instruction.temp? := by
    rw [temps_codeAfter, List.mem_range'_1]
    omega
  obtain ⟨setter, hsetter, hset⟩ := List.mem_filterMap.1 hmem
  obtain ⟨u, v, huv⟩ := List.append_of_mem hsetter
  obtain ⟨q, s, r, w, z, rfl, -, hs⟩ := exists_statement_of_codeAfter huv
  rw [Nat.zero_add] at hs
  have hown : n ∈ (s.codeAfter q.operatorCount).filterMap Instruction.temp? :=
    List.mem_filterMap.2 ⟨setter, by simp [hs], hset⟩
  have htemps : (s.codeAfter q.operatorCount).filterMap Instruction.temp? =
      List.range' (q.operatorCount + 1) s.value.operatorCount := by
    simpa [codeAfter] using Program.temps_codeAfter [s] q.operatorCount
  rw [htemps, ← (s.perm_usedTemps_codeAfter _).mem_iff] at hown
  exact ⟨s, _, _, _, _, cut q s r, Statement.setThenUsed hown⟩

theorem mem_range_of_mentioned {p : Program} {i : Instruction} {n : Nat} (hi : i ∈ p.code)
    (hn : i.temp? = some n ∨ .temp n ∈ i.operands) : 1 ≤ n ∧ n ≤ p.operatorCount := by
  rw [code_eq] at hi
  have hmem : n ∈ List.range' 1 p.operatorCount := by
    obtain hset | huse := hn
    · rw [← p.temps_codeAfter 0]
      exact List.mem_filterMap.2 ⟨i, hi, hset⟩
    · rw [← (p.perm_usedTemps_codeAfter 0).mem_iff, mem_usedTemps]
      exact ⟨i, hi, huse⟩
  rw [List.mem_range'_1] at hmem
  omega

end Program

/-- Whatever an emitter is asked for, it takes one temporary for each operator, numbers them in
order, and writes one instruction for each operator and each statement. In the code of a program
each temporary is one operand, behind the instruction that sets it and within the same statement,
and there are no other temporaries. -/
theorem Emitter.temporaries_set_and_used_once :
    (∀ requests : List Request,
      (empty.serveAll requests).temps = (requests.map Request.operatorCount).sum ∧
      (empty.serveAll requests).code.toList.filterMap Instruction.temp? =
        List.range' 1 (empty.serveAll requests).temps ∧
      (empty.serveAll requests).code.size =
        (empty.serveAll requests).temps + (requests.map Request.statementCount).sum) ∧
    ∀ p : Program,
      (∀ n, 1 ≤ n → n ≤ p.operatorCount →
        (p.code.flatMap Instruction.operands).count (.temp n) = 1 ∧
        ∃ s before body x after, p.Cut s before body x after ∧
          SetThenUsed (body ++ [.copy s.name x]) n) ∧
      ∀ i ∈ p.code, ∀ n, i.temp? = some n ∨ .temp n ∈ i.operands →
        1 ≤ n ∧ n ≤ p.operatorCount := by
  refine ⟨?_, ?_⟩
  · intro requests
    obtain ⟨htemps, hnumbered, hlength⟩ := counted_empty.serveAll requests
    rw [Nat.zero_add] at *
    rw [htemps]
    exact ⟨rfl, hnumbered, by simpa using hlength⟩
  · intro p
    refine ⟨?_, fun i hi n hn => Program.mem_range_of_mentioned hi hn⟩
    intro n hpos hle
    refine ⟨?_, Program.exists_cut_setThenUsed hpos hle⟩
    have hmem : n ∈ List.range' 1 p.operatorCount := by
      rw [List.mem_range'_1]
      omega
    rw [← count_usedTemps, Program.code_eq, (p.perm_usedTemps_codeAfter 0).count_eq]
    exact List.count_eq_one_of_mem (List.nodup_range' 1) hmem

end StraightLine
