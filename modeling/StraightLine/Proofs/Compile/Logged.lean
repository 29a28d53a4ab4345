import StraightLine.Compile
import StraightLine.Proofs.Code.Lowering

/-! Stages that tell what they do. A stage with a log does what it does without one, and at every step
the log has grown by what the step has done: behind the events of earlier stages it has the symbols
of the table, or the instructions of the code, each in its order. -/
namespace StraightLine

/-- What each operator keeps that is written, the tasks keep. -/
theorem Emitter.Task.run_keeps {σ : Type} {P : σ → Prop}
    (apply : σ → Operand → Operator → Operand → Operand × σ)
    (h : ∀ m x op y, P m → P (apply m x op y).2) {m : σ} (hm : P m) (tasks : List Task)
    (xs : List Operand) : ∀ r ∈ Task.run apply m tasks xs, P r.2 := by
  induction m, tasks, xs using Task.run.induct apply with
  | case1 m => simp [Task.run]
  | case2 m x xs => simpa [Task.run] using hm
  | case3 m n l tasks xs ih =>
    rw [Task.run]
    exact ih hm
  | case4 m x l tasks xs ih =>
    rw [Task.run]
    exact ih hm
  | case5 m op a b l tasks xs ih =>
    rw [Task.run]
    exact ih hm
  | case6 m op tasks y x xs z m' hz ih =>
    have hm' := h m x op y hm
    rw [hz] at hm'
    rw [Task.run, hz]
    exact ih hm'
  | case7 m op tasks xs hxs =>
    rw [Task.run]
    · simp
    · exact hxs

namespace Logged

section Symbols

variable (j : Logged SymbolTable)

theorem declare_state (x : String) (l : Location) :
    (j.declare x l).map id state = j.state.declare x l := by
  obtain ⟨t, log⟩ := j
  simp only [declare]
  generalize t.declare x l = r
  obtain ⟨result, t⟩ := r
  cases result <;> rfl

theorem checkStatement_state (s : Statement) :
    (j.checkStatement s).map id state = j.state.checkStatement s := by
  unfold checkStatement enter SymbolTable.checkStatement
  cases s.form with
  | declaration =>
    have h := j.declare_state s.name s.location
    simp only
    rw [← h]
    generalize j.declare s.name s.location = r
    obtain ⟨result, j'⟩ := r
    cases result <;> rfl
  | assignment =>
    simp only
    cases j.state.require s.name s.location <;> rfl

theorem check_state (p : Program) : (j.check p).map id state = j.state.check p := by
  induction p generalizing j with
  | nil => rfl
  | cons s p ih =>
    have h := j.checkStatement_state s
    rw [check, SymbolTable.check, ← h]
    generalize j.checkStatement s = r
    obtain ⟨result, j'⟩ := r
    cases result with
    | error e => rfl
    | ok u => exact ih j'

/-- The log is what was told before, and then each symbol of the table. -/
def TellsSymbols (told : List Event) (j : Logged SymbolTable) : Prop :=
  j.log.toList = told ++ j.state.toList.map .declared

variable {j} {told : List Event}

theorem TellsSymbols.declare (h : j.TellsSymbols told) (x : String) (l : Location) :
    (j.declare x l).2.TellsSymbols told := by
  obtain ⟨t, log⟩ := j
  have hlog : log.toList = told ++ t.toList.map .declared := h
  cases hx : t.lookup? x with
  | some s =>
    simp only [Logged.declare, SymbolTable.declare_of_some hx]
    exact h
  | none =>
    have hlist : (t.push (.declared x l) hx).toList = t.toList ++ [.declared x l] :=
      SymbolTable.toList_push t _ hx
    simp only [Logged.declare, SymbolTable.declare_of_none hx]
    simp [TellsSymbols, tell, hlist, hlog]

theorem TellsSymbols.checkStatement (h : j.TellsSymbols told) (s : Statement) :
    (j.checkStatement s).2.TellsSymbols told := by
  have henter : (j.enter s.toTarget).2.TellsSymbols told := by
    unfold enter
    cases s.form with
    | declaration => exact h.declare s.name s.location
    | assignment => exact h
  unfold Logged.checkStatement
  generalize j.enter s.toTarget = r at henter
  obtain ⟨result, j'⟩ := r
  cases result <;> exact henter

/-- The check tells of every symbol in the table that it leaves, and of its end if it gets there. -/
theorem TellsSymbols.check (h : j.TellsSymbols told) (p : Program) :
    ((j.check p).1 = .ok () → (j.check p).2.log.toList =
      told ++ (j.check p).2.state.toList.map .declared ++ [.checked (j.check p).2.state.size]) ∧
    ∀ e, (j.check p).1 = .error e → (j.check p).2.TellsSymbols told := by
  induction p generalizing j with
  | nil =>
    unfold TellsSymbols at *
    simp [Logged.check, tell, h]
  | cons s p ih =>
    have hs := h.checkStatement s
    rw [Logged.check]
    generalize j.checkStatement s = r at hs
    obtain ⟨result, j'⟩ := r
    cases result with
    | error e => exact ⟨by simp, fun _ _ => hs⟩
    | ok u => exact ih hs

end Symbols

section Code

variable (j : Logged Emitter)

theorem emit_state (e : Expr) : (j.emit e).map id state = j.state.emit e := by
  have h := j.map_run_lower e
  rw [Emitter.emit_eq_lower, ← Option.some_inj, ← h, emit, ← Option.map_some, Option.some_get]

theorem emitStatement_state (s : Statement) :
    (j.emitStatement s).state = j.state.emitStatement s := by
  have h := j.emit_state s.value
  rw [Emitter.emitStatement, ← h]
  rfl

/-- The log is what was told before, and then each instruction of the code. -/
def TellsCode (told : List Event) (j : Logged Emitter) : Prop :=
  j.log.toList = told ++ j.state.code.toList.map .emitted

variable {j} {told : List Event}

theorem TellsCode.write (h : j.TellsCode told) (i : Instruction) :
    (j.write i).TellsCode told := by
  unfold TellsCode Logged.write tell Emitter.write at *
  simp [h]

theorem TellsCode.apply (h : j.TellsCode told) (x : Operand) (op : Operator) (y : Operand) :
    (j.apply x op y).2.TellsCode told := by
  have htemps : TellsCode told ⟨⟨j.state.code, j.state.temps + 1⟩, j.log⟩ := h
  exact htemps.write _

theorem TellsCode.emit (h : j.TellsCode told) (e : Expr) : (j.emit e).2.TellsCode told := by
  refine Emitter.Task.run_keeps Logged.apply (P := TellsCode told) ?_ h [.lower e] [] (j.emit e) ?_
  · intro j x op y hj
    exact hj.apply x op y
  · exact (Option.some_get _).symm

theorem TellsCode.emitStatement (h : j.TellsCode told) (s : Statement) :
    (j.emitStatement s).TellsCode told := (h.emit s.value).write _

/-- Generation tells of every instruction that it writes, and then of its end. -/
theorem TellsCode.emitProgram (h : j.TellsCode told) (p : Program) :
    (j.emitProgram p).state = j.state.emitProgram p ∧
    (j.emitProgram p).log.toList = told ++ (j.state.emitProgram p).code.toList.map .emitted ++
      [.generated (j.state.emitProgram p).code.size (j.state.emitProgram p).temps] := by
  have hfold : (p.foldl Logged.emitStatement j).state = j.state.emitProgram p ∧
      (p.foldl Logged.emitStatement j).TellsCode told := by
    induction p generalizing j with
    | nil => exact ⟨rfl, h⟩
    | cons s p ih =>
      rw [List.foldl_cons, Emitter.emitProgram, List.foldl_cons, ← emitStatement_state]
      exact ih (h.emitStatement s)
  obtain ⟨hstate, htells⟩ := hfold
  unfold TellsCode at htells
  refine ⟨hstate, ?_⟩
  simp [Logged.emitProgram, tell, htells, hstate]

end Code

end Logged

namespace Report

theorem fst_ofSource (source : String) : (ofSource source).1 = (ofStages source).1 := by
  unfold ofSource
  generalize ofStages source = r
  obtain ⟨result, log⟩ := r
  cases result <;> rfl

theorem ofSource_eq (source : String) :
    ofSource source = (compile source, (ofSource source).2) := rfl

theorem ofStages_eq (source : String) :
    ofStages source = (compile source, (ofStages source).2) := by
  rw [compile, fst_ofSource]

/-- A fault in the names is told behind the symbols that were declared before it came up. -/
theorem ofProgram_of_error {p : Program} {e : NamingError}
    (h : (SymbolTable.empty.check p).1 = .error e) (log : Array Event) :
    (ofProgram log p).1 = .error (.naming e) ∧
    (ofProgram log p).2.toList =
      log.toList ++ (SymbolTable.empty.check p).2.toList.map .declared := by
  have hstate := Logged.check_state ⟨.empty, log⟩ p
  have htells : Logged.TellsSymbols log.toList ⟨.empty, log⟩ := (List.append_nil _).symm
  have hlog := (htells.check p).2
  rw [ofProgram]
  rw [← hstate] at h ⊢
  generalize Logged.check ⟨.empty, log⟩ p = r at h hlog ⊢
  obtain ⟨result, j⟩ := r
  cases h
  exact ⟨rfl, hlog e rfl⟩

theorem ofProgram_of_ok {p : Program} (h : (SymbolTable.empty.check p).1 = .ok ())
    (log : Array Event) :
    (ofProgram log p).1 = .ok ⟨p.code, (SymbolTable.empty.check p).2⟩ ∧
    (ofProgram log p).2.toList = log.toList ++
      (SymbolTable.empty.check p).2.toList.map .declared ++
      [.checked (SymbolTable.empty.check p).2.size] ++ p.code.map .emitted ++
      [.generated p.code.length p.operatorCount] := by
  have hstate := Logged.check_state ⟨.empty, log⟩ p
  have htells : Logged.TellsSymbols log.toList ⟨.empty, log⟩ := (List.append_nil _).symm
  have hlog := (htells.check p).1
  rw [ofProgram]
  rw [← hstate] at h ⊢
  generalize Logged.check ⟨.empty, log⟩ p = r at h hlog ⊢
  obtain ⟨result, j⟩ := r
  cases h
  have hsymbols := hlog rfl
  have hcode : Logged.TellsCode j.log.toList ⟨.empty, j.log⟩ := (List.append_nil _).symm
  obtain ⟨hemitter, hcodeLog⟩ := hcode.emitProgram p
  have htemps : (Emitter.empty.emitProgram p).temps = p.operatorCount := by
    rw [Emitter.emitProgram_eq]
    exact Nat.zero_add _
  refine ⟨by simp [hemitter, Program.code], ?_⟩
  simp only at hsymbols
  simp [hcodeLog, hsymbols, htemps, Program.code]

end Report

end StraightLine
