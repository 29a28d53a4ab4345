import StraightLine.Proofs.Compile.Stages

/-! For each temporary a program that is lost by it: the variable of the temporary's name is set
to nought, then added to a sum long enough to take the temporary. In one store the sum overwrites
the variable before it is added. -/
namespace StraightLine.Clash

/-- `1 + 1 + … + 1` with `k` signs. -/
def ones : Nat → Expr
  | 0 => .number 1 .start
  | k + 1 => .binary .add (ones k) (.number 1 .start) .start

def program (k : Nat) : Program :=
  [⟨⟨.declaration, Temp.text k, .start⟩, .number 0 .start⟩,
   ⟨⟨.assignment, Temp.text k, .start⟩,
    .binary .add (ones k) (.var (Temp.text k) .start) .start⟩]

/-- Every operator gives its right operand. -/
def takeRight : Arithmetic := fun _ _ y => some y

@[simp] theorem operatorCount_ones (k : Nat) : (ones k).operatorCount = k := by
  induction k with
  | zero => simp [ones]
  | succ k ih => simp [ones, ih]

@[simp] theorem nesting_ones (k : Nat) : (ones k).nesting = 0 := by
  induction k with
  | zero => rfl
  | succ k ih => simp [ones, Expr.nesting, Expr.tightness, Operator.isProduct, ih]

theorem isWritable_ones (k : Nat) : ∀ node ∈ (ones k).nodes, node.kind.isWritable = true := by
  induction k with
  | zero => simp [ones, Expr.Node.kind, Token.Kind.isWritable]
  | succ k ih =>
    simp only [ones, Expr.nodes_binary, Expr.nodes_number, List.forall_mem_append,
      List.forall_mem_cons]
    exact ⟨⟨ih, by decide, by simp⟩, by decide, by simp⟩

theorem not_mentions_ones (k : Nat) (x : String) : ¬ (ones k).Mentions x := by
  rw [Expr.mentions_iff_mem_uses]
  induction k with
  | zero => simp [ones]
  | succ k ih => simpa [ones] using ih

@[simp] theorem eval_ones (k : Nat) (σ : Store) : (ones k).eval takeRight σ = .ok 1 := by
  induction k with
  | zero => rfl
  | succ k ih =>
    simp only [ones, Expr.eval, ih]
    rfl

theorem exec_program (k : Nat) (σ : Store) :
    ∃ τ, (program k).exec takeRight σ = .ok τ ∧ τ (Temp.text k) = 0 := by
  refine ⟨((σ.set (Temp.text k) 0).set (Temp.text k) 0), ?_, by simp [Store.set]⟩
  simp only [program, Program.exec, Expr.eval, eval_ones]
  simp [bind, Except.bind, Arithmetic.apply, takeRight, Store.set]

/-- The sum leaves its value in the temporary `k`, under whatever name. -/
theorem run_ones (k : Nat) (τ : Store) :
    ∃ τ', runAll (OneStore.step takeRight) τ ((ones k).codeAfter 0) = .ok τ' ∧
      (0 < k → τ' (Temp.text k) = 1) := by
  induction k with
  | zero => exact ⟨τ, rfl, by omega⟩
  | succ k ih =>
    obtain ⟨τ', hrun, -⟩ := ih
    refine ⟨τ'.set (Temp.text (k + 1)) 1, ?_, fun _ => by simp [Store.set]⟩
    simp only [ones, Expr.codeAfter, List.append_nil]
    rw [runAll_append_of_ok hrun]
    simp [runAll, OneStore.step, Arithmetic.apply, takeRight, Operand.valueIn,
      Expr.operandAfter]

theorem codeAfter_program (k : Nat) :
    Program.codeAfter 0 (program k) =
      .copy (Temp.text k) (.literal 0) :: ((ones k).codeAfter 0 ++
        [.binary (k + 1) ((ones k).operandAfter 0) .add (.var (Temp.text k)),
          .copy (Temp.text k) (.temp (k + 1))]) := by
  simp [program, Program.codeAfter, Statement.codeAfter, Expr.codeAfter, Expr.operandAfter]

theorem run_program {k : Nat} (hk : 0 < k) (σ : Store) :
    ∃ τ, runAll (OneStore.step takeRight) σ (Program.codeAfter 0 (program k)) = .ok τ ∧
      τ (Temp.text k) = 1 := by
  obtain ⟨τ, hrun, hτ⟩ := run_ones k (σ.set (Temp.text k) 0)
  refine ⟨(τ.set (Temp.text (k + 1)) 1).set (Temp.text k) 1, ?_, by simp [Store.set]⟩
  rw [codeAfter_program]
  simp only [runAll, OneStore.step, Operand.valueIn]
  rw [runAll_append_of_ok hrun]
  simp [runAll, OneStore.step, Operand.valueIn, Arithmetic.apply, takeRight, hτ hk, Store.set]

theorem disciplined_program (k : Nat) : (program k).Disciplined [] := by
  have hassignment : Statement.Admitted [Temp.text k] ⟨⟨.assignment, Temp.text k, .start⟩,
      .binary .add (ones k) (.var (Temp.text k) .start) .start⟩ := by
    rw [Statement.admitted_assignment rfl]
    refine ⟨by simp, ?_⟩
    intro x hx
    cases hx with
    | left _ _ _ hx => exact absurd hx (not_mentions_ones k x)
    | right _ _ _ hx =>
      cases hx
      simp
  refine .cons ?_ (.cons hassignment (Program.disciplined_nil _))
  rw [Statement.admitted_declaration rfl]
  refine ⟨by simp, ?_⟩
  intro x hx
  cases hx

theorem isWritable_program (k : Nat) : ∀ s ∈ program k, s.IsWritable := by
  have hname : (Token.Kind.identifier (Temp.text k)).isWritable = true := by
    have hvar : Temp.text k ≠ "var" := by
      intro h
      simpa [Temp.text] using congrArg String.toList h
    simp [Token.Kind.isWritable, isName_temp, hvar]
  simp only [program, List.forall_mem_cons]
  refine ⟨⟨hname, by simp [Expr.Node.kind, Token.Kind.isWritable]⟩, ⟨hname, ?_⟩, by simp⟩
  simp only [Expr.nodes_binary, Expr.nodes_var, List.forall_mem_append, List.forall_mem_cons]
  exact ⟨⟨isWritable_ones k, hname, by simp⟩, rfl, by simp⟩

/-- The program as a text: it is read as itself, and compiles with its one name declared. -/
theorem compile_render (k : Nat) :
    ∃ q t, Program.ofSource (program k).render = .ok q ∧ q.unplaced = (program k).unplaced ∧
      compile (program k).render = .ok ⟨q.code, t⟩ ∧ t.names = [Temp.text k] := by
  obtain ⟨q, hq, hplaces⟩ := Program.ofSource_render (isWritable_program k) (by
    simp [program, Expr.nesting, Expr.tightness, Operator.isProduct])
  have hdisciplined : q.Disciplined [] := by
    rw [← Program.disciplined_unplaced, hplaces, Program.disciplined_unplaced]
    exact disciplined_program k
  have hcheck : (SymbolTable.empty.check q).1 = .ok () :=
    (SymbolTable.check_eq_ok_iff _ q).2 hdisciplined
  have hnames : q.declaredNames = [Temp.text k] := by
    rw [← Program.declaredNames_unplaced, hplaces]
    rfl
  refine ⟨q, (SymbolTable.empty.check q).2, hq, hplaces, ?_, ?_⟩
  · exact (compile_eq_ok_iff _ _).2 ⟨q, hq, hcheck, rfl⟩
  · rw [SymbolTable.names_eq_of_toList (SymbolTable.toList_check hcheck), hnames]
    rfl

end StraightLine.Clash
