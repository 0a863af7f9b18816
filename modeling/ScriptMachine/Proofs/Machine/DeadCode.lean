import ScriptMachine.Proofs.Machine.Transition

/-!
# Dead code

An instruction in a branch that is not taken can only open and close branches and loops. All else it
leaves as it is, whether or not it fails.
-/

namespace ScriptMachine

namespace Machine

variable (m : Machine) (ctx : Context) (index : Nat) (s : State)

theorem exists_after_perform_conditional {op : Opcode} (hcond : op.isConditional = true) :
    ∃ control, (m.perform ctx index false op).after s = { s with control := control } := by
  cases hresult : m.perform ctx index false op s with
  | error fault t =>
    rw [Action.after_of_error hresult, eq_of_perform_conditional_eq_error hcond hresult]
    exact ⟨s.control, rfl⟩
  | ok _ t =>
    rw [Action.after_of_ok hresult]
    cases op with
    | flow op =>
      cases op with
      | branch | branchNot =>
        cases hresult
        exact ⟨_, rfl⟩
      | «otherwise» =>
        change Action.turnBranch s = .ok () t at hresult
        unfold Action.turnBranch at hresult
        split at hresult <;> cases hresult
        exact ⟨_, rfl⟩
      | endBranch =>
        change Action.closeBranch s = .ok () t at hresult
        unfold Action.closeBranch at hresult
        split at hresult <;> cases hresult
        · exact ⟨_, rfl⟩
        · exact ⟨_, rfl⟩
      | verify | halt => simp [Opcode.isConditional] at hcond
    | loop op =>
      cases op with
      | begin =>
        cases hresult
        exact ⟨_, rfl⟩
      | «until» =>
        change Action.closeLoop m.policy index false s = .ok () t at hresult
        by_cases hloop : ∃ start rest, s.control = .loop start :: rest
        · obtain ⟨start, rest, hs⟩ := hloop
          rw [Action.closeLoop_false_apply hs] at hresult
          cases hresult
          exact ⟨rest, rfl⟩
        · rw [Action.closeLoop_of_not_loop (by simpa using hloop)] at hresult
          cases hresult
    | _ => simp [Opcode.isConditional] at hcond

/-- An instruction that is not taken changes the open constructs and the count of operations. -/
theorem exists_after_execute_dead (i : Instruction) :
    ∃ control operations, (m.execute ctx index false i).after s =
      { s with control := control, operations := operations } := by
  cases i with
  | truncated opcode shortfall => exact ⟨s.control, s.operations, rfl⟩
  | push opcode data =>
    refine ⟨s.control, s.operations, ?_⟩
    change (m.pushData false _ data).after s = s
    unfold pushData
    split <;> rfl
  | operation byte =>
    change ∃ control operations, (m.operate ctx index false byte).after s = _
    unfold operate
    cases hcount : m.countOperation byte s with
    | error fault t =>
      obtain ⟨operations, rfl⟩ := countOperation_eq_error hcount
      exact ⟨s.control, operations, Action.after_bind_of_error _ hcount⟩
    | ok _ t =>
      obtain ⟨operations, rfl, -⟩ := countOperation_eq_ok hcount
      rw [Action.after_bind_of_ok _ hcount]
      cases hop : Opcode.ofByte? m.policy.edition byte with
      | none => exact ⟨s.control, operations, rfl⟩
      | some op =>
        cases hfails : failsAlways op with
        | some fault =>
          refine ⟨s.control, operations, ?_⟩
          simp only [hfails]
          rfl
        | none =>
          simp only [hfails, Bool.false_or]
          cases hcond : op.isConditional with
          | false => exact ⟨s.control, operations, rfl⟩
          | true =>
            obtain ⟨control, hcontrol⟩ := m.exists_after_perform_conditional ctx index
              { s with operations := operations } hcond
            exact ⟨control, operations, hcontrol⟩

variable {s} in
/-- A step through code that is not taken charges for its instruction, and apart from that leaves
the data as it is. -/
theorem exists_step_dead (hhalt : s.isHalted = false) (hdead : s.isExecuting = false) :
    ∃ control operations memory fault, m.step ctx s =
      { m.advance s with
        control := control
        operations := operations
        meter := (m.advance s).meter.observeMemory memory
        fault := fault } := by
  have hlt := State.pointer_lt_of_not_halted hhalt
  have hnext : s.next? = some s.program[s.pointer] := List.getElem?_eq_getElem hlt
  obtain ⟨control, operations, hafter⟩ :=
    m.exists_after_execute_dead ctx s.pointer (m.advance s) s.program[s.pointer]
  rw [step_eq_settle hhalt hnext, hdead]
  cases hexecute : m.execute ctx s.pointer false s.program[s.pointer] (m.advance s) with
  | error fault t =>
    rw [Action.after_of_error hexecute] at hafter
    refine ⟨control, operations, 0, some fault, ?_⟩
    simp only [Bind.bind, EStateM.bind, hexecute, settle, hafter]
    simp [Meter.observeMemory]
  | ok _ t =>
    rw [Action.after_of_ok hexecute] at hafter
    subst hafter
    simp only [Bind.bind, EStateM.bind, hexecute]
    cases hlimits : m.checkLimits
        { m.advance s with control := control, operations := operations } with
    | error fault u =>
      obtain ⟨memory, rfl⟩ := checkLimits_eq_error hlimits
      exact ⟨control, operations, memory, some fault, rfl⟩
    | ok _ u =>
      obtain ⟨-, -, -, rfl⟩ := checkLimits_eq_ok hlimits
      exact ⟨control, operations, _, (m.advance s).fault, rfl⟩

end Machine

theorem State.executesNext_of_isExecuting {s : State} (hhalt : s.isHalted = false)
    (h : s.isExecuting = true) : s.executesNext = true := by
  have hlt := State.pointer_lt_of_not_halted hhalt
  have henclosing : s.isEnclosingExecuting = true := by
    rw [isExecuting, List.all_eq_true] at h
    rw [isEnclosingExecuting, List.all_eq_true]
    exact fun marker hmarker ↦ h marker (List.mem_of_mem_tail hmarker)
  simp [executesNext, next?, hlt, h, henclosing]

end ScriptMachine
