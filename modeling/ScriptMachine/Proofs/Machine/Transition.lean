import ScriptMachine.Proofs.Machine.OpcodeEffect

/-!
# What a step can do

A step either changes nothing, or charges for an instruction and then fails, or carries the
instruction out and holds the result to the limits. The relations below list all that can happen on
the way, so that a property of steps is proved by going through the list, and not through the
opcodes.
-/

namespace ScriptMachine

/-- The opcode that an instruction calls in an edition; a push calls none. -/
def Instruction.called? (edition : Edition) : Instruction → Option Opcode
  | operation byte => Opcode.ofByte? edition byte
  | _ => none

/-- All counters are within their budgets. -/
structure Meter.WithinBudget (m : Meter) : Prop where
  cost : m.cost ≤ m.budget.cost
  hashIterations : m.hashIterations ≤ m.budget.hashIterations
  signatureChecks : m.signatureChecks ≤ m.budget.signatureChecks

theorem Meter.overdraft?_eq_none_iff (m : Meter) : m.overdraft? = none ↔ m.WithinBudget := by
  unfold Meter.overdraft?
  constructor
  · intro h
    split_ifs at h with hcost hhash hsig
    exact ⟨Nat.le_of_not_lt hcost, Nat.le_of_not_lt hhash, Nat.le_of_not_lt hsig⟩
  · rintro ⟨hcost, hhash, hsig⟩
    simp [Nat.not_lt.mpr hcost, Nat.not_lt.mpr hhash, Nat.not_lt.mpr hsig]

/-- What an instruction with this index does to a state where it is carried out. -/
inductive Turn (m : Machine) (index : Nat) (i : Instruction) (s : State) : State → Prop
  /-- The instruction is no part of a branch or a loop. -/
  | data {t : State}
      (hop : ∀ op, i.called? m.policy.edition = some op → op.isConditional = false)
      (h : DataMoves m.policy s t) : Turn m index i s t
  | separator (hop : i.called? m.policy.edition = some .codeSeparator) :
      Turn m index i s { s with separator := some index }
  | openBranch {t : State} (taken : Bool)
      (hop : i.called? m.policy.edition = some (.flow .branch) ∨
        i.called? m.policy.edition = some (.flow .branchNot))
      (h : DataMoves m.policy s t) :
      Turn m index i s { t with control := .branch taken :: s.control }
  | turnBranch {taken : Bool} {rest : List Marker}
      (hop : i.called? m.policy.edition = some (.flow .otherwise))
      (hs : s.control = .branch taken :: rest) :
      Turn m index i s { s with control := .alternative (!taken) :: rest }
  | closeBranch {marker : Marker} {rest : List Marker}
      (hop : i.called? m.policy.edition = some (.flow .endBranch))
      (hs : s.control = marker :: rest) (hmarker : ∀ start, marker ≠ .loop start) :
      Turn m index i s { s with control := rest }
  | openLoop (hop : i.called? m.policy.edition = some (.loop .begin)) :
      Turn m index i s { s with control := .loop (index + 1) :: s.control }
  | leaveLoop {t : State} {start : Nat} {rest : List Marker}
      (hop : i.called? m.policy.edition = some (.loop .until))
      (hs : s.control = .loop start :: rest) (h : DataMoves m.policy s t) :
      Turn m index i s { t with control := rest }
  /-- The loop goes back to the start of its body, which is charged for. -/
  | repeatLoop {t : State} {start : Nat} {rest : List Marker}
      (hop : i.called? m.policy.edition = some (.loop .until))
      (hs : s.control = .loop start :: rest) (h : DataMoves m.policy s t) :
      Turn m index i s
        { t with
          meter := t.meter.countRepeated m.policy (Action.spanLength s.program start index)
          pointer := start }

/-- What a step does to a state. -/
inductive Transition (m : Machine) (s : State) : State → Prop
  /-- A halted state stays as it is. -/
  | halted (h : s.isHalted = true) : Transition m s s
  /-- The instruction fails. -/
  | failed {t : State} (operations : Nat) (fault : Fault) (hs : s.isHalted = false)
      (h : DataMoves m.policy { m.advance s with operations := operations } t) :
      Transition m s { t with fault := some fault }
  /-- The instruction is carried out, but a limit is passed. -/
  | exceeded {i : Instruction} {t : State} (operations memory : Nat) (fault : Fault)
      (hs : s.isHalted = false) (hi : s.next? = some i)
      (h : Turn m s.pointer i { m.advance s with operations := operations } t) :
      Transition m s { t with meter := t.meter.observeMemory memory, fault := some fault }
  /-- The instruction is carried out within the limits. -/
  | done {i : Instruction} {t : State} (operations : Nat)
      (hs : s.isHalted = false) (hi : s.next? = some i)
      (hoperations : ∀ limit, m.policy.limits.operationCount = some limit →
        s.operations ≤ limit → operations ≤ limit)
      (h : Turn m s.pointer i { m.advance s with operations := operations } t)
      (hdepth : t.depth ≤ m.policy.limits.stackDepth)
      (hcontrol : ∀ limit, m.policy.limits.controlDepth = some limit → t.control.length ≤ limit)
      (hbudget : t.meter.WithinBudget) :
      Transition m s { t with meter := t.meter.observeMemory t.memoryUsage }

/-- An instruction leaves the program, the count of operations and the fault alone. -/
theorem Turn.frame {m : Machine} {index : Nat} {i : Instruction} {s t : State}
    (h : Turn m index i s t) :
    t = { t with program := s.program, operations := s.operations, fault := s.fault } := by
  cases h with
  | data hop h => rw [h.frame]
  | openBranch taken hop h => rw [h.frame]
  | leaveLoop hop hs h => rw [h.frame]
  | repeatLoop hop hs h => rw [h.frame]
  | separator | turnBranch | closeBranch | openLoop => rfl

/-- Of the data, an instruction changes what data moves change; a loop that repeats is charged for
beside. -/
theorem Turn.data_eq {m : Machine} {index : Nat} {i : Instruction} {s t : State}
    (h : Turn m index i s t) :
    ∃ u, DataMoves m.policy s u ∧ t.stack = u.stack ∧ t.alt = u.alt ∧
      (t.meter = u.meter ∨ ∃ bytes, t.meter = u.meter.countRepeated m.policy bytes) := by
  cases h with
  | data hop h => exact ⟨t, h, rfl, rfl, .inl rfl⟩
  | @openBranch u taken hop h => exact ⟨u, h, rfl, rfl, .inl rfl⟩
  | @leaveLoop u start rest hop hs h => exact ⟨u, h, rfl, rfl, .inl rfl⟩
  | @repeatLoop u start rest hop hs h => exact ⟨u, h, rfl, rfl, .inr ⟨_, rfl⟩⟩
  | separator | turnBranch | closeBranch | openLoop => exact ⟨s, .refl, rfl, rfl, .inl rfl⟩

/-- A property of the meter that every charge keeps is kept by an instruction. -/
theorem Turn.meter_invariant {m : Machine} {Q : Meter → Prop}
    (hcharge : ∀ meter meter', Charge m.policy meter meter' → Q meter → Q meter')
    (hrepeat : ∀ meter bytes, Q meter → Q (meter.countRepeated m.policy bytes)) {index : Nat}
    {i : Instruction} {s t : State} (h : Turn m index i s t) (hs : Q s.meter) : Q t.meter := by
  obtain ⟨u, hu, -, -, hmeter | ⟨bytes, hmeter⟩⟩ := h.data_eq
  · rw [hmeter]
    exact hu.meter_invariant hcharge hs
  · rw [hmeter]
    exact hrepeat _ bytes (hu.meter_invariant hcharge hs)

/-- A property of the meter that every charge and every observation keep is kept by a step. -/
theorem Transition.meter_invariant {m : Machine} {Q : Meter → Prop}
    (hinstruction : ∀ meter, Q meter → Q (meter.countInstruction m.policy))
    (hcharge : ∀ meter meter', Charge m.policy meter meter' → Q meter → Q meter')
    (hrepeat : ∀ meter bytes, Q meter → Q (meter.countRepeated m.policy bytes))
    (hmemory : ∀ meter bytes, Q meter → Q (meter.observeMemory bytes)) {s t : State}
    (h : Transition m s t) (hs : Q s.meter) : Q t.meter := by
  cases h with
  | halted => exact hs
  | failed operations fault hhalt h => exact h.meter_invariant hcharge (hinstruction _ hs)
  | exceeded operations memory fault hhalt hi h =>
    exact hmemory _ memory (h.meter_invariant hcharge hrepeat (hinstruction _ hs))
  | done operations hhalt hi hoperations h =>
    exact hmemory _ _ (h.meter_invariant hcharge hrepeat (hinstruction _ hs))

theorem State.fault_eq_none_of_not_halted {s : State} (h : s.isHalted = false) :
    s.fault = none := by
  have hfault := (Bool.or_eq_false_iff.mp h).1
  simpa using hfault

theorem State.pointer_lt_of_not_halted {s : State} (h : s.isHalted = false) :
    s.pointer < s.program.length := by
  have hend := (Bool.or_eq_false_iff.mp h).2
  simpa using hend

theorem Transition.program_eq {m : Machine} {s t : State} (h : Transition m s t) :
    t.program = s.program := by
  cases h with
  | halted => rfl
  | failed operations fault hs h => rw [h.frame]; rfl
  | exceeded operations memory fault hs hi h => rw [h.frame]; rfl
  | done operations hs hi hoperations h => rw [h.frame]; rfl

/-! ## Branches and loops -/

namespace Action

variable {p : Policy} {s : State} {start : Nat} {rest : List Marker}

theorem openBranch_false_apply (negate : Bool) (s : State) :
    openBranch false negate s = .ok () { s with control := .branch false :: s.control } := rfl

theorem openBranch_true_apply (negate : Bool) (s : State) :
    openBranch true negate s =
      match s.stack with
      | [] => .error .emptyStack s
      | top :: stack => .ok () { s with
          stack := stack
          control := .branch (ScriptNumber.isTruthy top != negate) :: s.control } := by
  cases hs : s.stack with
  | nil => simp [openBranch, Bind.bind, EStateM.bind, pop, hs]
  | cons top stack =>
    simp only [openBranch, Bind.bind, EStateM.bind, pop, hs, if_true]
    rfl

theorem closeLoop_false_apply (hs : s.control = .loop start :: rest) (index : Nat) :
    closeLoop p index false s = .ok () { s with control := rest } := by
  have hleave : leave s = .ok () { s with control := rest } := by
    change EStateM.Result.ok () { s with control := s.control.tail } = _
    rw [hs, List.tail_cons]
  rw [← hleave]
  simp [closeLoop, Bind.bind, EStateM.bind, get, getThe, MonadStateOf.get, EStateM.get, hs]

theorem closeLoop_true_apply (hs : s.control = .loop start :: rest) (index : Nat) :
    closeLoop p index true s =
      match s.stack with
      | [] => .error .emptyStack s
      | top :: stack =>
        if ScriptNumber.isTruthy top then .ok () { s with stack := stack, control := rest }
        else .ok () { s with
          stack := stack
          meter := s.meter.countRepeated p (spanLength s.program start index)
          pointer := start } := by
  simp only [closeLoop, Bind.bind, EStateM.bind, get, getThe, MonadStateOf.get, EStateM.get, hs,
    if_true]
  cases hstack : s.stack with
  | nil => simp [pop, hstack]
  | cons top stack =>
    simp only [pop, hstack]
    by_cases htop : ScriptNumber.isTruthy top = true
    · rw [if_pos htop, if_pos htop]
      change EStateM.Result.ok () { s with stack := stack, control := s.control.tail } = _
      rw [hs, List.tail_cons]
    · rw [if_neg htop, if_neg htop, ← hs]
      rfl

theorem closeLoop_of_not_loop (hs : ∀ start rest, s.control ≠ .loop start :: rest) (index : Nat)
    (executing : Bool) : closeLoop p index executing s = .error .unexpectedUntil s := by
  simp only [closeLoop, Bind.bind, EStateM.bind, get, getThe, MonadStateOf.get, EStateM.get]
  rfl

end Action

namespace Machine

variable {m : Machine} {ctx : Context} {index : Nat} {executing : Bool} {s t : State}

theorem turn_openBranch {negate : Bool} {i : Instruction}
    (hop : i.called? m.policy.edition = some (.flow .branch) ∨
      i.called? m.policy.edition = some (.flow .branchNot))
    (h : Action.openBranch executing negate s = .ok () t) : Turn m index i s t := by
  cases executing with
  | false =>
    rw [Action.openBranch_false_apply] at h
    cases h
    exact .openBranch false hop .refl
  | true =>
    rw [Action.openBranch_true_apply] at h
    cases hs : s.stack with
    | nil => simp [hs] at h
    | cons top stack =>
      simp only [hs] at h
      cases h
      exact .openBranch (t := { s with stack := stack }) _ hop (.dropTop hs)

theorem turn_closeLoop {i : Instruction} (hop : i.called? m.policy.edition = some (.loop .until))
    (h : Action.closeLoop m.policy index executing s = .ok () t) : Turn m index i s t := by
  by_cases hloop : ∃ start rest, s.control = .loop start :: rest
  · obtain ⟨start, rest, hs⟩ := hloop
    cases executing with
    | false =>
      rw [Action.closeLoop_false_apply hs] at h
      cases h
      exact .leaveLoop hop hs .refl
    | true =>
      rw [Action.closeLoop_true_apply hs] at h
      cases hstack : s.stack with
      | nil => simp [hstack] at h
      | cons top stack =>
        have hmoves : DataMoves m.policy s { s with stack := stack } := .dropTop hstack
        simp only [hstack] at h
        split at h
        · cases h
          exact .leaveLoop hop hs hmoves
        · cases h
          exact .repeatLoop hop hs hmoves
  · rw [Action.closeLoop_of_not_loop (by simpa using hloop)] at h
    cases h

/-- What an opcode of a branch or a loop does where it succeeds. -/
theorem turn_of_perform_conditional {op : Opcode} {i : Instruction}
    (hop : i.called? m.policy.edition = some op) (hcond : op.isConditional = true)
    (h : m.perform ctx index executing op s = .ok () t) : Turn m index i s t := by
  cases op with
  | flow op =>
    cases op with
    | branch => exact turn_openBranch (.inl hop) h
    | branchNot => exact turn_openBranch (.inr hop) h
    | «otherwise» =>
      change Action.turnBranch s = .ok () t at h
      unfold Action.turnBranch at h
      split at h
      · cases h
        exact .turnBranch hop ‹_›
      · cases h
      · cases h
    | endBranch =>
      change Action.closeBranch s = .ok () t at h
      unfold Action.closeBranch at h
      split at h
      · cases h
        exact .closeBranch hop ‹_› (by simp)
      · cases h
        exact .closeBranch hop ‹_› (by simp)
      · cases h
    | verify => simp [Opcode.isConditional] at hcond
    | halt => simp [Opcode.isConditional] at hcond
  | loop op =>
    cases op with
    | begin =>
      change Action.openLoop index s = .ok () t at h
      cases h
      exact .openLoop hop
    | «until» => exact turn_closeLoop hop h
  | _ => simp [Opcode.isConditional] at hcond

theorem eq_of_openBranch_eq_error {negate : Bool} {fault : Fault}
    (h : Action.openBranch executing negate s = .error fault t) : t = s := by
  cases executing with
  | false => cases h
  | true =>
    rw [Action.openBranch_true_apply] at h
    split at h
    · cases h
      rfl
    · cases h

theorem eq_of_closeLoop_eq_error {p : Policy} {fault : Fault}
    (h : Action.closeLoop p index executing s = .error fault t) : t = s := by
  by_cases hloop : ∃ start rest, s.control = .loop start :: rest
  · obtain ⟨start, rest, hs⟩ := hloop
    cases executing with
    | false =>
      rw [Action.closeLoop_false_apply hs] at h
      cases h
    | true =>
      rw [Action.closeLoop_true_apply hs] at h
      split at h
      · cases h
        rfl
      · split at h <;> cases h
  · rw [Action.closeLoop_of_not_loop (by simpa using hloop)] at h
    cases h
    rfl

/-- An opcode of a branch or a loop that fails leaves the state as it is. -/
theorem eq_of_perform_conditional_eq_error {op : Opcode} {fault : Fault}
    (hcond : op.isConditional = true)
    (h : m.perform ctx index executing op s = .error fault t) : t = s := by
  cases op with
  | flow op =>
    cases op with
    | branch => exact eq_of_openBranch_eq_error h
    | branchNot => exact eq_of_openBranch_eq_error h
    | «otherwise» =>
      change Action.turnBranch s = .error fault t at h
      unfold Action.turnBranch at h
      split at h <;> cases h <;> rfl
    | endBranch =>
      change Action.closeBranch s = .error fault t at h
      unfold Action.closeBranch at h
      split at h <;> cases h
      rfl
    | verify => simp [Opcode.isConditional] at hcond
    | halt => simp [Opcode.isConditional] at hcond
  | loop op =>
    cases op with
    | begin => cases h
    | «until» => exact eq_of_closeLoop_eq_error h
  | _ => simp [Opcode.isConditional] at hcond

/-! ## Instructions -/

theorem countOperation_eq_ok {byte : UInt8} (h : m.countOperation byte s = .ok () t) :
    ∃ operations, t = { s with operations := operations } ∧
      ∀ limit, m.policy.limits.operationCount = some limit → s.operations ≤ limit →
        operations ≤ limit := by
  unfold countOperation at h
  split at h
  · cases h
    exact ⟨s.operations, rfl, fun _ _ hs ↦ hs⟩
  · split at h
    · cases h
      exact ⟨_, rfl, by simp_all⟩
    · dsimp only at h
      split at h
      · cases h
      · cases h
        refine ⟨_, rfl, fun limit hlimit _ ↦ ?_⟩
        simp_all

theorem countOperation_eq_error {byte : UInt8} {fault : Fault}
    (h : m.countOperation byte s = .error fault t) :
    ∃ operations, t = { s with operations := operations } := by
  unfold countOperation at h
  split at h
  · cases h
  · split at h
    · cases h
    · dsimp only at h
      split at h
      · cases h
        exact ⟨_, rfl⟩
      · cases h

/-- What an instruction does where it succeeds. -/
theorem turn_of_execute {i : Instruction} (h : m.execute ctx index executing i s = .ok () t) :
    ∃ operations,
      (∀ limit, m.policy.limits.operationCount = some limit → s.operations ≤ limit →
        operations ≤ limit) ∧
      Turn m index i { s with operations := operations } t := by
  cases i with
  | truncated opcode shortfall => cases h
  | push opcode data =>
    change m.pushData executing (.push opcode data) data s = .ok () t at h
    refine ⟨s.operations, fun _ _ hs ↦ hs, .data (by simp [Instruction.called?]) ?_⟩
    exact Action.after_of_ok h ▸ m.isData_pushData executing (.push opcode data) data s
  | operation byte =>
    obtain ⟨_, u, hu, ht⟩ := Action.bind_eq_ok h
    obtain ⟨operations, rfl, hlimit⟩ := countOperation_eq_ok hu
    refine ⟨operations, hlimit, ?_⟩
    cases hop : Opcode.ofByte? m.policy.edition byte with
    | none =>
      simp only [hop] at ht
      split at ht
      · cases ht
      · cases ht
        exact .data (by simp [Instruction.called?, hop]) .refl
    | some op =>
      have hcalled : (Instruction.operation byte).called? m.policy.edition = some op := hop
      cases hfails : failsAlways op with
      | some fault =>
        simp only [hop, hfails] at ht
        cases ht
      | none =>
        simp only [hop, hfails] at ht
        cases hcond : op.isConditional with
        | true =>
          rw [if_pos (by simp [hcond])] at ht
          exact turn_of_perform_conditional hcalled hcond ht
        | false =>
          have hother : ∀ op', (Instruction.operation byte).called? m.policy.edition = some op' →
              op'.isConditional = false := by
            intro op' hop'
            rw [hcalled] at hop'
            cases hop'
            exact hcond
          split at ht
          · by_cases hsep : op = .codeSeparator
            · subst hsep
              cases ht
              exact .separator hcalled
            · exact .data hother
                (Action.after_of_ok ht ▸ m.isData_perform ctx index executing hcond hsep _)
          · cases ht
            exact .data hother .refl

/-- An instruction that fails has only moved data until then. -/
theorem dataMoves_of_execute_eq_error {i : Instruction} {fault : Fault}
    (h : m.execute ctx index executing i s = .error fault t) :
    ∃ operations, DataMoves m.policy { s with operations := operations } t := by
  cases i with
  | truncated opcode shortfall =>
    cases h
    exact ⟨s.operations, .refl⟩
  | push opcode data =>
    change m.pushData executing (.push opcode data) data s = .error fault t at h
    exact ⟨s.operations,
      Action.after_of_error h ▸ m.isData_pushData executing (.push opcode data) data s⟩
  | operation byte =>
    rcases Action.bind_eq_error h with hcount | ⟨_, u, hu, ht⟩
    · obtain ⟨operations, rfl⟩ := countOperation_eq_error hcount
      exact ⟨operations, .refl⟩
    · obtain ⟨operations, rfl, -⟩ := countOperation_eq_ok hu
      refine ⟨operations, ?_⟩
      cases hop : Opcode.ofByte? m.policy.edition byte with
      | none =>
        simp only [hop] at ht
        split at ht
        · cases ht
          exact .refl
        · cases ht
      | some op =>
        cases hfails : failsAlways op with
        | some fault =>
          simp only [hop, hfails] at ht
          cases ht
          exact .refl
        | none =>
          simp only [hop, hfails] at ht
          split at ht
          · cases hcond : op.isConditional with
            | true => rw [eq_of_perform_conditional_eq_error hcond ht]
            | false =>
              by_cases hsep : op = .codeSeparator
              · subst hsep
                cases ht
              · exact Action.after_of_error ht ▸ m.isData_perform ctx index executing hcond hsep _
          · cases ht

/-! ## Steps -/

theorem checkLimits_eq_ok (h : m.checkLimits s = .ok () t) :
    s.depth ≤ m.policy.limits.stackDepth ∧
      (∀ limit, m.policy.limits.controlDepth = some limit → s.control.length ≤ limit) ∧
      s.meter.WithinBudget ∧ t = { s with meter := s.meter.observeMemory s.memoryUsage } := by
  unfold checkLimits at h
  dsimp only at h
  split at h
  · cases h
  · rename_i hdepth
    split at h
    · cases h
    · rename_i hcontrol
      split at h
      · cases h
      · rename_i hbudget
        cases h
        refine ⟨Nat.le_of_not_lt hdepth, fun limit hlimit ↦ ?_, ?_, rfl⟩
        · rw [hlimit, Option.filter_eq_none_iff] at hcontrol
          simpa using hcontrol limit rfl
        · exact (Meter.overdraft?_eq_none_iff _).mp hbudget

theorem checkLimits_of_le (hdepth : s.depth ≤ m.policy.limits.stackDepth)
    (hcontrol : ∀ limit, m.policy.limits.controlDepth = some limit → s.control.length ≤ limit)
    (hbudget : s.meter.WithinBudget) :
    m.checkLimits s = .ok () { s with meter := s.meter.observeMemory s.memoryUsage } := by
  have hfilter : m.policy.limits.controlDepth.filter (· < s.control.length) = none := by
    rw [Option.filter_eq_none_iff]
    intro limit hlimit
    simpa using hcontrol limit hlimit
  have hoverdraft : (s.meter.observeMemory s.memoryUsage).overdraft? = none :=
    (Meter.overdraft?_eq_none_iff _).mpr ⟨hbudget.1, hbudget.2, hbudget.3⟩
  unfold checkLimits
  simp only [if_neg (Nat.not_lt.mpr hdepth), hfilter, hoverdraft]

theorem checkLimits_eq_error {fault : Fault} (h : m.checkLimits s = .error fault t) :
    ∃ memory, t = { s with meter := s.meter.observeMemory memory } := by
  have hzero : s = { s with meter := s.meter.observeMemory 0 } := by simp [Meter.observeMemory]
  unfold checkLimits at h
  dsimp only at h
  split at h
  · cases h
    exact ⟨0, hzero⟩
  · split at h
    · cases h
      exact ⟨0, hzero⟩
    · split at h
      · cases h
        exact ⟨s.memoryUsage, rfl⟩
      · cases h

theorem step_eq_settle {i : Instruction} (hhalt : s.isHalted = false) (hnext : s.next? = some i) :
    m.step ctx s = settle
      ((m.execute ctx s.pointer s.isExecuting i >>= fun _ ↦ m.checkLimits) (m.advance s)) := by
  simp only [step, hhalt, hnext, Bool.false_eq_true, if_false]

/-- A step that adds no fault has carried out its instruction. -/
theorem execute_of_step {i : Instruction} (hhalt : s.isHalted = false) (hnext : s.next? = some i)
    (hfault : (m.step ctx s).fault = none) :
    ∃ t, m.execute ctx s.pointer s.isExecuting i (m.advance s) = .ok () t ∧
      m.step ctx s = { t with meter := t.meter.observeMemory t.memoryUsage } := by
  rw [step_eq_settle hhalt hnext] at hfault ⊢
  generalize hresult : (m.execute ctx s.pointer s.isExecuting i >>= fun _ ↦ m.checkLimits)
    (m.advance s) = result at hfault ⊢
  cases result with
  | ok _ t =>
    obtain ⟨_, u, hu, ht⟩ := Action.bind_eq_ok hresult
    obtain ⟨-, -, -, rfl⟩ := checkLimits_eq_ok ht
    exact ⟨u, hu, rfl⟩
  | error fault t => cases hfault

/-- Every step is one of the listed ones. -/
theorem transition_step (m : Machine) (ctx : Context) (s : State) :
    Transition m s (m.step ctx s) := by
  cases hhalt : s.isHalted with
  | true =>
    have hstep : m.step ctx s = s := by simp [step, hhalt]
    rw [hstep]
    exact .halted hhalt
  | false =>
    have hlt := State.pointer_lt_of_not_halted hhalt
    have hnext : s.next? = some s.program[s.pointer] := List.getElem?_eq_getElem hlt
    rw [step_eq_settle hhalt hnext]
    generalize hresult : (m.execute ctx s.pointer s.isExecuting s.program[s.pointer] >>=
      fun _ ↦ m.checkLimits) (m.advance s) = result
    cases result with
    | ok _ t =>
      obtain ⟨_, u, hu, ht⟩ := Action.bind_eq_ok hresult
      obtain ⟨operations, hlimit, hturn⟩ := turn_of_execute hu
      obtain ⟨hdepth, hcontrol, hbudget, rfl⟩ := checkLimits_eq_ok ht
      exact .done operations hhalt hnext hlimit hturn hdepth hcontrol hbudget
    | error fault t =>
      rcases Action.bind_eq_error hresult with hu | ⟨_, u, hu, ht⟩
      · obtain ⟨operations, hmoves⟩ := dataMoves_of_execute_eq_error hu
        exact .failed operations fault hhalt hmoves
      · obtain ⟨operations, -, hturn⟩ := turn_of_execute hu
        obtain ⟨memory, rfl⟩ := checkLimits_eq_error ht
        exact .exceeded operations memory fault hhalt hnext hturn

/-- What every listed step keeps holds after any number of steps. -/
theorem iterate_invariant {P : State → Prop} (hstep : ∀ s t, Transition m s t → P s → P t)
    {s : State} (hs : P s) (n : Nat) : P ((m.step ctx)^[n] s) := by
  induction n generalizing s with
  | zero => exact hs
  | succ n ih => exact ih (hstep _ _ (m.transition_step ctx s) hs)

end Machine

end ScriptMachine
