import ScriptMachine.Proofs.Machine.Transition

/-!
# Steps on opcodes

An opcode in code that is taken is charged for and counted before it is carried out, and the state
that it leaves is held to the limits. So a step on it fails in one of three ways: there were too
many opcodes before it, the opcode itself fails, or it leaves a state beyond a limit.
-/

namespace ScriptMachine

/-- The evaluation has come to an opcode, in code that is taken. -/
structure State.IsAt (s : State) (op : Opcode) : Prop where
  running : s.isHalted = false
  executing : s.isExecuting = true
  next : s.next? = some (.operation op.byte)

theorem State.IsAt.fault_eq_none {s : State} {op : Opcode} (hs : s.IsAt op) : s.fault = none :=
  State.fault_eq_none_of_not_halted hs.running

/-- The fault says that a limit is passed. -/
def Fault.IsLimit : Fault → Prop
  | itemTooLong _ _ | stackTooDeep _ | controlTooDeep _ | tooManyOperations _ | overdraft _ => True
  | _ => False

/-- The edition has the opcode, and the opcode is counted and may be carried out. -/
structure Opcode.IsOrdinary (edition : Edition) (op : Opcode) : Prop where
  known : ofByte? edition op.byte = some op
  fails : Machine.failsAlways op = none
  counts : maxPush < op.byte

theorem Opcode.isOrdinary_stack (edition : Edition) (op : StackOp) :
    IsOrdinary edition (.stack op) := by
  refine ⟨?_, rfl, ?_⟩
  · cases edition <;> cases op <;> decide
  · cases op <;> decide

theorem Opcode.isOrdinary_splice (edition : Edition) (op : SpliceOp) :
    IsOrdinary edition (.splice op) := by
  refine ⟨?_, rfl, ?_⟩
  · cases edition <;> cases op <;> decide
  · cases op <;> decide

theorem Opcode.isOrdinary_locktime (edition : Edition) (op : LocktimeOp) :
    IsOrdinary edition (.locktime op) := by
  refine ⟨?_, rfl, ?_⟩
  · cases edition <;> cases op <;> decide
  · cases op <;> decide

namespace Machine

/-- The state in which an opcode is carried out, once it is charged for and counted. -/
def counted (m : Machine) (s : State) : State :=
  { m.advance s with operations := (s.operations + 1) % UInt64.size }

/-- One more opcode is within the limit on their number. -/
def MayCount (m : Machine) (s : State) : Prop :=
  ∀ limit, m.policy.limits.operationCount = some limit → (m.counted s).operations ≤ limit

/-- The state is within the limits that a step holds it to. -/
structure Allows (m : Machine) (s : State) : Prop where
  depth : s.depth ≤ m.policy.limits.stackDepth
  control : ∀ limit, m.policy.limits.controlDepth = some limit → s.control.length ≤ limit
  budget : s.meter.WithinBudget

/-- A step fails only where a limit is passed. It succeeds exactly where what it pushes fits and the
state `t` is within the limits, and then it leads to that state, whose memory is noted. -/
structure Yields (m : Machine) (ctx : Context) (s t : State) (fits : Prop) : Prop where
  isLimit : ∀ fault, (m.step ctx s).fault = some fault → fault.IsLimit
  fault_eq_none_iff : (m.step ctx s).fault = none ↔ fits ∧ m.Allows t
  step_eq : fits → m.Allows t →
    m.step ctx s = { t with meter := t.meter.observeMemory t.memoryUsage }

variable {m : Machine} {ctx : Context} {s t : State} {op : Opcode} {fault : Fault} {fits : Prop}

section Counting

theorem countOperation_of_mayCount (hop : op.IsOrdinary m.policy.edition) (h : m.MayCount s) :
    m.countOperation op.byte (m.advance s) = .ok () (m.counted s) := by
  have hcounts : ¬ op.byte ≤ Opcode.maxPush := UInt8.not_le.mpr hop.counts
  rw [countOperation, if_neg hcounts]
  cases hlimit : m.policy.limits.operationCount with
  | none => rfl
  | some limit =>
    have hle : ¬ limit < (m.counted s).operations := Nat.not_lt.mpr (h limit hlimit)
    exact if_neg hle

theorem countOperation_of_lt {limit : Nat} (hop : op.IsOrdinary m.policy.edition)
    (hlimit : m.policy.limits.operationCount = some limit) (h : limit < (m.counted s).operations) :
    m.countOperation op.byte (m.advance s) =
      .error (.tooManyOperations limit) (m.counted s) := by
  have hcounts : ¬ op.byte ≤ Opcode.maxPush := UInt8.not_le.mpr hop.counts
  rw [countOperation, if_neg hcounts, hlimit]
  exact if_pos h

/-- Where an opcode is one too many, it is not carried out. -/
theorem step_of_overcount {limit : Nat} (hs : s.IsAt op) (hop : op.IsOrdinary m.policy.edition)
    (hlimit : m.policy.limits.operationCount = some limit) (h : limit < (m.counted s).operations) :
    m.step ctx s = { m.counted s with fault := some (.tooManyOperations limit) } := by
  have hoperate : m.operate ctx s.pointer true op.byte (m.advance s) =
      .error (.tooManyOperations limit) (m.counted s) :=
    Action.bind_of_error (countOperation_of_lt hop hlimit h)
  rw [step_eq_settle hs.running hs.next, hs.executing, execute, Action.bind_of_error hoperate]
  rfl

theorem step_of_mayCount (hs : s.IsAt op) (hop : op.IsOrdinary m.policy.edition)
    (hcount : m.MayCount s) :
    m.step ctx s =
      settle ((m.perform ctx s.pointer true op >>= fun _ ↦ m.checkLimits) (m.counted s)) := by
  have hoperate : m.operate ctx s.pointer true op.byte (m.advance s) =
      m.perform ctx s.pointer true op (m.counted s) := by
    rw [operate, Action.bind_of_ok (countOperation_of_mayCount hop hcount)]
    simp only [hop.known, hop.fails, Bool.true_or, if_true]
  rw [step_eq_settle hs.running hs.next, hs.executing, execute]
  change settle (EStateM.bind _ _ _) = settle (EStateM.bind _ _ _)
  rw [EStateM.bind, EStateM.bind, hoperate]

theorem mayCount_of_step (hs : s.IsAt op) (hop : op.IsOrdinary m.policy.edition)
    (hfault : (m.step ctx s).fault = none) : m.MayCount s := by
  intro limit hlimit
  by_contra hlt
  rw [step_of_overcount hs hop hlimit (Nat.lt_of_not_le hlt)] at hfault
  cases hfault

end Counting

theorem isLimit_of_checkLimits_eq_error (h : m.checkLimits s = .error fault t) :
    fault.IsLimit := by
  unfold checkLimits at h
  dsimp only at h
  split at h
  · cases h
    trivial
  · split at h
    · cases h
      trivial
    · split at h
      · cases h
        trivial
      · cases h

theorem stack_settle_checkLimits (m : Machine) (s : State) :
    (settle (m.checkLimits s)).stack = s.stack := by
  cases hresult : m.checkLimits s with
  | ok _ t =>
    obtain ⟨-, -, -, rfl⟩ := checkLimits_eq_ok hresult
    rfl
  | error fault t =>
    obtain ⟨memory, rfl⟩ := checkLimits_eq_error hresult
    rfl

theorem alt_settle_checkLimits (m : Machine) (s : State) :
    (settle (m.checkLimits s)).alt = s.alt := by
  cases hresult : m.checkLimits s with
  | ok _ t =>
    obtain ⟨-, -, -, rfl⟩ := checkLimits_eq_ok hresult
    rfl
  | error fault t =>
    obtain ⟨memory, rfl⟩ := checkLimits_eq_error hresult
    rfl

theorem fault_settle_checkLimits_eq_none_iff (hfault : s.fault = none) :
    (settle (m.checkLimits s)).fault = none ↔ m.Allows s := by
  refine ⟨fun hnone ↦ ?_, fun hallows ↦ ?_⟩
  · cases hresult : m.checkLimits s with
    | ok _ t =>
      obtain ⟨hdepth, hcontrol, hbudget, -⟩ := checkLimits_eq_ok hresult
      exact ⟨hdepth, hcontrol, hbudget⟩
    | error fault t =>
      rw [hresult] at hnone
      cases hnone
  · rw [checkLimits_of_le hallows.depth hallows.control hallows.budget]
    exact hfault

section Performing

variable (hs : s.IsAt op) (hop : op.IsOrdinary m.policy.edition) (hcount : m.MayCount s)

include hs hop hcount

theorem step_of_perform_eq_error
    (h : m.perform ctx s.pointer true op (m.counted s) = .error fault t) :
    m.step ctx s = { t with fault := some fault } := by
  rw [step_of_mayCount hs hop hcount, Action.bind_of_error h]
  rfl

theorem stack_step_of_perform (h : m.perform ctx s.pointer true op (m.counted s) = .ok () t) :
    (m.step ctx s).stack = t.stack := by
  rw [step_of_mayCount hs hop hcount, Action.bind_of_ok h, stack_settle_checkLimits]

/-- An opcode that leads to a state or fails because of a limit. -/
theorem yields_of_perform (hfault : t.fault = none)
    (hok : fits → m.perform ctx s.pointer true op (m.counted s) = .ok () t)
    (hfails : ¬ fits → ∃ fault u,
      m.perform ctx s.pointer true op (m.counted s) = .error fault u ∧ fault.IsLimit) :
    m.Yields ctx s t fits := by
  have hstep : fits → m.Allows t →
      m.step ctx s = { t with meter := t.meter.observeMemory t.memoryUsage } := by
    intro h hallows
    rw [step_of_mayCount hs hop hcount, Action.bind_of_ok (hok h),
      checkLimits_of_le hallows.depth hallows.control hallows.budget]
    rfl
  by_cases h : fits
  · have hcheck : m.step ctx s = settle (m.checkLimits t) := by
      rw [step_of_mayCount hs hop hcount, Action.bind_of_ok (hok h)]
    refine ⟨fun fault hsome ↦ ?_, ⟨fun hnone ↦ ⟨h, ?_⟩, fun hboth ↦ ?_⟩, hstep⟩
    · rw [hcheck] at hsome
      cases hresult : m.checkLimits t with
      | ok _ u =>
        obtain ⟨-, -, -, rfl⟩ := checkLimits_eq_ok hresult
        rw [hresult] at hsome
        exact absurd (hfault.symm.trans hsome) (by simp)
      | error other u =>
        rw [hresult] at hsome
        cases hsome
        exact isLimit_of_checkLimits_eq_error hresult
    · rw [hcheck] at hnone
      exact (fault_settle_checkLimits_eq_none_iff hfault).mp hnone
    · rw [hstep hboth.1 hboth.2]
      exact hfault
  · obtain ⟨fault, u, hperform, hlimit⟩ := hfails h
    have hfailed := step_of_perform_eq_error hs hop hcount hperform
    refine ⟨fun other hsome ↦ ?_, ⟨fun hnone ↦ ?_, fun hboth ↦ absurd hboth.1 h⟩, hstep⟩
    · rw [hfailed] at hsome
      cases hsome
      exact hlimit
    · rw [hfailed] at hnone
      cases hnone

end Performing

/-- An opcode on which a step adds no fault was carried out. -/
theorem exists_perform_of_step (hs : s.IsAt op) (hop : op.IsOrdinary m.policy.edition)
    (hfault : (m.step ctx s).fault = none) :
    ∃ t, m.perform ctx s.pointer true op (m.counted s) = .ok () t ∧
      (m.step ctx s).stack = t.stack := by
  have hcount := mayCount_of_step hs hop hfault
  cases hperform : m.perform ctx s.pointer true op (m.counted s) with
  | ok _ t => exact ⟨t, rfl, stack_step_of_perform hs hop hcount hperform⟩
  | error fault t =>
    rw [step_of_perform_eq_error hs hop hcount hperform] at hfault
    cases hfault

end Machine

end ScriptMachine
