import ScriptMachine.Proofs.Machine.Accounting
import ScriptMachine.Proofs.Machine.DeadCode
import ScriptMachine.Proofs.Machine.Trace
import ScriptMachine.Proofs.Opcode.Naming

/-!
# Runs through dead code

Where code is not taken, a step costs what every instruction costs, and the data stays as it is.
Only the end of the construct that is not taken, or the turn to its alternative, can lead back to
code that is, and such an instruction is known before it is evaluated.
-/

namespace ScriptMachine

/-- The second state has the data of the first, and between them nothing was counted but
instructions. -/
structure State.SameData (s t : State) : Prop where
  stack : t.stack = s.stack
  alt : t.alt = s.alt
  separator : t.separator = s.separator
  counter : ∀ work, work ≠ .base → t.meter.counter work = s.meter.counter work

namespace State.SameData

variable {s t u : State}

theorem refl (s : State) : s.SameData s := ⟨rfl, rfl, rfl, fun _ _ ↦ rfl⟩

theorem trans (hst : s.SameData t) (htu : t.SameData u) : s.SameData u where
  stack := htu.stack.trans hst.stack
  alt := htu.alt.trans hst.alt
  separator := htu.separator.trans hst.separator
  counter work hwork := (htu.counter work hwork).trans (hst.counter work hwork)

end State.SameData

/-! ## What stays dead -/

theorem Instruction.opcode_of_called {edition : Edition} {i : Instruction} {op : Opcode}
    (h : i.called? edition = some op) : i.opcode = op.byte := by
  cases i with
  | operation byte => exact (Opcode.byte_of_ofByte? h).symm
  | push | truncated => cases h

/-- An instruction that closes no construct, or one inside of code that is not taken, does not lead
back to code that is. -/
theorem Turn.isExecuting_eq_false {m : Machine} {index : Nat} {i : Instruction} {s t : State}
    (h : Turn m index i s t) (hdead : s.isExecuting = false)
    (hclosing : State.closingBytes.contains i.opcode = true → s.isEnclosingExecuting = false) :
    t.isExecuting = false := by
  -- What closes a construct leaves the markers around it, and one of these is not taken.
  have hrest : ∀ {op marker rest}, i.called? m.policy.edition = some op →
      State.closingBytes.contains op.byte = true → s.control = marker :: rest →
      rest.all Marker.isTaken = false := by
    intro op marker rest hop hbyte hs
    rw [← Instruction.opcode_of_called hop] at hbyte
    have henclosing := hclosing hbyte
    rwa [State.isEnclosingExecuting, hs] at henclosing
  unfold State.isExecuting at hdead ⊢
  cases h with
  | data hop h =>
    rw [h.frame]
    exact hdead
  | separator => exact hdead
  | openBranch => simp [hdead]
  | turnBranch hop hs => simp [hrest hop rfl hs]
  | closeBranch hop hs => exact hrest hop rfl hs
  | openLoop => simp [hdead]
  | leaveLoop hop hs => exact hrest hop rfl hs
  | repeatLoop hop hs h =>
    rw [h.frame]
    exact hdead

namespace State

variable {s : State} {i : Instruction}

theorem isEnclosingExecuting_eq_false (h : s.executesNext = false) (hi : s.next? = some i)
    (hclosing : closingBytes.contains i.opcode = true) : s.isEnclosingExecuting = false := by
  simpa only [executesNext, hi, Option.any_some, hclosing, if_true] using h

end State

namespace Machine

variable (m : Machine) (ctx : Context) {s : State}

theorem isExecuting_step_eq_false (hhalt : s.isHalted = false) (hdead : s.isExecuting = false)
    (hnext : s.executesNext = false) (hfault : (m.step ctx s).fault = none) :
    (m.step ctx s).isExecuting = false := by
  obtain ⟨i, hi⟩ : ∃ i, s.next? = some i :=
    ⟨_, List.getElem?_eq_getElem (State.pointer_lt_of_not_halted hhalt)⟩
  obtain ⟨t, ht, hstep⟩ := execute_of_step hhalt hi hfault
  obtain ⟨operations, -, hturn⟩ := turn_of_execute ht
  have hclosing := State.isEnclosingExecuting_eq_false hnext hi
  rw [hstep]
  exact hturn.isExecuting_eq_false hdead hclosing

theorem sameData_step_of_dead (hhalt : s.isHalted = false) (hdead : s.isExecuting = false) :
    s.SameData (m.step ctx s) ∧
      (m.step ctx s).meter.cost = Amount.add s.meter.cost m.policy.costs.baseInstruction := by
  obtain ⟨control, operations, memory, fault, hstep⟩ := m.exists_step_dead ctx hhalt hdead
  rw [hstep]
  refine ⟨⟨rfl, rfl, rfl, fun work hwork ↦ ?_⟩, rfl⟩
  cases work with
  | base => exact absurd rfl hwork
  | push | arithmetic | hashing | signatureChecks | repeated => rfl

theorem sameData_step_of_isHalted (hhalt : s.isHalted = true) : s.SameData (m.step ctx s) := by
  rw [m.step_of_isHalted ctx hhalt]
  exact .refl s

theorem sameData_step (hdead : s.isExecuting = false) : s.SameData (m.step ctx s) := by
  cases hhalt : s.isHalted with
  | true => exact m.sameData_step_of_isHalted ctx hhalt
  | false => exact (m.sameData_step_of_dead ctx hhalt hdead).1

theorem sameData_iterate (n : Nat)
    (hdead : ∀ k < n, ((m.step ctx)^[k] s).isExecuting = false) :
    s.SameData ((m.step ctx)^[n] s) := by
  induction n with
  | zero => exact .refl s
  | succ n ih =>
    rw [Function.iterate_succ_apply']
    have hbefore := ih fun k hk ↦ hdead k (Nat.lt_succ_of_lt hk)
    exact hbefore.trans (m.sameData_step ctx (hdead n (Nat.lt_succ_self n)))

theorem executesNext_of_not_sameData (h : ¬ s.SameData (m.step ctx s)) : s.executesNext = true := by
  have hhalt : s.isHalted = false := by
    by_contra hhalt
    exact h (m.sameData_step_of_isHalted ctx (by simpa using hhalt))
  apply State.executesNext_of_isExecuting hhalt
  by_contra hdead
  exact h (m.sameData_step ctx (by simpa using hdead))

/-- Code that is not taken has no effect on data. A step there, failing or not, leaves the stacks,
the code separator and all counters of work on data as they are, and costs what an instruction
costs; unless its instruction takes effect, the code after it is not taken either. So the data is
the same after any number of steps through such code, and the instruction of a step that changes it
takes effect. -/
theorem dead_code_leaves_data (m : Machine) (ctx : Context) :
    (∀ s : State, s.isHalted = false → s.isExecuting = false →
      s.SameData (m.step ctx s) ∧
        (m.step ctx s).meter.cost =
          min (s.meter.cost + m.policy.costs.baseInstruction) (2 ^ 64 - 1) ∧
        (s.executesNext = false → (m.step ctx s).fault = none →
          (m.step ctx s).isExecuting = false)) ∧
      (∀ (s : State) (n : Nat), (∀ k < n, ((m.step ctx)^[k] s).isExecuting = false) →
        s.SameData ((m.step ctx)^[n] s)) ∧
      ∀ s : State, ¬ s.SameData (m.step ctx s) → s.executesNext = true := by
  refine ⟨fun s hhalt hdead ↦ ?_, fun s n ↦ m.sameData_iterate ctx n,
    fun s ↦ m.executesNext_of_not_sameData ctx⟩
  obtain ⟨hdata, hcost⟩ := m.sameData_step_of_dead ctx hhalt hdead
  exact ⟨hdata, hcost, m.isExecuting_step_eq_false ctx hhalt hdead⟩

/-- A branch that is not taken holds a loop, a branch with an alternative, an unknown opcode and a
code separator. Ten steps lead through it to its alternative, which is taken. -/
theorem dead_code_leaves_data_nested :
    let m : Machine := { policy := .ofEdition .y2026 }
    let bytecode : Bytes :=
      [0x00, 0x63, 0x65, 0x63, 0x51, 0x67, 0xff, 0x68, 0x00, 0x66, 0xab, 0x67, 0x51, 0x68]
    let s := (m.step {})^[2] (m.start {} bytecode)
    s.isHalted = false ∧ s.executesNext = false ∧ (m.step {} s).fault = none ∧
      (m.step {} s).isExecuting = false ∧ (m.step {} s).meter.cost = s.meter.cost + 100 ∧
      (∀ k < 10, ((m.step {})^[k] s).isExecuting = false) ∧
      ((m.step {})^[10] s).isExecuting = true ∧ s.SameData ((m.step {})^[10] s) := by
  intro m bytecode s
  have hhalt : s.isHalted = false := by decide +kernel
  have hnext : s.executesNext = false := by decide +kernel
  have hfault : (m.step {} s).fault = none := by decide +kernel
  have hdead : ∀ k < 10, ((m.step {})^[k] s).isExecuting = false := by decide +kernel
  have hcost : s.meter.cost + 100 < 2 ^ 64 := by decide +kernel
  obtain ⟨hstep, hrun, -⟩ := dead_code_leaves_data m {}
  obtain ⟨-, hcharged, hstays⟩ := hstep s hhalt (hdead 0 (by norm_num))
  refine ⟨hhalt, hnext, hfault, hstays hnext hfault, ?_, hdead, by decide +kernel, hrun s 10 hdead⟩
  change _ = min (s.meter.cost + 100) (2 ^ 64 - 1) at hcharged
  omega

end Machine

end ScriptMachine
