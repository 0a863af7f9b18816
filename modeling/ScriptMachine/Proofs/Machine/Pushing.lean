import ScriptMachine.Proofs.Instruction.ShortestPush
import ScriptMachine.Proofs.Machine.Transition

/-!
# Pushing an item

The shortest push of an item puts exactly that item on the stack, whether its bytes follow the
opcode or the opcode stands for a number that the item encodes. It fails only where a limit is
passed.
-/

namespace ScriptMachine

open Instruction (minimalPush constantOpcode?)

/-- An item is short enough for the stack, and for a number where its shortest push is the opcode of
a number. -/
structure Policy.Takes (p : Policy) (data : Bytes) : Prop where
  item : data.length ≤ p.limits.itemLength
  number : constantOpcode? data ≠ none → data.length ≤ p.limits.numberLength

/-- The state after an instruction that pushes an item, before it is held to the limits. -/
def Machine.pushed (m : Machine) (s : State) (data : Bytes) : State :=
  { m.advance s with
    stack := data :: s.stack
    meter := (m.advance s).meter.countPush m.policy data.length }

/-- There is room for one more item: no limit is passed where it is pushed. -/
structure Machine.HasRoom (m : Machine) (s : State) (data : Bytes) : Prop where
  takes : m.policy.Takes data
  depth : s.depth + 1 ≤ m.policy.limits.stackDepth
  control : ∀ limit, m.policy.limits.controlDepth = some limit → s.control.length ≤ limit
  budget : (m.pushed s data).meter.WithinBudget

/-! ## Opcodes of numbers -/

section Constants

variable {opcode : UInt8} {data : Bytes}

theorem exists_small_of_range (h : 0x51 ≤ opcode ∧ opcode ≤ 0x60) :
    ∃ n : Fin 16, opcode = (Opcode.small n).byte := by
  simp only [UInt8.le_iff_toNat_le, UInt8.toNat_ofNat] at h
  refine ⟨⟨opcode.toNat - 0x51, by omega⟩, ?_⟩
  apply UInt8.toNat_inj.mp
  simp only [Opcode.byte, UInt8.toNat_add, UInt8.toNat_ofNat, UInt8.toNat_ofNat']
  omega

theorem ofByte?_small (edition : Edition) (n : Fin 16) :
    Opcode.ofByte? edition (Opcode.small n).byte = some (.small n) := by
  revert n
  cases edition <;> decide

/-- The opcode of an item pushes the number that the item encodes. -/
theorem exists_number_of_constantOpcode? (edition : Edition)
    (h : constantOpcode? data = some opcode) :
    ∃ op v, Opcode.ofByte? edition opcode = some op ∧ opcode ≤ Opcode.maxPush ∧
      Machine.failsAlways op = none ∧ ScriptNumber.encode v = data ∧
      ∀ (m : Machine) ctx index executing,
        m.perform ctx index executing op = Action.pushNumber m.policy v := by
  have hdata : ∀ v, Instruction.operation opcode = minimalPush (ScriptNumber.encode v) →
      ScriptNumber.encode v = data := by
    intro v hv
    have hpushed := Instruction.pushed?_minimalPush (ScriptNumber.encode v)
    rw [← hv, Instruction.pushed?_of_constantOpcode? h] at hpushed
    exact (Option.some.inj hpushed).symm
  have hrange : opcode = 0x4f ∨ 0x51 ≤ opcode ∧ opcode ≤ 0x60 := by
    have hpushed := Instruction.pushed?_of_constantOpcode? h
    rw [Instruction.pushed?] at hpushed
    split_ifs at hpushed with hnegative hsmall
    · exact .inl hnegative
    · exact .inr hsmall
  obtain rfl | hsmall := hrange
  · refine ⟨.negativeOne, -1, ?_, by decide, rfl, hdata (-1) (by decide), fun _ _ _ _ ↦ rfl⟩
    cases edition <;> decide
  · obtain ⟨n, rfl⟩ := exists_small_of_range hsmall
    exact ⟨.small n, n.val + 1, ofByte?_small edition n, hsmall.2, rfl,
      hdata _ (Instruction.operation_small n), fun _ _ _ _ ↦ rfl⟩

end Constants

/-! ## Evaluation -/

namespace Machine

variable {m : Machine} {ctx : Context} {index : Nat} {s t : State} {data : Bytes}

/-- Both kinds of shortest push come to pushing the item. -/
theorem execute_minimalPush (m : Machine) (ctx : Context) (index : Nat) (s : State)
    (data : Bytes) :
    m.execute ctx index true (minimalPush data) s =
      if constantOpcode? data ≠ none ∧ m.policy.limits.numberLength < data.length then
        .error (.numberOverflow m.policy.limits.numberLength) s
      else Action.push m.policy data s := by
  cases hconstant : constantOpcode? data with
  | none =>
    have hminimal := Instruction.isMinimal_minimalPush data
    rw [Instruction.minimalPush_of_constantOpcode?_eq_none hconstant] at hminimal ⊢
    change m.pushData true _ data s = _
    rw [if_neg (by simp)]
    by_cases hlong : m.policy.limits.itemLength < data.length
    · simp only [pushData, Action.push, if_pos hlong]
      rfl
    · simp only [pushData, if_neg hlong, hminimal, Bool.not_true, Bool.false_eq_true, if_false,
        if_true]
  | some opcode =>
    obtain ⟨op, v, hop, hpush, hfails, rfl, hperform⟩ :=
      exists_number_of_constantOpcode? m.policy.edition hconstant
    have hcount : m.countOperation opcode s = .ok () s := by
      rw [countOperation, if_pos hpush]
    have hoperate : m.operate ctx index true opcode s = Action.pushNumber m.policy v s := by
      rw [operate, Action.bind_of_ok hcount]
      simp only [hop, hfails, Bool.true_or, if_true, hperform]
    rw [Instruction.minimalPush_of_constantOpcode? hconstant]
    refine hoperate.trans ?_
    by_cases hlong : m.policy.limits.numberLength < (ScriptNumber.encode v).length
    · rw [if_pos ⟨by simp, hlong⟩, Action.pushNumber, if_pos hlong]
      rfl
    · rw [if_neg (fun h ↦ hlong h.2), Action.pushNumber, if_neg hlong]

theorem execute_of_takes (h : m.policy.Takes data) (ctx : Context) (index : Nat) (s : State) :
    m.execute ctx index true (minimalPush data) s =
      .ok () { s with
        stack := data :: s.stack
        meter := s.meter.countPush m.policy data.length } := by
  have hnumber : ¬ (constantOpcode? data ≠ none ∧ m.policy.limits.numberLength < data.length) :=
    fun hover ↦ Nat.not_lt.mpr (h.number hover.1) hover.2
  rw [execute_minimalPush, if_neg hnumber, Action.push, if_neg (Nat.not_lt.mpr h.item)]

theorem takes_of_execute (h : m.execute ctx index true (minimalPush data) s = .ok () t) :
    m.policy.Takes data := by
  rw [execute_minimalPush] at h
  split_ifs at h with hnumber
  rw [Action.push] at h
  split_ifs at h with hitem
  refine ⟨Nat.not_lt.mp hitem, fun hconstant ↦ ?_⟩
  exact Nat.not_lt.mp fun hlong ↦ hnumber ⟨hconstant, hlong⟩

/-- A step on the shortest push of an item pushes the item where there is room for it. -/
theorem step_minimalPush (ctx : Context) (hhalt : s.isHalted = false)
    (hexecuting : s.isExecuting = true) (hnext : s.next? = some (minimalPush data))
    (hroom : m.HasRoom s data) :
    m.step ctx s = { m.pushed s data with
      meter := (m.pushed s data).meter.observeMemory (m.pushed s data).memoryUsage } := by
  have hdepth : (m.pushed s data).depth ≤ m.policy.limits.stackDepth := by
    have hroom := hroom.depth
    simp only [State.depth, pushed, advance, List.length_cons] at hroom ⊢
    omega
  rw [step_eq_settle hhalt hnext, hexecuting,
    Action.bind_of_ok (execute_of_takes hroom.takes ctx s.pointer (m.advance s))]
  change settle (m.checkLimits (m.pushed s data)) = _
  rw [checkLimits_of_le hdepth hroom.control hroom.budget]
  rfl

/-- Such a step fails for no other reason than a limit. -/
theorem hasRoom_of_step (hhalt : s.isHalted = false) (hexecuting : s.isExecuting = true)
    (hnext : s.next? = some (minimalPush data)) (hfault : (m.step ctx s).fault = none) :
    m.HasRoom s data := by
  rw [step_eq_settle hhalt hnext, hexecuting] at hfault
  generalize hresult : (m.execute ctx s.pointer true (minimalPush data) >>= fun _ ↦ m.checkLimits)
    (m.advance s) = result at hfault
  cases result with
  | error fault t => cases hfault
  | ok _ t =>
    obtain ⟨_, u, hu, ht⟩ := Action.bind_eq_ok hresult
    have htakes := takes_of_execute hu
    rw [execute_of_takes htakes] at hu
    cases hu
    obtain ⟨hdepth, hcontrol, hbudget, -⟩ := checkLimits_eq_ok ht
    refine ⟨htakes, ?_, hcontrol, hbudget⟩
    simp only [State.depth, advance, List.length_cons] at hdepth ⊢
    omega

end Machine

/-- An item has one shortest push. It is read back from its bytes, every other instruction that
pushes the item is longer and is refused, and a step on it pushes the item unless that passes a
limit. -/
theorem minimal_push_is_optimal (data : Bytes) (hdata : data.length < 2 ^ 32) :
    Instruction.parse (Instruction.encodePush data) = [minimalPush data] ∧
      ((minimalPush data).IsFormed ∧ (minimalPush data).pushed? = some data ∧
        (minimalPush data).isMinimal = true) ∧
      (∀ i : Instruction, i.IsFormed → i.pushed? = some data → i ≠ minimalPush data →
        (minimalPush data).encode.length < i.encode.length ∧ i.isMinimal = false) ∧
      ∀ (m : Machine) (ctx : Context) (s : State), s.isHalted = false → s.isExecuting = true →
        s.next? = some (minimalPush data) →
        ((m.step ctx s).fault = none ↔ m.HasRoom s data) ∧
        (m.HasRoom s data → (m.step ctx s).stack = data :: s.stack ∧
          m.step ctx s = { m.pushed s data with
            meter := (m.pushed s data).meter.observeMemory (m.pushed s data).memoryUsage }) := by
  refine ⟨Instruction.parse_encodePush hdata,
    ⟨Instruction.isFormed_minimalPush hdata, Instruction.pushed?_minimalPush data,
      Instruction.isMinimal_minimalPush data⟩,
    fun i hi hpushed hne ↦ Instruction.longer_of_ne_minimalPush hi hpushed hne,
    fun m ctx s hhalt hexecuting hnext ↦ ⟨⟨?_, fun hroom ↦ ?_⟩, fun hroom ↦ ?_⟩⟩
  · exact Machine.hasRoom_of_step hhalt hexecuting hnext
  · rw [Machine.step_minimalPush ctx hhalt hexecuting hnext hroom]
    change s.fault = none
    exact State.fault_eq_none_of_not_halted hhalt
  · have hstep := Machine.step_minimalPush ctx hhalt hexecuting hnext hroom
    refine ⟨?_, hstep⟩
    rw [hstep]
    rfl

/-- The shortest item whose length takes a byte of its own. -/
theorem minimal_push_is_optimal_long :
    let data : Bytes := List.replicate 76 7
    let m : Machine := {}
    let s : State := { program := [.push 0x4c data], meter := .start m.policy 100 }
    Instruction.parse (0x4c :: 0x4c :: data) = [.push 0x4c data] ∧
      (Instruction.push 0x4d data).isMinimal = false ∧ (m.step {} s).stack = [data] := by
  intro data m s
  obtain ⟨hparse, -, hother, hstep⟩ := minimal_push_is_optimal data (by decide)
  have hroom : m.HasRoom s data :=
    ⟨⟨by decide, by decide⟩, by decide, by decide, ⟨by decide, by decide, by decide⟩⟩
  exact ⟨hparse, (hother (.push 0x4d data) (by decide) rfl (by decide)).2,
    ((hstep m {} s rfl rfl rfl).2 hroom).1⟩

end ScriptMachine
