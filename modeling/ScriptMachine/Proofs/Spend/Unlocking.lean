import ScriptMachine.Proofs.Instruction.ShortestPush
import ScriptMachine.Proofs.Machine.Halting
import ScriptMachine.Proofs.Opcode.Naming
import ScriptMachine.Proofs.Spend.ScriptHash

/-!
# Unlocking bytecode

Unlocking bytecode only pushes, and every push has to be the shortest one of its item. So the stack
that is left tells which instructions there were, and these tell the bytecode.
-/

namespace ScriptMachine

namespace Opcode

/-- The opcodes that count as pushes. -/
theorem cases_of_byte_le {op : Opcode} (h : op.byte ≤ maxPush) :
    (∃ push, op = .pushing push) ∨ op = .reserved .reserved ∨ op = .negativeOne ∨
      ∃ n, op = .small n := by
  cases op with
  | pushing push => exact .inl ⟨push, rfl⟩
  | negativeOne => exact .inr (.inr (.inl rfl))
  | small n => exact .inr (.inr (.inr ⟨n, rfl⟩))
  | reserved op =>
    cases op with
    | reserved => exact .inr (.inl rfl)
    | _ => exact absurd h (by decide)
  | check op verify => cases op <;> cases verify <;> exact absurd h (by decide)
  | nop | equal | equalVerify | within | codeSeparator => exact absurd h (by decide)
  | _ op => cases op <;> exact absurd h (by decide)

end Opcode

theorem Action.stack_eq_of_pushNumber {p : Policy} {v : Int} {s t : State}
    (h : pushNumber p v s = .ok () t) : t.stack = ScriptNumber.encode v :: s.stack := by
  unfold pushNumber at h
  split at h
  · cases h
  · exact stack_eq_of_push h

namespace Machine

variable {m : Machine} {ctx : Context} {index : Nat} {s t : State}

theorem isMinimal_of_pushData {instruction : Instruction} {data : Bytes}
    (h : m.pushData true instruction data s = .ok () t) : instruction.isMinimal = true := by
  unfold pushData at h
  split at h
  · cases h
  · rw [if_neg (by simp)] at h
    split at h
    · assumption
    · cases h

/-- Where code is taken, only known opcodes are carried out. -/
theorem exists_opcode_of_execute {byte : UInt8}
    (h : m.execute ctx index true (.operation byte) s = .ok () t) :
    ∃ op, Opcode.ofByte? m.policy.edition byte = some op := by
  cases hop : Opcode.ofByte? m.policy.edition byte with
  | some op => exact ⟨op, rfl⟩
  | none =>
    obtain ⟨_, u, -, hu⟩ := Action.bind_eq_ok h
    simp only [hop] at hu
    cases hu

/-- An opcode that counts as a push and does not fail is the shortest push of a small number. -/
theorem pushes_of_perform {op : Opcode} (hop : op.byte ≤ Opcode.maxPush)
    (h : m.perform ctx index true op s = .ok () t) :
    ∃ item, Instruction.operation op.byte = .minimalPush item ∧ t.stack = item :: s.stack := by
  obtain ⟨push, rfl⟩ | rfl | rfl | ⟨n, rfl⟩ := Opcode.cases_of_byte_le hop
  · cases h
  · cases h
  · exact ⟨[0x81], by decide, Action.stack_eq_of_pushNumber h⟩
  · exact ⟨_, Instruction.operation_small n, Action.stack_eq_of_pushNumber h⟩

end Machine

namespace State.At

variable {m : Machine} {ctx : Context} {program : List Instruction} {index : Nat} {s : State}
  {i : Instruction}

/-- An instruction that counts as a push and does not fail is the shortest push of the item that it
puts on the stack. -/
theorem step_pushes (h : s.At program index) (hi : program[index]? = some i)
    (hpush : i.opcode ≤ Opcode.maxPush) (hfault : (m.step ctx s).fault = none) :
    ∃ item, i = .minimalPush item ∧ (m.step ctx s).stack = item :: s.stack := by
  obtain ⟨t, ht, hstep⟩ := h.execute_eq_ok hi hfault
  cases i with
  | truncated opcode cut => cases ht
  | push opcode data =>
    have hminimal := Machine.isMinimal_of_pushData ht
    exact ⟨data, Instruction.minimalPush_of_isMinimal hminimal, h.step_push hi hfault⟩
  | operation byte =>
    obtain ⟨op, hop⟩ := Machine.exists_opcode_of_execute ht
    obtain rfl := Opcode.byte_of_ofByte? hop
    obtain ⟨operations, hperform⟩ := Machine.perform_of_execute hop ht
    have hpushes := Machine.pushes_of_perform hpush hperform
    rw [hstep]
    exact hpushes

/-- What counts as a push is no part of a branch or a loop. -/
theorem not_conditional {edition : Edition} (hpush : i.opcode ≤ Opcode.maxPush) :
    ∀ op, i.called? edition = some op → op.isConditional = false := by
  intro op hop
  cases i with
  | push | truncated => cases hop
  | operation byte =>
    have hbyte : op.byte ≤ Opcode.maxPush := by rwa [Opcode.byte_of_ofByte? hop]
    obtain ⟨push, rfl⟩ | rfl | rfl | ⟨n, rfl⟩ := Opcode.cases_of_byte_le hbyte <;> rfl

/-- After `n` instructions that only push, the stack has their items, and the instructions are the
shortest pushes of these. -/
theorem iterate_pushes (hs : s.At program 0) (hpush : Instruction.isPushOnly program = true)
    {n : Nat} (hn : n ≤ program.length) (hfault : ((m.step ctx)^[n] s).fault = none) :
    ((m.step ctx)^[n] s).At program n ∧ ∃ items : List Bytes,
      program.take n = items.map .minimalPush ∧
        ((m.step ctx)^[n] s).stack = items.reverse ++ s.stack := by
  induction n with
  | zero => exact ⟨hs, [], rfl, rfl⟩
  | succ n ih =>
    obtain ⟨hat, items, hprogram, hstack⟩ :=
      ih (Nat.le_of_succ_le hn) (Machine.fault_iterate_eq_none (Nat.le_succ n) hfault)
    rw [Function.iterate_succ_apply'] at hfault ⊢
    have hi : program[n]? = some program[n] := List.getElem?_eq_getElem hn
    have hopcode : program[n].opcode ≤ Opcode.maxPush := by
      have hall := List.all_eq_true.mp hpush program[n] (List.getElem_mem hn)
      simpa using hall
    obtain ⟨item, hminimal, hnext⟩ := hat.step_pushes hi hopcode hfault
    refine ⟨hat.step hi (not_conditional hopcode) hfault, items ++ [item], ?_, ?_⟩
    · rw [List.take_add_one, hi, hprogram, hminimal, List.map_append]
      rfl
    · rw [hnext, hstack, List.reverse_concat, List.cons_append]

end State.At

/-- Instructions that only push, evaluated on an empty stack without a fault, are the shortest
pushes of the items that they leave. -/
theorem Machine.program_eq_of_evaluate {m : Machine} {ctx : Context} {program : List Instruction}
    {s : State} (hs : s.At program 0) (hstack : s.stack = [])
    (hpush : Instruction.isPushOnly program = true) (hfault : (m.evaluate ctx s).fault = none) :
    program = (m.evaluate ctx s).stack.reverse.map .minimalPush := by
  have hlength : program.length ≤ s.program.length + stepLimit := by
    rw [hs.program_eq]
    exact Nat.le_add_right _ _
  obtain ⟨hat, items, hprogram, hitems⟩ :=
    hs.iterate_pushes hpush (Nat.le_refl _) (fault_iterate_of_evaluate hlength hfault)
  have hend := evaluate_eq_of_isHalted hlength (hat.isHalted_of_length_le (Nat.le_refl _))
  rw [hend, hitems, hstack, List.append_nil, List.reverse_reverse, ← hprogram, List.take_length]

namespace Spend

variable {sp : Spend} {m : Machine} {ctx : Context} {stack : List Bytes}

/-- The unlocking phase of a spend ends without a fault and leaves this stack. -/
def UnlocksTo (sp : Spend) (m : Machine) (ctx : Context) (stack : List Bytes) : Prop :=
  ∃ t ∈ sp.debug m ctx, t.phase = .unlocking ∧ ∃ s, t.outcome? = some s ∧ s.stack = stack

/-- The first phase is that of the unlocking bytecode, and no other is. -/
theorem debug_eq_cons (sp : Spend) (m : Machine) (ctx : Context) :
    ∃ later, sp.debug m ctx = sp.unlockingPhase m ctx :: later ∧
      ∀ t ∈ later, t.phase ≠ .unlocking := by
  cases hunlocked : (sp.unlockingPhase m ctx).outcome? with
  | none => exact ⟨[], by simp [debug, hunlocked], by simp⟩
  | some unlocked =>
    have htwo : ∀ t ∈ [sp.lockingPhase m ctx unlocked], t.phase ≠ .unlocking := by
      simp [lockingPhase]
    cases hlocked : (sp.lockingPhase m ctx unlocked).outcome? with
    | none => exact ⟨_, by simp [debug, hunlocked, hlocked], htwo⟩
    | some locked =>
      cases hstack : unlocked.stack with
      | nil => exact ⟨_, by simp [debug, hunlocked, hlocked, hstack], htwo⟩
      | cons script below =>
        by_cases hhash : isScriptHash sp.locking = true
        · refine ⟨[sp.lockingPhase m ctx unlocked, redeemPhase m ctx script below locked.meter],
            by simp [debug, hunlocked, hlocked, hstack, hhash], ?_⟩
          simp [lockingPhase, redeemPhase]
        · exact ⟨_, by simp [debug, hunlocked, hlocked, hstack, hhash], htwo⟩

theorem unlocksTo_iff :
    sp.UnlocksTo m ctx stack ↔ (sp.unlockingPhase m ctx).outcome?.map State.stack = some stack := by
  obtain ⟨later, hdebug, hlater⟩ := sp.debug_eq_cons m ctx
  rw [Option.map_eq_some_iff]
  constructor
  · rintro ⟨t, ht, hphase, h⟩
    rw [hdebug] at ht
    rcases List.mem_cons.mp ht with rfl | ht
    · exact h
    · exact absurd hphase (hlater t ht)
  · exact fun h ↦ ⟨_, by simp [hdebug], rfl, h⟩

/-- Where the unlocking bytecode does not fail at once, it only pushes. -/
theorem unlockingStart_eq (h : (sp.unlockingStart m ctx).fault = none) :
    sp.unlockingStart m ctx = m.start ctx sp.unlocking ∧
      Instruction.isPushOnly (Instruction.parse sp.unlocking) = true := by
  unfold unlockingStart at h ⊢
  dsimp only at h ⊢
  split at h
  · cases h
  · rename_i hs
    rw [if_neg hs]
    have hpush : Instruction.isPushOnly (m.start ctx sp.unlocking).program = true := by
      rw [h] at hs
      simpa using hs
    exact ⟨rfl, hpush⟩

/-- The stack that the unlocking phase leaves determines the instructions. -/
theorem parse_unlocking_of_unlocksTo (h : sp.UnlocksTo m ctx stack) :
    Instruction.parse sp.unlocking = stack.reverse.map .minimalPush := by
  obtain ⟨s, hs, rfl⟩ := Option.map_eq_some_iff.mp (unlocksTo_iff.mp h)
  obtain ⟨rfl, hverdict⟩ := eq_complete_of_outcome rfl hs
  have hfault := State.fault_eq_none_of_verdict hverdict
  have hfirst := Machine.fault_eq_none_of_evaluate hfault
  obtain ⟨hstart, hpush⟩ := unlockingStart_eq hfirst
  rw [hstart] at hfault hfirst ⊢
  exact Machine.program_eq_of_evaluate ⟨rfl, rfl, rfl, hfirst⟩ rfl hpush hfault

/-- Unlocking bytecode is not malleable. The stack that it leaves has what its instructions push,
one item each, and bytecode that leaves the same stack, in whatever context, is the same. -/
theorem unlocking_injective (m : Machine) (sp sp' : Spend) (ctx ctx' : Context)
    (stack stack' : List Bytes) (h : sp.UnlocksTo m ctx stack) (h' : sp'.UnlocksTo m ctx' stack') :
    (Instruction.parse sp.unlocking).map Instruction.pushed? = stack.reverse.map some ∧
      (stack = stack' ↔ sp.unlocking = sp'.unlocking) := by
  have hparse := parse_unlocking_of_unlocksTo h
  have hparse' := parse_unlocking_of_unlocksTo h'
  have hpushed : ∀ items : List Bytes,
      (items.map Instruction.minimalPush).map Instruction.pushed? = items.map some := by
    intro items
    simp [Instruction.pushed?_minimalPush]
  refine ⟨by rw [hparse, hpushed], fun heq ↦ ?_, fun heq ↦ ?_⟩
  · rw [← Instruction.serialize_parse sp.unlocking, ← Instruction.serialize_parse sp'.unlocking,
      hparse, hparse', heq]
  · have hitems : stack.reverse.map some = stack'.reverse.map some := by
      rw [← hpushed, ← hpushed, ← hparse, ← hparse', heq]
    exact List.reverse_injective (List.map_injective_iff.mpr (Option.some_injective _) hitems)

/-- Four items, each with a push of its own kind, in two contexts. -/
theorem unlocking_injective_four :
    let unlocking : Bytes := [0x00, 0x51, 0x4f, 0x02, 0x07, 0x08]
    let stack : List Bytes := [[0x07, 0x08], [0x81], [0x01], []]
    let sp : Spend := ⟨unlocking, []⟩
    let sp' : Spend := ⟨unlocking, [0x6d, 0x75]⟩
    sp.UnlocksTo {} {} stack ∧ sp'.UnlocksTo {} (.singleInput unlocking [0x6d, 0x75]) stack ∧
      (Instruction.parse unlocking).map Instruction.pushed? =
        [some [], some [0x01], some [0x81], some [0x07, 0x08]] := by
  intro unlocking stack sp sp'
  have h : sp.UnlocksTo {} {} stack := unlocksTo_iff.mpr (by decide +kernel)
  have h' : sp'.UnlocksTo {} (.singleInput unlocking [0x6d, 0x75]) stack :=
    unlocksTo_iff.mpr (by decide +kernel)
  exact ⟨h, h', (unlocking_injective {} sp sp' {} _ stack stack h h').1⟩

end Spend

end ScriptMachine
