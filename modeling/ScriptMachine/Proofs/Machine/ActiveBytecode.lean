import ScriptMachine.Proofs.Instruction.Codec
import ScriptMachine.Proofs.Machine.DeadCode
import ScriptMachine.Proofs.Machine.Trace
import ScriptMachine.Proofs.Opcode.Naming

/-!
# Active bytecode

Signatures cover what follows the code separator that was evaluated last. Evaluation order decides
which one that is, and with loops it is not the order of the program. The bytes covered are those of
the bytecode itself: writing the instructions again that were read from it changes nothing.
-/

namespace ScriptMachine

namespace Instruction

variable {program : List Instruction}

/-- The place in the bytecode of a program where the instruction with this index starts. -/
def offset (program : List Instruction) (index : Nat) : Nat :=
  total encodedLength (program.take index)

@[simp] theorem offset_zero (program : List Instruction) : offset program 0 = 0 := rfl

theorem offset_succ {index : Nat} {i : Instruction} (h : program[index]? = some i) :
    offset program (index + 1) = offset program index + i.encodedLength := by
  unfold offset
  rw [List.take_add_one, h]
  simp

theorem length_serialize_take (program : List Instruction) (index : Nat) :
    (serialize (program.take index)).length = offset program index :=
  length_serialize _

theorem serialize_take_append_drop (program : List Instruction) (index : Nat) :
    serialize (program.take index) ++ serialize (program.drop index) = serialize program := by
  unfold serialize
  rw [← List.flatMap_append, List.take_append_drop]

/-- The bytecode of the instructions before some index is a prefix of the whole bytecode. -/
theorem serialize_take (program : List Instruction) (index : Nat) :
    serialize (program.take index) = (serialize program).take (offset program index) := by
  rw [← serialize_take_append_drop program index,
    List.take_left' (length_serialize_take program index)]

/-- The bytecode of the instructions from some index on is a suffix of the whole bytecode. -/
theorem serialize_drop (program : List Instruction) (index : Nat) :
    serialize (program.drop index) = (serialize program).drop (offset program index) := by
  rw [← serialize_take_append_drop program index,
    List.drop_left' (length_serialize_take program index)]

/-- An instruction starts with its opcode. -/
theorem getElem?_serialize_offset {index : Nat} {i : Instruction} (h : program[index]? = some i) :
    (serialize program)[offset program index]? = some i.opcode := by
  have hdrop : program.drop index = i :: program.drop (index + 1) := by
    obtain ⟨hlt, rfl⟩ := List.getElem?_eq_some_iff.mp h
    exact List.drop_eq_getElem_cons hlt
  have hfirst : (serialize (program.drop index))[0]? = some i.opcode := by
    rw [hdrop, serialize, List.flatMap_cons]
    rcases i with _ | _ | ⟨_, _, _, _ | _, _⟩ <;> rfl
  rwa [serialize_drop, List.getElem?_drop, Nat.add_zero] at hfirst

theorem WellFormed.drop (h : WellFormed program) (count : Nat) :
    WellFormed (program.drop count) := by
  induction count generalizing program with
  | zero => exact h
  | succ count ih =>
    cases program with
    | nil => exact h
    | cons i rest => exact ih (wellFormed_cons_iff.mp h).2.2

end Instruction

namespace Machine

variable {m : Machine} {ctx : Context} {s t : State}

variable (m) in
/-- The step from this state evaluates a code separator: one that stands where code is taken, and
that the limit of operations has room for. -/
structure EvaluatesSeparator (s : State) : Prop where
  running : s.isHalted = false
  next : s.next? = some (.operation Opcode.codeSeparator.byte)
  executing : s.isExecuting = true
  counted : ∀ limit, m.policy.limits.operationCount = some limit →
    (s.operations + 1) % UInt64.size ≤ limit

/-- An opcode that is counted is refused exactly where it is one too many. -/
theorem countOperation_cases {byte : UInt8} (hbyte : ¬ byte ≤ Opcode.maxPush) (s : State) :
    (∀ limit, m.policy.limits.operationCount = some limit →
        (s.operations + 1) % UInt64.size ≤ limit) ∧
        m.countOperation byte s =
          .ok () { s with operations := (s.operations + 1) % UInt64.size } ∨
      ∃ limit, m.policy.limits.operationCount = some limit ∧
        limit < (s.operations + 1) % UInt64.size ∧
        m.countOperation byte s = .error (.tooManyOperations limit)
          { s with operations := (s.operations + 1) % UInt64.size } := by
  unfold countOperation
  rw [if_neg hbyte]
  cases hlimit : m.policy.limits.operationCount with
  | none => exact .inl ⟨by simp, rfl⟩
  | some limit =>
    by_cases hlt : limit < (s.operations + 1) % UInt64.size
    · exact .inr ⟨limit, rfl, hlt, if_pos hlt⟩
    · refine .inl ⟨fun other hother ↦ ?_, if_neg hlt⟩
      cases hother
      exact Nat.le_of_not_lt hlt

theorem separator_settle_checkLimits (s : State) :
    (settle (m.checkLimits s)).separator = s.separator := by
  cases hlimits : m.checkLimits s with
  | ok _ t =>
    obtain ⟨-, -, -, rfl⟩ := checkLimits_eq_ok hlimits
    rfl
  | error fault t =>
    obtain ⟨memory, rfl⟩ := checkLimits_eq_error hlimits
    rfl

theorem execute_separator (index : Nat) :
    m.execute ctx index true (.operation Opcode.codeSeparator.byte) s =
      (m.countOperation Opcode.codeSeparator.byte >>= fun _ ↦
        modify fun s ↦ { s with separator := some index }) s := by
  have hop : Opcode.ofByte? m.policy.edition Opcode.codeSeparator.byte = some .codeSeparator := by
    cases m.policy.edition <;> decide
  change m.operate ctx index true Opcode.codeSeparator.byte s = _
  unfold operate
  rw [hop]
  rfl

/-- A code separator where code is taken is either evaluated or refused. -/
theorem separator_step_of_next (hs : s.isHalted = false)
    (hnext : s.next? = some (.operation Opcode.codeSeparator.byte))
    (htaken : s.isExecuting = true) :
    m.EvaluatesSeparator s ∧ (m.step ctx s).separator = some s.pointer ∨
      ¬ m.EvaluatesSeparator s ∧ (m.step ctx s).separator = s.separator := by
  have hbyte : ¬ Opcode.codeSeparator.byte ≤ Opcode.maxPush := by decide
  rw [step_eq_settle hs hnext, htaken]
  simp only [Bind.bind, EStateM.bind, execute_separator]
  rcases countOperation_cases (m := m) hbyte (m.advance s) with
    ⟨hcounted, hcount⟩ | ⟨limit, hlimit, hlt, hcount⟩
  · rw [hcount]
    exact .inl ⟨⟨hs, hnext, htaken, hcounted⟩, separator_settle_checkLimits _⟩
  · rw [hcount]
    exact .inr ⟨fun h ↦ absurd (h.counted limit hlimit) (Nat.not_le_of_lt hlt), rfl⟩

end Machine

theorem Instruction.eq_separator_of_called {edition : Edition} {i : Instruction}
    (h : i.called? edition = some .codeSeparator) :
    i = .operation Opcode.codeSeparator.byte := by
  cases i with
  | operation byte => rw [Opcode.byte_of_ofByte? h]
  | push | truncated => cases h

theorem Turn.separator_eq {m : Machine} {index : Nat} {i : Instruction} {s t : State}
    (h : Turn m index i s t) (hi : i ≠ .operation Opcode.codeSeparator.byte) :
    t.separator = s.separator := by
  cases h with
  | data hop h => rw [h.frame]
  | separator hop => exact absurd (Instruction.eq_separator_of_called hop) hi
  | openBranch taken hop h => rw [h.frame]
  | leaveLoop hop hs h => rw [h.frame]
  | repeatLoop hop hs h => rw [h.frame]
  | turnBranch | closeBranch | openLoop => rfl

/-- Only a code separator moves the start of the active bytecode. -/
theorem Transition.separator_eq {m : Machine} {s t : State} (h : Transition m s t)
    (hnext : s.next? ≠ some (.operation Opcode.codeSeparator.byte)) :
    t.separator = s.separator := by
  have hother : ∀ i, s.next? = some i → i ≠ .operation Opcode.codeSeparator.byte := by
    rintro i hi rfl
    exact hnext hi
  cases h with
  | halted => rfl
  | failed operations fault hs h => rw [h.frame]; rfl
  | exceeded operations memory fault hs hi h => exact h.separator_eq (hother _ hi)
  | done operations hs hi hoperations h => exact h.separator_eq (hother _ hi)

namespace Machine

variable {m : Machine} {ctx : Context} {s : State}

theorem EvaluatesSeparator.separator_step (h : m.EvaluatesSeparator s) :
    (m.step ctx s).separator = some s.pointer := by
  rcases separator_step_of_next h.running h.next h.executing with ⟨-, heq⟩ | ⟨hnot, -⟩
  · exact heq
  · exact absurd h hnot

theorem separator_step_of_not (h : ¬ m.EvaluatesSeparator s) :
    (m.step ctx s).separator = s.separator := by
  by_cases hnext : s.next? = some (.operation Opcode.codeSeparator.byte)
  · cases hhalt : s.isHalted with
    | true => rw [m.step_of_isHalted ctx hhalt]
    | false =>
      cases htaken : s.isExecuting with
      | true =>
        rcases separator_step_of_next hhalt hnext htaken with ⟨hevaluates, -⟩ | ⟨-, heq⟩
        · exact absurd hevaluates h
        · exact heq
      | false =>
        obtain ⟨control, operations, memory, fault, hstep⟩ := m.exists_step_dead ctx hhalt htaken
        rw [hstep]
        rfl
  · exact (m.transition_step ctx s).separator_eq hnext

/-! ## Runs -/

variable (m ctx) in
/-- Of the first `n` steps from a state, the one after `k` steps was the last to evaluate a code
separator. -/
structure LastSeparates (s : State) (n k : Nat) : Prop where
  lt : k < n
  evaluates : m.EvaluatesSeparator ((m.step ctx)^[k] s)
  later : ∀ j, k < j → j < n → ¬ m.EvaluatesSeparator ((m.step ctx)^[j] s)

theorem LastSeparates.unique {n k l : Nat} (hk : m.LastSeparates ctx s n k)
    (hl : m.LastSeparates ctx s n l) : k = l := by
  rcases Nat.lt_trichotomy k l with hlt | heq | hlt
  · exact absurd hl.evaluates (hk.later l hlt hl.lt)
  · exact heq
  · exact absurd hk.evaluates (hl.later k hlt hk.lt)

variable (m ctx) in
theorem separator_iterate (s : State) (n : Nat) :
    (∀ k < n, ¬ m.EvaluatesSeparator ((m.step ctx)^[k] s)) ∧
        ((m.step ctx)^[n] s).separator = s.separator ∨
      ∃ k, m.LastSeparates ctx s n k ∧
        ((m.step ctx)^[n] s).separator = some ((m.step ctx)^[k] s).pointer := by
  -- The last step either evaluates a separator, or leaves the answer of the steps before it.
  induction n with
  | zero => exact .inl ⟨by simp, rfl⟩
  | succ n ih =>
    rw [Function.iterate_succ_apply']
    by_cases hlast : m.EvaluatesSeparator ((m.step ctx)^[n] s)
    · refine .inr ⟨n, ⟨Nat.lt_succ_self n, hlast, ?_⟩, hlast.separator_step⟩
      intro j hj hjn
      omega
    · rw [separator_step_of_not hlast]
      rcases ih with ⟨hnone, heq⟩ | ⟨k, hk, heq⟩
      · refine .inl ⟨fun k hkn ↦ ?_, heq⟩
        rcases Nat.lt_succ_iff_lt_or_eq.mp hkn with hkn | rfl
        · exact hnone k hkn
        · exact hlast
      · refine .inr ⟨k, ⟨Nat.lt_succ_of_lt hk.lt, hk.evaluates, fun j hkj hjn ↦ ?_⟩, heq⟩
        rcases Nat.lt_succ_iff_lt_or_eq.mp hjn with hjn | rfl
        · exact hk.later j hkj hjn
        · exact hlast

theorem separator_eq_none_iff (hs : s.separator = none) (n : Nat) :
    ((m.step ctx)^[n] s).separator = none ↔
      ∀ k < n, ¬ m.EvaluatesSeparator ((m.step ctx)^[k] s) := by
  rcases m.separator_iterate ctx s n with ⟨hnone, heq⟩ | ⟨k, hk, heq⟩
  · rw [heq, hs]
    exact ⟨fun _ ↦ hnone, fun _ ↦ rfl⟩
  · rw [heq]
    exact ⟨fun h ↦ (Option.some_ne_none _ h).elim, fun h ↦ absurd hk.evaluates (h k hk.lt)⟩

theorem separator_eq_some_iff (hs : s.separator = none) (n index : Nat) :
    ((m.step ctx)^[n] s).separator = some index ↔
      ∃ k, m.LastSeparates ctx s n k ∧ ((m.step ctx)^[k] s).pointer = index := by
  rcases m.separator_iterate ctx s n with ⟨hnone, heq⟩ | ⟨k, hk, heq⟩
  · rw [heq, hs]
    constructor
    · intro h
      cases h
    · rintro ⟨k, hk, -⟩
      exact absurd hk.evaluates (hnone k hk.lt)
  · rw [heq, Option.some.injEq]
    constructor
    · intro h
      exact ⟨k, hk, h⟩
    · rintro ⟨l, hl, h⟩
      rwa [hk.unique hl]

theorem program_iterate (bytecode : Bytes) (n : Nat) :
    ((m.step ctx)^[n] (m.start ctx bytecode)).program = Instruction.parse bytecode :=
  iterate_invariant (P := fun s ↦ s.program = Instruction.parse bytecode)
    (fun _ _ h hs ↦ h.program_eq.trans hs) rfl n

end Machine

/-- The active bytecode is a suffix of the bytecode, and its instructions are those that remain. -/
theorem State.activeBytecode_eq {s : State} {bytecode : Bytes}
    (hprogram : s.program = Instruction.parse bytecode) :
    s.activeBytecode = bytecode.drop (Instruction.offset s.program s.activeStart) ∧
      Instruction.parse s.activeBytecode = s.program.drop s.activeStart := by
  unfold activeBytecode
  constructor
  · rw [Instruction.serialize_drop, hprogram, Instruction.serialize_parse]
  · apply Instruction.parse_serialize
    rw [hprogram]
    exact (Instruction.wellFormed_parse bytecode).drop _

/-- In every state that steps reach, the last separator is that of the last step that evaluated one,
and there is none as long as no step did. The active bytecode is the bytecode without all bytes up
to and including that separator, and reads as the instructions after it. -/
theorem Machine.activeBytecode_suffix (m : Machine) (ctx : Context) (bytecode : Bytes) (n : Nat) :
    let program := Instruction.parse bytecode
    let first := m.start ctx bytecode
    let s := (m.step ctx)^[n] first
    let remaining := s.separator.elim 0 (· + 1)
    let start := s.separator.elim 0 fun index ↦ Instruction.offset program (index + 1)
    (s.separator = none ↔ ∀ k < n, ¬ m.EvaluatesSeparator ((m.step ctx)^[k] first)) ∧
      (∀ index, s.separator = some index ↔
        ∃ k, m.LastSeparates ctx first n k ∧ ((m.step ctx)^[k] first).pointer = index) ∧
      (∀ index, s.separator = some index →
        program[index]? = some (.operation Opcode.codeSeparator.byte) ∧
          bytecode[Instruction.offset program index]? = some Opcode.codeSeparator.byte ∧
          Instruction.offset program (index + 1) = Instruction.offset program index + 1) ∧
      s.activeBytecode = bytecode.drop start ∧
      Instruction.parse s.activeBytecode = program.drop remaining := by
  intro program first s remaining start
  have hprogram : s.program = program := program_iterate bytecode n
  have hfirst : first.separator = none := rfl
  have hsome : ∀ index, s.separator = some index → program[index]? = some
      (.operation Opcode.codeSeparator.byte) := by
    intro index hindex
    obtain ⟨k, hk, rfl⟩ := (separator_eq_some_iff hfirst n index).mp hindex
    have hnext := hk.evaluates.next
    rwa [State.next?, program_iterate] at hnext
  have hremaining : s.activeStart = remaining := by
    cases hseparator : s.separator with
    | none => simp [State.activeStart, remaining, hseparator]
    | some index =>
      obtain ⟨hlt, -⟩ := List.getElem?_eq_some_iff.mp (hsome index hseparator)
      rw [← hprogram] at hlt
      simp [State.activeStart, remaining, hseparator, hlt]
  have hstart : Instruction.offset program remaining = start := by
    cases hseparator : s.separator with
    | none => simp [remaining, start, hseparator]
    | some index => simp [remaining, start, hseparator]
  obtain ⟨hbytes, hinstructions⟩ := State.activeBytecode_eq hprogram
  rw [hprogram, hremaining, hstart] at hbytes
  rw [hprogram, hremaining] at hinstructions
  refine ⟨separator_eq_none_iff hfirst n, separator_eq_some_iff hfirst n, ?_, hbytes, hinstructions⟩
  intro index hindex
  have hi := hsome index hindex
  have hbyte := Instruction.getElem?_serialize_offset hi
  rw [Instruction.serialize_parse] at hbyte
  exact ⟨hi, hbyte, Instruction.offset_succ hi⟩

/-- The second turn of a loop takes a branch with a separator that stands before that of the first
turn. The bytecode ends in a push that is cut off. -/
theorem Machine.activeBytecode_suffix_loop :
    let m : Machine := { policy := .ofEdition .y2026 }
    let bytecode : Bytes :=
      [0x51, 0x00, 0x65, 0x63, 0xab, 0x51, 0x67, 0xab, 0x00, 0x68, 0x66, 0x4d, 0xab]
    let s := (m.step {})^[20] (m.start {} bytecode)
    s.fault = some .malformedPush ∧ s.separator = some 4 ∧
      (∃ k, m.LastSeparates {} (m.start {} bytecode) 20 k) ∧
      bytecode[Instruction.offset (Instruction.parse bytecode) 4]? = some 0xab ∧
      s.activeBytecode = bytecode.drop 5 ∧
      Instruction.parse s.activeBytecode = (Instruction.parse bytecode).drop 5 := by
  intro m bytecode s
  have hseparator : s.separator = some 4 := by decide +kernel
  have hoffset : Instruction.offset (Instruction.parse bytecode) 5 = 5 := by decide +kernel
  obtain ⟨-, hlast, hplace, hbytes, hinstructions⟩ := activeBytecode_suffix m {} bytecode 20
  obtain ⟨k, hk, -⟩ := (hlast 4).mp hseparator
  change s.activeBytecode = bytecode.drop (s.separator.elim 0 fun index ↦
    Instruction.offset (Instruction.parse bytecode) (index + 1)) at hbytes
  change Instruction.parse s.activeBytecode =
    (Instruction.parse bytecode).drop (s.separator.elim 0 (· + 1)) at hinstructions
  rw [hseparator, Option.elim_some] at hbytes hinstructions
  rw [hoffset] at hbytes
  exact ⟨by decide +kernel, hseparator, ⟨k, hk⟩, (hplace 4 hseparator).2.1, hbytes, hinstructions⟩

end ScriptMachine
