import ScriptMachine.Proofs.Machine.ActiveBytecode
import ScriptMachine.Proofs.Machine.Lexical

/-!
# Repeated bytes

A step passes the bytes of its instruction. A loop that repeats takes the pointer back, and counts
the bytes that it takes it back by. So the bytes of all instructions evaluated, each as often as it
was, are those before the pointer and those counted as repeated.
-/

namespace ScriptMachine

/-- The instruction that a step from this state evaluates; a halted state has none. -/
def State.evaluates? (s : State) : Option Instruction := if s.isHalted then none else s.next?

/-- The instructions that `n` steps evaluate, in order and each as often as it is evaluated. -/
def Machine.evaluated (m : Machine) (ctx : Context) (n : Nat) (s : State) : List Instruction :=
  (List.range n).filterMap fun k ↦ ((m.step ctx)^[k] s).evaluates?

theorem Machine.evaluated_succ (m : Machine) (ctx : Context) (n : Nat) (s : State) :
    m.evaluated ctx (n + 1) s = m.evaluated ctx n s ++ ((m.step ctx)^[n] s).evaluates?.toList := by
  rw [evaluated, List.range_succ, List.filterMap_append]
  cases h : ((m.step ctx)^[n] s).evaluates? <;> simp [evaluated, h]

theorem State.total_evaluates? {s : State} {i : Instruction} (hhalt : s.isHalted = false)
    (hi : s.next? = some i) :
    total Instruction.encodedLength s.evaluates?.toList = i.encodedLength := by
  simp [evaluates?, hhalt, hi]

/-! ## Where a loop goes back to -/

theorem Lexical.start_le {edition : Edition} {program : List Instruction} {pointer start : Nat}
    {rest : List Marker} (h : Lexical edition program pointer (.loop start :: rest)) :
    start ≤ pointer := by
  obtain ⟨-, hbelow⟩ := Construct.orderedBelow_of_scan h.scan_eq
  have hstart := hbelow start (by simp [Marker.construct, Construct.start?])
  exact hstart.trans (List.length_take_le _ _)

theorem Instruction.offset_add_spanLength (program : List Instruction) {start index : Nat}
    (h : start ≤ index + 1) :
    offset program start + Action.spanLength program start index = offset program (index + 1) := by
  have hstart : program.take start = (program.take (index + 1)).take start := by
    rw [List.take_take, Nat.min_eq_left h]
  rw [offset, Action.spanLength, hstart, ← total_append, List.take_append_drop, offset]

/-! ## Steps -/

theorem DataMoves.repeatedBytes_eq {p : Policy} {s t : State} (h : DataMoves p s t) :
    t.meter.repeatedBytes = s.meter.repeatedBytes := by
  refine h.meter_invariant (Q := fun meter ↦ meter.repeatedBytes = s.meter.repeatedBytes) ?_ rfl
  intro meter meter' hcharge hmeter
  cases hcharge <;> exact hmeter

/-- An instruction leaves the pointer and the count of repeated bytes alone, unless it is the end of
a loop that repeats. -/
theorem Turn.repeats_or_not {m : Machine} {index : Nat} {i : Instruction} {s t : State}
    (h : Turn m index i s t) :
    (t.pointer = s.pointer ∧ t.meter.repeatedBytes = s.meter.repeatedBytes) ∨
      ∃ start rest, s.control = .loop start :: rest ∧ t.pointer = start ∧
        t.meter.repeatedBytes =
          Amount.add s.meter.repeatedBytes (Action.spanLength s.program start index) := by
  cases h with
  | data hop h => exact .inl ⟨by rw [h.frame], h.repeatedBytes_eq⟩
  | openBranch taken hop h => exact .inl ⟨by rw [h.frame], h.repeatedBytes_eq⟩
  | leaveLoop hop hs h => exact .inl ⟨by rw [h.frame], h.repeatedBytes_eq⟩
  | @repeatLoop u start rest hop hs h =>
    refine .inr ⟨start, rest, hs, rfl, ?_⟩
    rw [← h.repeatedBytes_eq]
    rfl
  | separator | turnBranch | closeBranch | openLoop => exact .inl ⟨rfl, rfl⟩

/-- `bytes` are those before the pointer and the repeated ones, of which the meter counts as many as
it can. -/
def State.Tallies (s : State) (bytes : Nat) : Prop :=
  ∃ repeated, bytes = Instruction.offset s.program s.pointer + repeated ∧
    s.meter.repeatedBytes = min repeated Amount.top

theorem Turn.tallies {m : Machine} {index : Nat} {i : Instruction} {s t : State}
    (h : Turn m index i s t) (hpointer : s.pointer = index + 1)
    (hloop : ∀ start rest, s.control = .loop start :: rest → start ≤ index + 1) {bytes : Nat}
    (hs : s.Tallies bytes) : t.Tallies bytes := by
  obtain ⟨repeated, hbytes, hcount⟩ := hs
  have hprogram : t.program = s.program := by rw [h.frame]
  rcases h.repeats_or_not with ⟨hsame, hmeter⟩ | ⟨start, rest, hcontrol, hback, hmeter⟩
  · exact ⟨repeated, by rw [hprogram, hsame, hbytes], hmeter.trans hcount⟩
  · -- The jump takes the offset back by what it adds to the repeated bytes.
    have hspan := Instruction.offset_add_spanLength s.program (hloop start rest hcontrol)
    refine ⟨repeated + Action.spanLength s.program start index, ?_, ?_⟩
    · rw [hprogram, hback, hbytes, hpointer, ← hspan]
      omega
    · rw [hmeter, hcount]
      unfold Amount.add
      omega

theorem State.Tallies.advance {m : Machine} {s : State} {i : Instruction} {bytes : Nat}
    (hs : s.Tallies bytes) (hi : s.next? = some i) (operations : Nat) :
    State.Tallies { m.advance s with operations := operations } (bytes + i.encodedLength) := by
  obtain ⟨repeated, hbytes, hcount⟩ := hs
  have hoffset : Instruction.offset s.program (s.pointer + 1) =
      Instruction.offset s.program s.pointer + i.encodedLength := Instruction.offset_succ hi
  refine ⟨repeated, ?_, hcount⟩
  change _ = Instruction.offset s.program (s.pointer + 1) + repeated
  omega

/-- A step adds the bytes of the instruction that it evaluates, whether or not it fails. -/
theorem Transition.tallies {m : Machine} {s t : State} (h : Transition m s t) {bytes : Nat}
    (hloop : s.isHalted = false → ∀ start rest, s.control = .loop start :: rest → start ≤ s.pointer)
    (hs : s.Tallies bytes) :
    t.Tallies (bytes + total Instruction.encodedLength s.evaluates?.toList) := by
  have hloop' : s.isHalted = false → ∀ start rest, s.control = .loop start :: rest →
      start ≤ s.pointer + 1 := fun hhalt start rest hcontrol ↦
    (hloop hhalt start rest hcontrol).trans (Nat.le_succ _)
  cases h with
  | halted hhalt => simpa [State.evaluates?, hhalt] using hs
  | failed operations fault hhalt h =>
    have hi := List.getElem?_eq_getElem (State.pointer_lt_of_not_halted hhalt)
    obtain ⟨repeated, hbytes, hcount⟩ := hs.advance (m := m) hi operations
    rw [State.total_evaluates? hhalt hi]
    refine ⟨repeated, ?_, h.repeatedBytes_eq.trans hcount⟩
    rw [hbytes, h.frame]
  | exceeded operations memory fault hhalt hi h =>
    rw [State.total_evaluates? hhalt hi]
    exact h.tallies rfl (hloop' hhalt) (hs.advance hi operations)
  | done operations hhalt hi hoperations h =>
    rw [State.total_evaluates? hhalt hi]
    exact h.tallies rfl (hloop' hhalt) (hs.advance hi operations)

namespace Machine

variable (m : Machine) (ctx : Context)

theorem tallies_iterate (bytecode : Bytes) (n : Nat) :
    ((m.step ctx)^[n] (m.start ctx bytecode)).Tallies
      (total Instruction.encodedLength (m.evaluated ctx n (m.start ctx bytecode))) := by
  induction n with
  | zero => exact ⟨0, rfl, rfl⟩
  | succ n ih =>
    rw [evaluated_succ, total_append, Function.iterate_succ_apply']
    refine (m.transition_step ctx _).tallies (fun hhalt start rest hcontrol ↦ ?_) ih
    have hlexical := (m.lexical_iterate ctx bytecode n).2 (State.fault_eq_none_of_not_halted hhalt)
    rw [hcontrol] at hlexical
    exact hlexical.start_le

/-- In every state that steps reach, with or without a fault, the bytes of all instructions that
were evaluated, each as often as it was, are those of the bytecode before the next instruction and
the repeated bytes. The count of the latter is exact unless it has stopped at the largest amount. -/
theorem evaluated_bytes_eq_offset_add_repeated (bytecode : Bytes) (n : Nat) :
    let s := (m.step ctx)^[n] (m.start ctx bytecode)
    let offset := Instruction.offset s.program s.pointer
    let evaluated := total Instruction.encodedLength (m.evaluated ctx n (m.start ctx bytecode))
    Instruction.serialize (s.program.take s.pointer) = bytecode.take offset ∧
      Instruction.serialize (s.program.drop s.pointer) = bytecode.drop offset ∧
      (s.program.length ≤ s.pointer → offset = bytecode.length) ∧
      offset ≤ evaluated ∧ s.meter.repeatedBytes = min (evaluated - offset) (2 ^ 64 - 1) ∧
      (evaluated - offset < 2 ^ 64 → evaluated = offset + s.meter.repeatedBytes) ∧
      (s.meter.repeatedBytes < 2 ^ 64 - 1 → evaluated = offset + s.meter.repeatedBytes) := by
  intro s offset evaluated
  have hbytecode : Instruction.serialize s.program = bytecode := by
    rw [show s.program = Instruction.parse bytecode from program_iterate bytecode n,
      Instruction.serialize_parse]
  obtain ⟨repeated, hbytes, hcount⟩ := m.tallies_iterate ctx bytecode n
  have htop : Amount.top = 2 ^ 64 - 1 := rfl
  change evaluated = offset + repeated at hbytes
  change s.meter.repeatedBytes = min repeated Amount.top at hcount
  refine ⟨?_, ?_, fun hend ↦ ?_, by omega, by omega, by omega, by omega⟩
  · rw [Instruction.serialize_take, hbytecode]
  · rw [Instruction.serialize_drop, hbytecode]
  · rw [← hbytecode, Instruction.length_serialize]
    simp only [offset, Instruction.offset, List.take_of_length_le hend]

/-- An inner loop repeats once in the first of two turns of an outer one, and then the bytecode
fails. -/
theorem evaluated_bytes_eq_offset_add_repeated_nested :
    let m : Machine := { policy := .ofEdition .y2026 }
    let bytecode : Bytes := [0x51, 0x51, 0x00, 0x51, 0x00, 0x65, 0x02, 0xaa, 0xbb, 0x75, 0x65, 0x61,
      0x66, 0x66, 0x6a]
    let s := (m.step {})^[21] (m.start {} bytecode)
    s.fault = some .calledReturn ∧ s.meter.repeatedBytes = 10 ∧
      Instruction.offset s.program s.pointer = 15 ∧
      total Instruction.encodedLength (m.evaluated {} 21 (m.start {} bytecode)) = 25 := by
  intro m bytecode s
  have hrepeated : s.meter.repeatedBytes = 10 := by decide +kernel
  have hoffset : Instruction.offset s.program s.pointer = 15 := by decide +kernel
  obtain ⟨-, -, -, -, -, -, hevaluated⟩ :=
    evaluated_bytes_eq_offset_add_repeated m {} bytecode 21
  change s.meter.repeatedBytes < 2 ^ 64 - 1 → _ =
    Instruction.offset s.program s.pointer + s.meter.repeatedBytes at hevaluated
  rw [hrepeated, hoffset] at hevaluated
  exact ⟨by decide +kernel, hrepeated, hoffset, hevaluated (by norm_num)⟩

end Machine

end ScriptMachine
