import ScriptMachine.Bytes.Lemmas
import ScriptMachine.Instruction.Basic

/-!
# Bytecode and instructions

Reading bytecode loses nothing, so bytecode and the instructions read from it are two forms of the
same thing. The instructions that can be read are the well-formed ones: lengths agree with the
opcodes that give them, and a push that is cut off stands at the end.
-/

namespace ScriptMachine.Instruction

/-- A push opcode can give this length: a direct push only its own value, the others any number that
fits the bytes of their length. -/
def Declares (opcode : UInt8) (length : Nat) : Prop :=
  match lengthWidth? opcode with
  | none => False
  | some 0 => length = opcode.toNat
  | some width => length < 256 ^ width

/-- A push with this opcode can be cut off in this way: in its length, of which nothing but the
bytes that are there is known, or in its data. -/
def CanCut (opcode : UInt8) (cut : Cut) : Prop :=
  (∃ present ∈ cut.lengthBytes, ∃ width ∈ lengthWidth? opcode,
      present.length < width ∧ cut = .inLength present width) ∨
    ∃ declared ∈ cut.declared,
      Declares opcode declared ∧ cut.data.length < declared ∧ cut = .inData cut.data declared

/-- The opcode of an instruction is one of its kind, and the lengths agree with it. -/
def IsFormed : Instruction → Prop
  | operation opcode => lengthWidth? opcode = none
  | push opcode data => Declares opcode data.length
  | truncated opcode cut => CanCut opcode cut

/-- All instructions are formed, and none but the last is cut off. -/
def WellFormed (instructions : List Instruction) : Prop :=
  (∀ i ∈ instructions, i.IsFormed) ∧ ∀ i ∈ instructions.dropLast, i.isTruncated = false

instance (opcode : UInt8) (length : Nat) : Decidable (Declares opcode length) :=
  match h : lengthWidth? opcode with
  | none => .isFalse (by simp [Declares, h])
  | some 0 => decidable_of_iff (length = opcode.toNat) (by simp [Declares, h])
  | some (width + 1) => decidable_of_iff (length < 256 ^ (width + 1)) (by simp [Declares, h])

instance (opcode : UInt8) (cut : Cut) : Decidable (CanCut opcode cut) :=
  inferInstanceAs (Decidable (_ ∨ _))

instance : DecidablePred IsFormed
  | operation opcode => inferInstanceAs (Decidable (lengthWidth? opcode = none))
  | push opcode data => inferInstanceAs (Decidable (Declares opcode data.length))
  | truncated opcode cut => inferInstanceAs (Decidable (CanCut opcode cut))

instance : DecidablePred WellFormed := fun _ ↦ inferInstanceAs (Decidable (_ ∧ _))

variable {opcode : UInt8} {length width : Nat} {rest data : Bytes} {i : Instruction}
  {instructions : List Instruction}

/-! ## Reading one instruction -/

theorem lengthField_of_width (h : lengthWidth? opcode = some width) (length : Nat) :
    lengthField opcode length = Bytes.ofNatLE width length := by
  simp [lengthField, h]

/-- The bytes of a length are those that give it. -/
theorem lengthField_toNatLE (h : lengthWidth? opcode = some rest.length) :
    lengthField opcode (Bytes.toNatLE rest) = rest := by
  rw [lengthField_of_width h, Bytes.ofNatLE_toNatLE]

theorem declares_toNatLE (h : lengthWidth? opcode = some (width + 1))
    (hrest : rest.length = width + 1) : Declares opcode (Bytes.toNatLE rest) := by
  simp only [Declares, h]
  exact hrest ▸ Bytes.toNatLE_lt rest

theorem readNext_of_width_none (h : lengthWidth? opcode = none) (rest : Bytes) :
    readNext opcode rest = (operation opcode, rest) := by
  simp [readNext, h]

theorem readNext_of_width_zero (h : lengthWidth? opcode = some 0) (rest : Bytes) :
    readNext opcode rest = readPayload opcode opcode.toNat rest := by
  simp [readNext, h]

theorem readNext_of_width_succ (h : lengthWidth? opcode = some (width + 1)) (rest : Bytes) :
    readNext opcode rest =
      if rest.length < width + 1 then (truncated opcode (.inLength rest (width + 1)), [])
      else readPayload opcode (Bytes.toNatLE (rest.take (width + 1))) (rest.drop (width + 1)) := by
  simp [readNext, h]

/-- The two ways that reading a push can end. -/
theorem readPayload_cases (opcode : UInt8) (length : Nat) (rest : Bytes) :
    (rest.length < length ∧
        readPayload opcode length rest = (truncated opcode (.inData rest length), [])) ∨
      ∃ data after, rest = data ++ after ∧ data.length = length ∧
        readPayload opcode length rest = (push opcode data, after) := by
  unfold readPayload
  split
  · rename_i hlt
    exact .inl ⟨hlt, rfl⟩
  · rename_i hle
    refine .inr ⟨rest.take length, rest.drop length, (List.take_append_drop _ _).symm, ?_, rfl⟩
    rw [List.length_take]
    omega

/-- What an opcode starts is nothing but the opcode, a push of a length that the opcode itself or
the bytes after it give, or a push whose length is cut off. -/
theorem readNext_cases (opcode : UInt8) (rest : Bytes) :
    (lengthWidth? opcode = none ∧ readNext opcode rest = (operation opcode, rest)) ∨
      (∃ width ∈ lengthWidth? opcode, rest.length < width ∧
        readNext opcode rest = (truncated opcode (.inLength rest width), [])) ∨
      ∃ length payload, Declares opcode length ∧ rest = lengthField opcode length ++ payload ∧
        readNext opcode rest = readPayload opcode length payload := by
  cases h : lengthWidth? opcode with
  | none => exact .inl ⟨rfl, readNext_of_width_none h rest⟩
  | some width =>
    cases width with
    | zero =>
      refine .inr (.inr ⟨opcode.toNat, rest, by simp [Declares, h], ?_,
        readNext_of_width_zero h rest⟩)
      simp [lengthField, h, Bytes.ofNatLE]
    | succ width =>
      rw [readNext_of_width_succ h]
      split
      · rename_i hlt
        exact .inr (.inl ⟨width + 1, rfl, hlt, rfl⟩)
      · rename_i hle
        have hlength : (rest.take (width + 1)).length = width + 1 := by
          rw [List.length_take]
          omega
        refine .inr (.inr ⟨_, rest.drop (width + 1), declares_toNatLE h hlength, ?_, rfl⟩)
        rw [lengthField_toNatLE (hlength.symm ▸ h), List.take_append_drop]

theorem encode_readNext (opcode : UInt8) (rest : Bytes) :
    (readNext opcode rest).1.encode ++ (readNext opcode rest).2 = opcode :: rest := by
  obtain ⟨-, hread⟩ | ⟨width, -, -, hread⟩ | ⟨length, payload, -, rfl, hread⟩ :=
    readNext_cases opcode rest
  · simp [hread, encode]
  · simp [hread, encode, Cut.inLength]
  · rw [hread]
    obtain ⟨-, hpayload⟩ | ⟨data, after, rfl, rfl, hpayload⟩ :=
      readPayload_cases opcode length payload
    · simp [hpayload, encode, Cut.inData, Cut.length]
    · simp [hpayload, encode]

/-- What is read is formed, and where it is cut off nothing is left. -/
theorem isFormed_readNext (opcode : UInt8) (rest : Bytes) :
    (readNext opcode rest).1.IsFormed ∧
      ((readNext opcode rest).1.isTruncated = false ∨ (readNext opcode rest).2 = []) := by
  obtain ⟨hopcode, hread⟩ | ⟨width, hwidth, hlt, hread⟩ | ⟨length, payload, hlength, -, hread⟩ :=
    readNext_cases opcode rest
  · rw [hread]
    exact ⟨hopcode, .inl rfl⟩
  · rw [hread]
    exact ⟨.inl ⟨rest, rfl, width, hwidth, hlt, rfl⟩, .inr rfl⟩
  · rw [hread]
    obtain ⟨hlt, hpayload⟩ | ⟨data, after, -, rfl, hpayload⟩ :=
      readPayload_cases opcode length payload
    · rw [hpayload]
      exact ⟨.inr ⟨length, rfl, hlength, hlt, rfl⟩, .inr rfl⟩
    · rw [hpayload]
      exact ⟨hlength, .inl rfl⟩

/-! ## Reading bytecode -/

theorem parse_nil : parse [] = [] := by rw [parse]

theorem parse_cons (opcode : UInt8) (rest : Bytes) :
    parse (opcode :: rest) = (readNext opcode rest).1 :: parse (readNext opcode rest).2 := by
  rw [parse]

/-- Reading loses nothing. -/
theorem serialize_parse (bytecode : Bytes) : serialize (parse bytecode) = bytecode := by
  induction bytecode using parse.induct with
  | case1 => rw [parse_nil]; rfl
  | case2 opcode rest ih =>
    rw [parse_cons]
    exact (congrArg _ ih).trans (encode_readNext opcode rest)

theorem wellFormed_nil : WellFormed [] := ⟨by simp, by simp⟩

theorem wellFormed_cons_iff :
    WellFormed (i :: instructions) ↔
      i.IsFormed ∧ (i.isTruncated = false ∨ instructions = []) ∧ WellFormed instructions := by
  cases instructions with
  | nil => simp [WellFormed]
  | cons next others =>
    simp only [WellFormed, List.forall_mem_cons, List.dropLast_cons_cons, reduceCtorEq, or_false]
    tauto

theorem wellFormed_parse (bytecode : Bytes) : WellFormed (parse bytecode) := by
  induction bytecode using parse.induct with
  | case1 => rw [parse_nil]; exact wellFormed_nil
  | case2 opcode rest ih =>
    rw [parse_cons]
    obtain ⟨hformed, hlast⟩ := isFormed_readNext opcode rest
    refine wellFormed_cons_iff.mpr ⟨hformed, hlast.imp_right fun hrest ↦ ?_, ih⟩
    rw [hrest, parse_nil]

/-! ## Reading what was written -/

/-- The bytes of a length give it back. -/
theorem readNext_lengthField (h : Declares opcode length) (payload : Bytes) :
    readNext opcode (lengthField opcode length ++ payload) = readPayload opcode length payload := by
  cases hwidth : lengthWidth? opcode with
  | none => simp [Declares, hwidth] at h
  | some width =>
    rw [lengthField_of_width hwidth]
    cases width with
    | zero =>
      obtain rfl : length = opcode.toNat := by simpa [Declares, hwidth] using h
      exact readNext_of_width_zero hwidth payload
    | succ width =>
      have hlt : length < 256 ^ (width + 1) := by simpa [Declares, hwidth] using h
      have hfield : (Bytes.ofNatLE (width + 1) length).length = width + 1 := by simp
      have hlong : ¬ (Bytes.ofNatLE (width + 1) length ++ payload).length < width + 1 := by
        rw [List.length_append, hfield]
        omega
      rw [readNext_of_width_succ hwidth, if_neg hlong, List.take_left' hfield,
        List.drop_left' hfield, Bytes.toNatLE_ofNatLE, Nat.mod_eq_of_lt hlt]

theorem readPayload_append (opcode : UInt8) (data after : Bytes) :
    readPayload opcode data.length (data ++ after) = (push opcode data, after) := by
  simp [readPayload]

theorem readPayload_of_lt (opcode : UInt8) (h : data.length < length) :
    readPayload opcode length data = (truncated opcode (.inData data length), []) := by
  simp [readPayload, h]

/-- A whole instruction is read back, whatever follows it. -/
theorem parse_encode_append (hi : i.IsFormed) (hwhole : i.isTruncated = false) (rest : Bytes) :
    parse (i.encode ++ rest) = i :: parse rest := by
  cases i with
  | operation opcode =>
    rw [encode, List.singleton_append, parse_cons, readNext_of_width_none hi]
  | push opcode data =>
    rw [encode, List.cons_append, List.append_assoc, parse_cons, readNext_lengthField hi,
      readPayload_append]
  | truncated opcode cut => cases hwhole

/-- A push that was cut off is read back where nothing follows it. -/
theorem parse_encode_of_isTruncated (hi : i.IsFormed) (hcut : i.isTruncated = true) :
    parse i.encode = [i] := by
  cases i with
  | operation opcode => cases hcut
  | push opcode data => cases hcut
  | truncated opcode cut =>
    rcases hi with ⟨present, -, width, hwidth, hlt, rfl⟩ | ⟨declared, -, hdeclares, hlt, heq⟩
    · obtain ⟨width, rfl⟩ := Nat.exists_eq_succ_of_ne_zero (Nat.ne_zero_of_lt hlt)
      change parse (opcode :: present) = _
      rw [parse_cons, readNext_of_width_succ hwidth, if_pos hlt, parse_nil]
    · rw [heq]
      change parse (opcode :: (lengthField opcode declared ++ cut.data)) = _
      rw [parse_cons, readNext_lengthField hdeclares, readPayload_of_lt opcode hlt, parse_nil]

theorem parse_serialize (h : WellFormed instructions) :
    parse (serialize instructions) = instructions := by
  induction instructions with
  | nil => exact parse_nil
  | cons i others ih =>
    obtain ⟨hi, hlast, hothers⟩ := wellFormed_cons_iff.mp h
    cases hcut : i.isTruncated with
    | false =>
      have hparse := parse_encode_append hi hcut (serialize others)
      rwa [ih hothers] at hparse
    | true =>
      -- Only the last instruction may be cut off, so nothing follows this one.
      obtain rfl : others = [] := by simpa [hcut] using hlast
      rw [serialize, List.flatMap_singleton]
      exact parse_encode_of_isTruncated hi hcut

/-- Bytecode is recovered from its instructions, and instructions are recovered from their bytecode
exactly where they are well formed, as all instructions of bytecode are. -/
theorem parse_serialize_inverse :
    (∀ bytecode, serialize (parse bytecode) = bytecode) ∧
      (∀ instructions, parse (serialize instructions) = instructions ↔ WellFormed instructions) ∧
      ∀ bytecode, WellFormed (parse bytecode) := by
  refine ⟨serialize_parse, fun instructions ↦ ⟨fun h ↦ ?_, parse_serialize⟩, wellFormed_parse⟩
  rw [← h]
  exact wellFormed_parse _

end ScriptMachine.Instruction
