import ScriptMachine.Instruction.MinimalPush
import ScriptMachine.Proofs.Instruction.Codec
import ScriptMachine.ScriptNumber

/-!
# Shortest pushes

An item can be pushed by several instructions, which differ in the width of the length that they
give. One of them is shorter than all others.
-/

namespace ScriptMachine.Instruction

variable {opcode : UInt8} {length : Nat} {data : Bytes} {i : Instruction}

/-- The item that an instruction pushes: its data, minus one, or a number from one to sixteen. -/
def pushed? : Instruction → Option Bytes
  | push _ data => some data
  | operation opcode =>
    if opcode = 0x4f then some [0x81]
    else if 0x51 ≤ opcode ∧ opcode ≤ 0x60 then some [opcode - 0x50]
    else none
  | truncated _ _ => none

theorem pushed?_small {b : UInt8} (hb : 1 ≤ b ∧ b ≤ 16) :
    (operation (0x50 + b)).pushed? = some [b] := by
  have hrange : 0x51 ≤ 0x50 + b ∧ 0x50 + b ≤ 0x60 := by
    simp only [UInt8.le_iff_toNat_le, UInt8.toNat_add, UInt8.toNat_ofNat] at hb ⊢
    omega
  have hne : 0x50 + b ≠ 0x4f := by
    intro h
    rw [h] at hrange
    exact absurd hrange.1 (by decide)
  rw [pushed?, if_neg hne, if_pos hrange, add_sub_cancel_left]

theorem pushed?_of_constantOpcode? {data : Bytes} {opcode : UInt8}
    (h : constantOpcode? data = some opcode) : (operation opcode).pushed? = some data := by
  match data with
  | [b] =>
    simp only [constantOpcode?] at h
    split_ifs at h with hsmall hnegative
    · obtain rfl := Option.some.inj h
      exact pushed?_small hsmall
    · obtain rfl := Option.some.inj h
      rw [hnegative]
      rfl
  | [] | _ :: _ :: _ => cases h

/-- The shortest push of an item pushes that item. -/
theorem pushed?_minimalPush (data : Bytes) : (minimalPush data).pushed? = some data := by
  unfold minimalPush
  split
  · exact pushed?_of_constantOpcode? ‹_›
  · rfl

/-- A push that is the shortest of its item is the one that is made for the item. -/
theorem minimalPush_of_isMinimal {opcode : UInt8} {data : Bytes}
    (h : (push opcode data).isMinimal = true) : push opcode data = minimalPush data := by
  simp only [isMinimal, Bool.and_eq_true, Option.isNone_iff_eq_none, beq_iff_eq] at h
  simp [minimalPush, h.1, h.2]

/-- The opcodes of small numbers are the shortest pushes of their encodings. -/
theorem operation_small (n : Fin 16) :
    operation (Opcode.small n).byte = minimalPush (ScriptNumber.encode (n.val + 1)) := by
  revert n
  decide

theorem constantOpcode?_of_pushed? (h : (operation opcode).pushed? = some data) :
    constantOpcode? data = some opcode := by
  rw [pushed?] at h
  split_ifs at h with hnegative hsmall
  · obtain rfl := Option.some.inj h
    rw [hnegative]
    decide
  · obtain rfl := Option.some.inj h
    have hrange : 1 ≤ opcode - 0x50 ∧ opcode - 0x50 ≤ 16 := by
      have hle : 0x50 ≤ opcode := UInt8.le_trans (by decide) hsmall.1
      simp only [UInt8.le_iff_toNat_le, UInt8.toNat_sub_of_le _ _ hle] at hsmall ⊢
      simp only [UInt8.toNat_ofNat] at hsmall ⊢
      omega
    rw [constantOpcode?, if_pos hrange, add_sub_cancel]

/-! ## The narrowest length -/

theorem toNat_ofNat_of_direct (h : length ≤ 0x4b) : (UInt8.ofNat length).toNat = length := by
  apply UInt8.toNat_ofNat_of_lt'
  change length < 256
  omega

theorem lengthWidth?_ofNat (h : length ≤ 0x4b) : lengthWidth? (UInt8.ofNat length) = some 0 := by
  apply if_pos
  rw [UInt8.le_iff_toNat_le, toNat_ofNat_of_direct h]
  exact h

theorem declares_narrowestPush (h : length < 2 ^ 32) : Declares (narrowestPush length) length := by
  unfold narrowestPush
  split_ifs with hdirect hone htwo
  · simp [Declares, lengthWidth?_ofNat hdirect, toNat_ofNat_of_direct hdirect]
  · change length < 256 ^ 1
    omega
  · change length < 256 ^ 2
    omega
  · change length < 256 ^ 4
    omega

/-- Opcodes that give the length apart from themselves. -/
theorem eq_of_declares (h : Declares opcode length) (hdirect : ¬ opcode ≤ Opcode.maxDirectPush) :
    (opcode = 0x4c ∧ length ≤ 0xff) ∨ (opcode = 0x4d ∧ length ≤ 0xffff) ∨ opcode = 0x4e := by
  rw [Declares, lengthWidth?, if_neg hdirect] at h
  split_ifs at h with hone htwo hfour
  · exact .inl ⟨hone, Nat.le_of_lt_succ h⟩
  · exact .inr (.inl ⟨htwo, Nat.le_of_lt_succ h⟩)
  · exact .inr (.inr hfour)
  · exact h.elim

/-- Any other opcode for the same length gives it in more bytes. -/
theorem eq_narrowestPush_or_wider (h : Declares opcode length) :
    opcode = narrowestPush length ∨
      (lengthWidth? (narrowestPush length)).getD 0 < (lengthWidth? opcode).getD 0 := by
  by_cases hdirect : opcode ≤ Opcode.maxDirectPush
  · have hwidth : lengthWidth? opcode = some 0 := if_pos hdirect
    obtain rfl : length = opcode.toNat := by simpa [Declares, hwidth] using h
    left
    have hlength : opcode.toNat ≤ 0x4b := UInt8.le_iff_toNat_le.mp hdirect
    rw [narrowestPush, if_pos hlength, UInt8.ofNat_toNat]
  · have hopcode := eq_of_declares h hdirect
    unfold narrowestPush
    split_ifs with hshort hone htwo
    · -- The length needs no bytes of its own, but the opcode gives it in some.
      right
      rw [lengthWidth?_ofNat hshort]
      obtain ⟨rfl, -⟩ | ⟨rfl, -⟩ | rfl := hopcode <;> decide
    · obtain ⟨rfl, -⟩ | ⟨rfl, -⟩ | rfl := hopcode <;> decide
    · obtain ⟨rfl, hlength⟩ | ⟨rfl, -⟩ | rfl := hopcode
      · exact absurd hlength hone
      · decide
      · decide
    · obtain ⟨rfl, hlength⟩ | ⟨rfl, hlength⟩ | rfl := hopcode
      · exact absurd hlength hone
      · exact absurd hlength htwo
      · exact .inl rfl

/-! ## The shortest push -/

theorem minimalPush_of_constantOpcode? (h : constantOpcode? data = some opcode) :
    minimalPush data = operation opcode := by
  simp only [minimalPush, h]

theorem minimalPush_of_constantOpcode?_eq_none (h : constantOpcode? data = none) :
    minimalPush data = push (narrowestPush data.length) data := by
  simp only [minimalPush, h]

theorem isMinimal_minimalPush (data : Bytes) : (minimalPush data).isMinimal = true := by
  cases hconstant : constantOpcode? data with
  | some opcode =>
    rw [minimalPush_of_constantOpcode? hconstant]
    rfl
  | none =>
    rw [minimalPush_of_constantOpcode?_eq_none hconstant]
    simp [isMinimal, hconstant]

theorem length_of_constantOpcode? (h : constantOpcode? data = some opcode) : data.length = 1 := by
  match data with
  | [_] => rfl
  | [] | _ :: _ :: _ => cases h

/-- Opcodes after those of pushes are followed by no bytes. -/
theorem lengthWidth?_of_lt (h : 0x4e < opcode) : lengthWidth? opcode = none := by
  have hne : ∀ byte : UInt8, byte ≤ 0x4e → opcode ≠ byte := by
    rintro byte hbyte rfl
    exact UInt8.not_le.mpr h hbyte
  have hdirect : ¬ opcode ≤ Opcode.maxDirectPush := fun hle ↦
    UInt8.not_le.mpr h (UInt8.le_trans hle (by decide))
  rw [lengthWidth?, if_neg hdirect, if_neg (hne 0x4c (by decide)), if_neg (hne 0x4d (by decide)),
    if_neg (hne 0x4e (by decide))]

theorem lengthWidth?_of_constantOpcode? (h : constantOpcode? data = some opcode) :
    lengthWidth? opcode = none := by
  have hpushed := pushed?_of_constantOpcode? h
  rw [pushed?] at hpushed
  apply lengthWidth?_of_lt
  split_ifs at hpushed with hnegative hsmall
  · rw [hnegative]
    decide
  · exact UInt8.lt_of_lt_of_le (by decide) hsmall.1

theorem isFormed_minimalPush (h : data.length < 2 ^ 32) : (minimalPush data).IsFormed := by
  cases hconstant : constantOpcode? data with
  | some opcode =>
    rw [minimalPush_of_constantOpcode? hconstant]
    exact lengthWidth?_of_constantOpcode? hconstant
  | none =>
    rw [minimalPush_of_constantOpcode?_eq_none hconstant]
    exact declares_narrowestPush h

theorem isTruncated_minimalPush (data : Bytes) : (minimalPush data).isTruncated = false := by
  unfold minimalPush
  split <;> rfl

theorem parse_encodePush (h : data.length < 2 ^ 32) :
    parse (encodePush data) = [minimalPush data] := by
  have hparse := parse_encode_append (isFormed_minimalPush h) (isTruncated_minimalPush data) []
  rwa [List.append_nil, parse_nil] at hparse

/-- Any other instruction that pushes the same item is longer, and is refused as a push. -/
theorem longer_of_ne_minimalPush (hi : i.IsFormed) (hpushed : i.pushed? = some data)
    (hne : i ≠ minimalPush data) :
    (minimalPush data).encode.length < i.encode.length ∧ i.isMinimal = false := by
  cases i with
  | truncated opcode cut => cases hpushed
  | operation opcode =>
    have hconstant := constantOpcode?_of_pushed? hpushed
    exact absurd (minimalPush_of_constantOpcode? hconstant).symm hne
  | push opcode data' =>
    obtain rfl : data' = data := Option.some.inj hpushed
    refine ⟨?_, ?_⟩
    · rw [length_encode, length_encode]
      cases hconstant : constantOpcode? data' with
      | some constant =>
        have hlength := length_of_constantOpcode? hconstant
        rw [minimalPush_of_constantOpcode? hconstant, encodedLength, encodedLength]
        omega
      | none =>
        rw [minimalPush_of_constantOpcode?_eq_none hconstant] at hne ⊢
        rw [encodedLength, encodedLength]
        rcases eq_narrowestPush_or_wider hi with heq | hwider
        · exact absurd (by rw [heq]) hne
        · omega
    · rw [← Bool.not_eq_true]
      exact fun hminimal ↦ hne (minimalPush_of_isMinimal hminimal)

end ScriptMachine.Instruction
