import ScriptMachine.Proofs.Opcode.Naming

/-!
# Spellings of names

In each edition a byte has one name, and two bytes have a second one. Names that are derived from a
byte have one more kind of spelling: a plus sign before the number, after which zeros are ignored.
No other text is read as a name.
-/

namespace ScriptMachine.Opcode

/-- The name is derived from a byte without an opcode, but for a plus sign before its number and
zeros after the sign. -/
def IsSigned (edition : Edition) (byte : UInt8) (name : String) : Prop :=
  ofByte? edition byte = none ∧ ∃ zeros, name.toList =
    derivedWord byte ++ '+' :: (List.replicate zeros '0' ++ Nat.toDigits 10 byte.toNat)

variable {edition : Edition} {op : Opcode} {byte : UInt8} {name : String} {number : List Char}

/-! ## Bytes of opcodes -/

/-- Opcodes are listed in the order of their bytes, so no two have the same. -/
theorem nodup_bytes (edition : Edition) : ((available edition).map Opcode.byte).Nodup := by
  have horder : (((available edition).map Opcode.byte).map UInt8.toNat).IsChain (· < ·) := by
    cases edition <;> decide +kernel
  apply List.Nodup.of_map UInt8.toNat
  exact (List.isChain_iff_pairwise.mp horder).imp Nat.ne_of_lt

theorem ofByte?_byte (h : op ∈ available edition) : ofByte? edition op.byte = some op := by
  cases hfind : ofByte? edition op.byte with
  | none => exact absurd (List.find?_eq_none.mp hfind op h) (by simp)
  | some other =>
    have hmem := List.mem_of_find?_eq_some hfind
    rw [List.inj_on_of_nodup_map (nodup_bytes edition) hmem h (byte_of_ofByte? hfind)]

theorem ofByte?_of_isDirectPush (h : isDirectPush byte = true) : ofByte? edition byte = none := by
  have hall : ∀ op ∈ available edition, isDirectPush op.byte = false := by
    cases edition <;> decide +kernel
  rw [ofByte?, List.find?_eq_none]
  intro op hop hbyte
  rw [← beq_iff_eq.mp hbyte, hall op hop] at h
  cases h

/-! ## Names that are read -/

theorem of_ofMnemonic? (h : ofMnemonic? edition name = some op) :
    name = nameOfByte edition op.byte ∨ name = "OP_FALSE" ∧ op.byte = 0x00 ∨
      name = "OP_TRUE" ∧ op.byte = 0x51 := by
  rw [ofMnemonic?] at h
  split_ifs at h with hfalse htrue
  · cases h
    exact .inr (.inl ⟨hfalse, rfl⟩)
  · cases h
    exact .inr (.inr ⟨htrue, rfl⟩)
  · have hname : op.mnemonic = name := by simpa using List.find?_some h
    left
    rw [nameOfByte_of_isSome (ofByte?_byte (List.mem_of_find?_eq_some h)), hname]

/-- A name that is no mnemonic is a word for its byte and a number that is read as that byte. -/
theorem exists_number_of_byteOfName? (hname : ofMnemonic? edition name = none)
    (h : byteOfName? edition name = some byte) :
    ofByte? edition byte = none ∧
      ∃ number, name.toList = derivedWord byte ++ number ∧ derivedNumber? number = some byte := by
  simp only [byteOfName?, hname] at h
  rcases Option.or_eq_some_iff.mp h with hpush | ⟨-, hunknown⟩
  · obtain ⟨number, hword, hfilter⟩ := Option.bind_eq_some_iff.mp hpush
    obtain ⟨hnumber, hdirect⟩ := Option.filter_eq_some_iff.mp hfilter
    refine ⟨ofByte?_of_isDirectPush hdirect, number, ?_, hnumber⟩
    rw [derivedWord, if_pos hdirect]
    exact (List.append_eq_of_isPrefixOf?_eq_some hword).symm
  · obtain ⟨number, hword, hfilter⟩ := Option.bind_eq_some_iff.mp hunknown
    obtain ⟨hnumber, hbyte⟩ := Option.filter_eq_some_iff.mp hfilter
    rw [Bool.and_eq_true, Option.isNone_iff_eq_none, decide_eq_true_eq] at hbyte
    have hdirect : ¬ isDirectPush byte = true := by
      rw [isDirectPush, decide_eq_true_eq]
      exact fun hle ↦ UInt8.not_le.mpr hbyte.2 hle.2
    refine ⟨hbyte.1, number, ?_, hnumber⟩
    rw [derivedWord, if_neg hdirect]
    exact (List.append_eq_of_isPrefixOf?_eq_some hword).symm

theorem nameOfByte_or_isSigned (h : ofByte? edition byte = none)
    (hname : name.toList = derivedWord byte ++ number)
    (hnumber : derivedNumber? number = some byte) :
    name = nameOfByte edition byte ∨ IsSigned edition byte name := by
  obtain rfl | ⟨zeros, rfl⟩ := derivedNumber?_eq_some_iff.mp hnumber
  · left
    apply String.toList_injective
    rw [hname, toList_nameOfByte_of_isNone h]
  · exact .inr ⟨h, zeros, hname⟩

/-- Names are canonical but for a sign: a text stands for a byte where it is the name of that byte,
one of the two aliases, or a derived name with a plus sign before its number. -/
theorem accepted_names (edition : Edition) (name : String) (byte : UInt8) :
    byteOfName? edition name = some byte ↔
      name = nameOfByte edition byte ∨ name = "OP_FALSE" ∧ byte = 0x00 ∨
        name = "OP_TRUE" ∧ byte = 0x51 ∨ IsSigned edition byte name := by
  constructor
  · intro h
    cases hop : ofMnemonic? edition name with
    | some op =>
      simp only [byteOfName?, hop, Option.some.injEq] at h
      subst h
      rcases of_ofMnemonic? hop with hname | hfalse | htrue
      · exact .inl hname
      · exact .inr (.inl hfalse)
      · exact .inr (.inr (.inl htrue))
    | none =>
      obtain ⟨hbyte, number, hname, hnumber⟩ := exists_number_of_byteOfName? hop h
      rcases nameOfByte_or_isSigned hbyte hname hnumber with hsame | hsigned
      · exact .inl hsame
      · exact .inr (.inr (.inr hsigned))
  · rintro (rfl | ⟨rfl, rfl⟩ | ⟨rfl, rfl⟩ | ⟨hbyte, zeros, hname⟩)
    · exact byteOfName?_nameOfByte edition byte
    · rfl
    · rfl
    · apply byteOfName?_of_isNone hbyte _ hname
      exact derivedNumber?_eq_some_iff.mpr (.inr ⟨zeros, rfl⟩)

/-- A name with a sign is read as a byte, though it is not the name of that byte. -/
theorem signed_name_is_accepted :
    ¬ ∀ edition name byte, byteOfName? edition name = some byte ↔
      name = nameOfByte edition byte ∨ name = "OP_FALSE" ∧ byte = 0x00 ∨
        name = "OP_TRUE" ∧ byte = 0x51 := by
  intro h
  have hread : byteOfName? .y2025 "OP_PUSHBYTES_+5" = some 5 := by decide +kernel
  have hother : ¬ ("OP_PUSHBYTES_+5" = nameOfByte .y2025 5 ∨
      "OP_PUSHBYTES_+5" = "OP_FALSE" ∧ (5 : UInt8) = 0x00 ∨
        "OP_PUSHBYTES_+5" = "OP_TRUE" ∧ (5 : UInt8) = 0x51) := by decide +kernel
  exact hother ((h _ _ _).mp hread)

end ScriptMachine.Opcode
