import Mathlib.Data.List.Nodup
import ScriptMachine.Bytes
import ScriptMachine.Opcode.Naming
import ScriptMachine.Proofs.Text.Numeral

/-!
# Names are read back

No two opcodes share a name, and no opcode has a name that a byte without an opcode could derive
from its value. So in each edition the name of a byte stands for that byte alone.
-/

namespace ScriptMachine.Opcode

/-- The opcodes of all editions. -/
def all : List Opcode := .loop .begin :: .loop .until :: table

/-- Names are made of these characters. -/
def isNameChar (c : Char) : Bool := c.isUpper || c.isDigit || c == '_'

/-- A word that can be a name. -/
def IsName (name : List Char) : Prop := name ≠ [] ∧ name.all isNameChar = true

/-- The name starts as those that derive from a byte. -/
def IsDerived (name : List Char) : Prop :=
  "OP_PUSHBYTES_".toList <+: name ∨ "OP_UNKNOWN".toList <+: name

/-- The word that the name of a byte without an opcode starts with. -/
def derivedWord (byte : UInt8) : List Char :=
  if isDirectPush byte then "OP_PUSHBYTES_".toList else "OP_UNKNOWN".toList

instance : DecidablePred IsName := fun _ ↦ inferInstanceAs (Decidable (_ ∧ _))

instance : DecidablePred IsDerived := fun _ ↦ inferInstanceAs (Decidable (_ ∨ _))

variable {edition : Edition} {op : Opcode} {byte : UInt8} {name : String} {number : List Char}

/-! ## The names of opcodes -/

theorem mem_all (op : Opcode) : op ∈ all := by
  cases op with
  | small n => revert n; decide
  | check op verify => cases op <;> cases verify <;> decide
  | _ => first | decide | (rename_i op; cases op <;> decide)

/-- Names are compared by the numbers that their bytes make up. -/
theorem nodup_mnemonics : ("OP_FALSE" :: "OP_TRUE" :: all.map mnemonic).Nodup :=
  .of_map (fun name : String ↦ Bytes.toNatLE name.toByteArray.data.toList) (by decide +kernel)

theorem mnemonic_injective : Function.Injective mnemonic := fun op op' h ↦
  List.inj_on_of_nodup_map nodup_mnemonics.of_cons.of_cons (mem_all op) (mem_all op') h

theorem mnemonic_ne_alias (op : Opcode) : op.mnemonic ≠ "OP_FALSE" ∧ op.mnemonic ≠ "OP_TRUE" := by
  have hmem : op.mnemonic ∈ all.map mnemonic := List.mem_map_of_mem (mem_all op)
  have hnodup := nodup_mnemonics
  simp only [List.nodup_cons, List.mem_cons, not_or] at hnodup
  exact ⟨fun h ↦ hnodup.1.2 (h ▸ hmem), fun h ↦ hnodup.2.1 (h ▸ hmem)⟩

/-- A mnemonic is a name, and none that is derived from a byte. -/
theorem isName_mnemonic (op : Opcode) :
    IsName op.mnemonic.toList ∧ ¬ IsDerived op.mnemonic.toList := by
  have hall : ∀ op ∈ all, IsName op.mnemonic.toList ∧ ¬ IsDerived op.mnemonic.toList := by
    decide +kernel
  exact hall op (mem_all op)

theorem ofMnemonic?_mnemonic (h : op ∈ available edition) :
    ofMnemonic? edition op.mnemonic = some op := by
  rw [ofMnemonic?, if_neg (mnemonic_ne_alias op).1, if_neg (mnemonic_ne_alias op).2]
  cases hfind : (available edition).find? fun other ↦ other.mnemonic == op.mnemonic with
  | none => exact absurd (List.find?_eq_none.mp hfind op h) (by simp)
  | some other =>
    have heq : other.mnemonic = op.mnemonic := by simpa using List.find?_some hfind
    rw [mnemonic_injective heq]

theorem byte_of_ofByte? (h : ofByte? edition byte = some op) : op.byte = byte := by
  simpa using List.find?_some h

/-! ## Derived names -/

theorem ofMnemonic?_of_isDerived (h : IsDerived name.toList) : ofMnemonic? edition name = none := by
  have halias : ¬ IsDerived "OP_FALSE".toList ∧ ¬ IsDerived "OP_TRUE".toList := by decide +kernel
  have hfalse : name ≠ "OP_FALSE" := fun heq ↦ halias.1 (heq ▸ h)
  have htrue : name ≠ "OP_TRUE" := fun heq ↦ halias.2 (heq ▸ h)
  rw [ofMnemonic?, if_neg hfalse, if_neg htrue, List.find?_eq_none]
  intro op _ heq
  have hname : op.mnemonic = name := by simpa using heq
  exact (isName_mnemonic op).2 (hname ▸ h)

/-- Zeros in front of the number in a derived name are refused only where they come first. -/
theorem derivedNumber?_eq_some_iff :
    derivedNumber? number = some byte ↔ number = Nat.toDigits 10 byte.toNat ∨
      ∃ zeros, number = '+' :: (List.replicate zeros '0' ++ Nat.toDigits 10 byte.toNat) := by
  constructor
  · intro h
    rw [derivedNumber?] at h
    split_ifs at h with hzero
    obtain ⟨n, hn, rfl⟩ := Option.map_eq_some_iff.mp h
    obtain ⟨hlt, zeros, hdigits | hsigned⟩ := Text.countBelow?_eq_some_iff.mp hn
    · left
      cases zeros with
      | zero => rwa [UInt8.toNat_ofNat_of_lt' hlt]
      | succ zeros =>
        refine absurd ⟨?_, ?_⟩ hzero
        · have hpos := Nat.length_toDigits_pos (b := 10) (n := n)
          rw [hdigits, List.length_append, List.length_replicate]
          omega
        · rw [hdigits, List.replicate_succ, List.cons_append, List.head?_cons]
    · right
      rw [UInt8.toNat_ofNat_of_lt' hlt]
      exact ⟨zeros, hsigned⟩
  · rintro (rfl | ⟨zeros, rfl⟩)
    · have hzero : ¬ ((Nat.toDigits 10 byte.toNat).length > 1 ∧
          (Nat.toDigits 10 byte.toNat).head? = some '0') := by
        rintro ⟨hlong, hhead⟩
        rcases Nat.eq_zero_or_pos byte.toNat with h | h
        · rw [h] at hlong
          exact absurd hlong (by decide)
        · exact Text.head?_toDigits_ne_zero h hhead
      rw [derivedNumber?, if_neg hzero, Text.countBelow?_toDigits byte.toNat_lt, Option.map_some,
        UInt8.ofNat_toNat]
    · have hcount := Text.countBelow?_eq_some_iff.mpr ⟨byte.toNat_lt, zeros, .inr rfl⟩
      rw [derivedNumber?, if_neg (by simp), hcount, Option.map_some, UInt8.ofNat_toNat]

/-- A derived name is its first word and a number in decimal. -/
theorem toList_append_toString (word : String) (n : Nat) :
    (word ++ toString n).toList = word.toList ++ Nat.toDigits 10 n := by
  rw [String.toList_append, Text.toList_toString]

theorem nameOfByte_of_isSome (h : ofByte? edition byte = some op) :
    nameOfByte edition byte = op.mnemonic := by
  simp [nameOfByte, h]

theorem toList_nameOfByte_of_isNone (h : ofByte? edition byte = none) :
    (nameOfByte edition byte).toList = derivedWord byte ++ Nat.toDigits 10 byte.toNat := by
  simp only [nameOfByte, h, derivedWord]
  split <;> exact toList_append_toString _ _

/-! ## The name of a byte -/

theorem isName_nameOfByte (edition : Edition) (byte : UInt8) :
    IsName (nameOfByte edition byte).toList := by
  cases h : ofByte? edition byte with
  | some op => exact nameOfByte_of_isSome h ▸ (isName_mnemonic op).1
  | none =>
    have hwords : IsName "OP_PUSHBYTES_".toList ∧ IsName "OP_UNKNOWN".toList := by decide +kernel
    have hdigits : (Nat.toDigits 10 byte.toNat).all isNameChar = true := by
      rw [List.all_eq_true]
      intro c hc
      simp [isNameChar, Nat.isDigit_of_mem_toDigits (by decide) (by decide) hc]
    have happend : ∀ word : List Char, IsName word →
        IsName (word ++ Nat.toDigits 10 byte.toNat) := by
      intro word hword
      exact ⟨by simp [hword.1], by rw [List.all_append, hword.2, hdigits]; rfl⟩
    rw [toList_nameOfByte_of_isNone h, derivedWord]
    split
    · exact happend _ hwords.1
    · exact happend _ hwords.2

theorem directPushOfName?_append (h : isDirectPush byte = true)
    (hnumber : derivedNumber? number = some byte) :
    directPushOfName? ("OP_PUSHBYTES_".toList ++ number) = some byte := by
  rw [directPushOfName?, List.isPrefixOf?_eq_some_iff_append_eq.mpr rfl, Option.bind_some, hnumber,
    Option.filter_some, if_pos h]

theorem unknownOfName?_append (h : ofByte? edition byte = none) (hbyte : maxDirectPush < byte)
    (hnumber : derivedNumber? number = some byte) :
    unknownOfName? edition ("OP_UNKNOWN".toList ++ number) = some byte := by
  rw [unknownOfName?, List.isPrefixOf?_eq_some_iff_append_eq.mpr rfl, Option.bind_some, hnumber,
    Option.filter_some, if_pos (by simp [h, hbyte])]

theorem directPushOfName?_unknown (text : List Char) :
    directPushOfName? ("OP_UNKNOWN".toList ++ text) = none := by
  have hwords : "OP_UNKNOWN".toList.isPrefixOf "OP_PUSHBYTES_".toList = false := by decide +kernel
  have hlength : "OP_UNKNOWN".toList.length ≤ "OP_PUSHBYTES_".toList.length := by decide +kernel
  rw [directPushOfName?, Option.bind_eq_none_iff]
  intro number hnumber
  -- Of two words that a text starts with, the shorter starts the longer.
  have hstart : "OP_PUSHBYTES_".toList <+: "OP_UNKNOWN".toList ++ text :=
    ⟨number, List.append_eq_of_isPrefixOf?_eq_some hnumber⟩
  have hshort := List.prefix_of_prefix_length_le (List.prefix_append _ text) hstart hlength
  rw [← List.isPrefixOf_iff_prefix, hwords] at hshort
  cases hshort

/-- A byte without an opcode that is no direct push lies above the direct pushes. -/
theorem maxDirectPush_lt (h : ofByte? edition byte = none) (hdirect : isDirectPush byte = false) :
    maxDirectPush < byte := by
  have hzero : byte ≠ 0 := by
    rintro rfl
    cases edition <;> exact absurd h (by decide)
  simp only [isDirectPush, decide_eq_false_iff_not, UInt8.le_iff_toNat_le, ← UInt8.toNat_inj,
    UInt8.lt_iff_toNat_lt, UInt8.toNat_ofNat, ne_eq] at hdirect hzero ⊢
  omega

theorem byteOfName?_of_isNone (h : ofByte? edition byte = none)
    (hnumber : derivedNumber? number = some byte)
    (hname : name.toList = derivedWord byte ++ number) : byteOfName? edition name = some byte := by
  have hderived : IsDerived name.toList := by
    rw [hname, derivedWord]
    split
    · exact .inl (List.prefix_append _ _)
    · exact .inr (List.prefix_append _ _)
  rw [byteOfName?, ofMnemonic?_of_isDerived hderived, hname, derivedWord]
  cases hdirect : isDirectPush byte with
  | true => rw [if_pos rfl, directPushOfName?_append hdirect hnumber, Option.some_or]
  | false =>
    rw [if_neg (by decide), directPushOfName?_unknown, Option.none_or,
      unknownOfName?_append h (maxDirectPush_lt h hdirect) hnumber]

/-- The name of a byte stands for that byte. -/
theorem byteOfName?_nameOfByte (edition : Edition) (byte : UInt8) :
    byteOfName? edition (nameOfByte edition byte) = some byte := by
  cases h : ofByte? edition byte with
  | some op =>
    rw [byteOfName?, nameOfByte_of_isSome h, ofMnemonic?_mnemonic (List.mem_of_find?_eq_some h)]
    simp [byte_of_ofByte? h]
  | none =>
    apply byteOfName?_of_isNone h _ (toList_nameOfByte_of_isNone h)
    exact derivedNumber?_eq_some_iff.mpr (.inl rfl)

end ScriptMachine.Opcode
