import ScriptMachine.Listing.Assembly
import ScriptMachine.Listing.Basic
import ScriptMachine.Proofs.Instruction.Codec
import ScriptMachine.Proofs.Listing.Token
import ScriptMachine.Proofs.Opcode.Naming

/-!
# Listings are read back

The listing of instructions is a line of words. Each word is read as one token, and the tokens are
read as the instructions that the words came from. So nothing of bytecode is lost in its listing.
-/

namespace ScriptMachine.Listing

open Instruction (WellFormed Declares lengthWidth?)

variable {edition : Edition} {opcode : UInt8} {declared width n : Nat} {data present : Bytes}
  {i : Instruction} {name t : Token} {rest : List Token} {text : String} {c : Char}

/-! ## The words of a listing -/

/-- The words of an instruction: its name and what follows it. -/
def words (edition : Edition) (i : Instruction) : List String :=
  Opcode.nameOfByte edition i.opcode :: operands i

theorem intercalate_append (sep : List Char) {first second : List (List Char)} (h : first ≠ [])
    (h' : second ≠ []) :
    sep.intercalate (first ++ second) = sep.intercalate first ++ sep ++ sep.intercalate second := by
  induction first with
  | nil => exact absurd rfl h
  | cons word others ih =>
    cases others with
    | nil => simp [List.intercalate_cons_of_ne_nil h']
    | cons word' others =>
      have hrest := ih (List.cons_ne_nil _ _)
      rw [List.cons_append] at hrest
      simp only [List.cons_append, List.intercalate_cons_cons, hrest, List.append_assoc]

theorem intercalate_flatten (sep : List Char) {groups : List (List (List Char))}
    (h : ∀ group ∈ groups, group ≠ []) :
    sep.intercalate (groups.map sep.intercalate) = sep.intercalate groups.flatten := by
  induction groups with
  | nil => rfl
  | cons group others ih =>
    have hrest := ih fun g hg ↦ h g (List.mem_cons_of_mem _ hg)
    cases others with
    | nil => simp
    | cons group' others =>
      have hne : (group' :: others).flatten ≠ [] := by
        have := h group' (by simp)
        simp [this]
      rw [List.flatten_cons, intercalate_append sep (h group List.mem_cons_self) hne, ← hrest]
      simp only [List.map_cons, List.intercalate_cons_cons]

/-- A listing is the words of all its instructions. -/
theorem text_eq_intercalate (edition : Edition) (instructions : List Instruction) :
    Listing.text edition instructions = " ".intercalate (instructions.flatMap (words edition)) := by
  apply String.toList_injective
  have hgroups : ∀ group ∈ instructions.map fun i ↦ (words edition i).map String.toList,
      group ≠ [] := by
    simp [words]
  have hflatten := intercalate_flatten [' '] hgroups
  simp only [List.map_map] at hflatten
  simpa [Listing.text, instruction, words, String.toList_intercalate, Function.comp_def,
    List.flatMap, List.map_flatten] using hflatten

/-! ## Each of them is read as one token -/

theorem isPlain_of_toNat (h : 48 ≤ c.toNat ∧ c.toNat ≤ 122) (hne : c.toNat ≠ 91) :
    isPlain c = true := by
  simp only [isPlain, isSeparator, isHash, Text.isBlank, Bool.and_eq_true, Bool.not_eq_true',
    Bool.or_eq_false_iff, beq_eq_false_iff_ne, bne_iff_ne, ne_eq, ← Char.toNat_inj,
    decide_eq_false_iff_not, Bool.and_eq_false_iff]
  simp only [Char.reduceToNat]
  omega

theorem isPlain_of_isNameChar (h : Opcode.isNameChar c = true) : isPlain c = true := by
  simp only [Opcode.isNameChar, Bool.or_eq_true, beq_iff_eq, Char.isDigit_iff_toNat, Char.isUpper,
    decide_eq_true_eq, ge_iff_le, UInt32.le_iff_toNat_le, Char.toNat_val, Char.reduceToNat] at h
  rcases h with (h | h) | rfl
  · exact isPlain_of_toNat ⟨by omega, by omega⟩ (by omega)
  · exact isPlain_of_toNat ⟨h.1, by omega⟩ (by omega)
  · decide

theorem isPlain_of_mem_toDigits (h : c ∈ Nat.toDigits 10 n) : isPlain c = true := by
  have hdigit := Nat.isDigit_of_mem_toDigits (by decide) (by decide) h
  exact isPlain_of_isNameChar (by simp [Opcode.isNameChar, hdigit])

theorem isPlain_of_mem_hex (h : c ∈ data.flatMap Hex.byte) : isPlain c = true := by
  have hdigit : ∀ d < 16, isPlain (Hex.digit d) = true := by decide
  obtain ⟨b, -, hc⟩ := List.mem_flatMap.mp h
  have hb := b.toNat_lt
  simp only [Hex.byte, List.mem_cons, List.not_mem_nil, or_false] at hc
  rcases hc with rfl | rfl
  · exact hdigit _ (by omega)
  · exact hdigit _ (by omega)

theorem toList_literal (data : Bytes) :
    (literal data).toList = "0x".toList ++ data.flatMap Hex.byte := by
  simp [literal, Hex.encode]

/-- The end of a note on missing bytes. -/
def unit (count : Nat) : List Char := if count = 1 then " byte".toList else " bytes".toList

theorem toList_missingNote (n : Nat) :
    (missingNote n).toList =
      "[missing ".toList ++ ((Nat.toDigits 10 n ++ unit n) ++ "]".toList) := by
  have hnote : missingNote n = "[missing " ++ toString n ++ " " ++
      (if n = 1 then "byte]" else "bytes]") := rfl
  rw [hnote, Nat.toString_eq_ofList_toDigits, unit]
  split <;> simp

theorem toList_cutLiteral (data : Bytes) (n : Nat) :
    (cutLiteral data n).toList =
      (if data = [] then [] else (literal data).toList) ++ (missingNote n).toList := by
  rw [cutLiteral, String.toList_append]
  cases data <;> simp

theorem isPlain_of_mem_mark (h : c ∈ "0x".toList) : isPlain c = true := by
  have hc : c = '0' ∨ c = 'x' := by simpa using h
  rcases hc with rfl | rfl
  · decide
  · decide

theorem isPlain_of_mem_literal (h : c ∈ (literal data).toList) : isPlain c = true := by
  rw [toList_literal, List.mem_append] at h
  rcases h with h | h
  · exact isPlain_of_mem_mark h
  · exact isPlain_of_mem_hex h

/-- No bracket stands in the bytes that are written out. -/
theorem ne_bracket_of_mem_literal (h : c ∈ (literal data).toList) : decide (c ≠ '[') = true := by
  have hplain := isPlain_of_mem_literal h
  simp_all [isPlain]

theorem isNoteChar_of_isDigit (h : c.isDigit = true) : isNoteChar c = true := by
  simp only [Char.isDigit_iff_toNat, Char.reduceToNat] at h
  simp only [isNoteChar, isHash, Bool.and_eq_true, Bool.not_eq_true', beq_eq_false_iff_ne,
    bne_iff_ne, ne_eq, ← Char.toNat_inj, Char.reduceToNat]
  omega

theorem isNote_missingNote (n : Nat) : IsNote (missingNote n).toList := by
  have hdigits : ∀ c ∈ Nat.toDigits 10 n, isNoteChar c = true := fun c hc ↦
    isNoteChar_of_isDigit (Nat.isDigit_of_mem_toDigits (by decide) (by decide) hc)
  have hwords : (∀ c ∈ "missing ".toList, isNoteChar c = true) ∧
      ∀ c ∈ " bytes".toList, isNoteChar c = true := by simp [isNoteChar, isHash]
  have hunit : ∀ c ∈ unit n, c ∈ " bytes".toList := by
    rw [unit]
    split <;> simp
  refine ⟨"missing ".toList ++ (Nat.toDigits 10 n ++ unit n), by simp [toList_missingNote], ?_⟩
  intro c hc
  rw [List.mem_append, List.mem_append] at hc
  rcases hc with hc | hc | hc
  · exact hwords.1 c hc
  · exact hdigits c hc
  · exact hwords.2 c (hunit c hc)

theorem isWord_of_forall {word : List Char} (hne : word ≠ []) (h : ∀ c ∈ word, isPlain c = true) :
    IsWord word :=
  ⟨hne, word, [], (List.append_nil word).symm, h, .inl rfl⟩

theorem isWord_toString (n : Nat) : IsWord (toString n).toList := by
  rw [Text.toList_toString]
  exact isWord_of_forall Nat.toDigits_ne_nil fun c hc ↦ isPlain_of_mem_toDigits hc

theorem isWord_literal (data : Bytes) : IsWord (literal data).toList :=
  isWord_of_forall (by simp [toList_literal]) fun _ hc ↦ isPlain_of_mem_literal hc

theorem isWord_cutLiteral (data : Bytes) (n : Nat) : IsWord (cutLiteral data n).toList := by
  rw [toList_cutLiteral]
  refine ⟨by simp [toList_missingNote], _, _, rfl, fun c hc ↦ ?_, .inr (isNote_missingNote n)⟩
  split at hc
  · cases hc
  · exact isPlain_of_mem_literal hc

theorem isWord_of_mem_operands (h : text ∈ operands i) : IsWord text.toList := by
  cases i with
  | operation opcode => cases h
  | push opcode data =>
    simp only [operands] at h
    split_ifs at h with hzero hdirect
    · cases h
    · rw [List.mem_singleton.mp h]
      exact isWord_literal data
    · rcases List.mem_pair.mp h with rfl | rfl
      · exact isWord_toString _
      · exact isWord_literal data
  | truncated opcode cut =>
    simp only [operands] at h
    split at h
    · rw [List.mem_singleton.mp h]
      exact isWord_cutLiteral _ _
    · split_ifs at h with hdirect
      · rw [List.mem_singleton.mp h]
        exact isWord_cutLiteral _ _
      · rcases List.mem_pair.mp h with rfl | rfl
        · exact isWord_toString _
        · exact isWord_cutLiteral _ _

theorem isWord_of_mem_words (h : text ∈ words edition i) : IsWord text.toList := by
  rcases List.mem_cons.mp h with rfl | h
  · obtain ⟨hne, hchars⟩ := Opcode.isName_nameOfByte edition i.opcode
    exact isWord_of_forall hne fun c hc ↦ isPlain_of_isNameChar (List.all_eq_true.mp hchars c hc)
  · exact isWord_of_mem_operands h

/-! ## Operands are read back -/

theorem readHex?_literal (data : Bytes) : readHex? (literal data).toList = some data := by
  have hmark : "0x".toList.isPrefixOf? (literal data).toList = some (data.flatMap Hex.byte) :=
    List.isPrefixOf?_eq_some_iff_append_eq.mpr (toList_literal data).symm
  rw [readHex?, if_neg (isWord_literal data).1, hmark, Option.bind_some, Hex.decode?_flatMap_byte]

/-- The word for one byte is no ending of the word for several. -/
theorem isSuffixOf?_unit (digits : List Char) (n : Nat) :
    ((" bytes".toList.isSuffixOf? (digits ++ unit n)).or
      (" byte".toList.isSuffixOf? (digits ++ unit n))) = some digits := by
  rw [unit]
  split
  · have hnone : " bytes".toList.isSuffixOf? (digits ++ " byte".toList) = none := by
      simp [List.isSuffixOf?, List.isPrefixOf?]
    rw [hnone, Option.none_or]
    exact List.isSuffixOf?_eq_some_iff_append_eq.mpr rfl
  · rw [List.isSuffixOf?_eq_some_iff_append_eq.mpr rfl, Option.some_or]

theorem readMissing?_missingNote (hn : 0 < n) (hbound : n < lengthBound) :
    readMissing? (missingNote n).toList = some n := by
  rw [toList_missingNote, readMissing?]
  simp only [List.isPrefixOf?_eq_some_iff_append_eq.mpr rfl,
    List.isSuffixOf?_eq_some_iff_append_eq.mpr rfl, isSuffixOf?_unit,
    Text.countBelow?_toDigits hbound, Option.bind_eq_bind, Option.bind_some, Option.filter_some]
  simp [hn]

theorem readLiteral_literal (h : t.text = literal data) : readLiteral t = .ok ⟨data, none⟩ := by
  have hplain : ∀ c ∈ t.text.toList, decide (c ≠ '[') = true := fun c hc ↦
    ne_bracket_of_mem_literal (h ▸ hc)
  have hne : t.text.toList ≠ [] := h ▸ (isWord_literal data).1
  simp only [readLiteral, List.takeWhile_eq_self_iff.mpr hplain,
    List.dropWhile_eq_nil_iff.mpr hplain]
  rw [if_neg (by simp [hne]), h, readHex?_literal]
  rfl

theorem readLiteral_cutLiteral (h : t.text = cutLiteral data n) (hn : 0 < n)
    (hbound : n < lengthBound) : readLiteral t = .ok ⟨data, some n⟩ := by
  have hwritten : ∀ c ∈ (if data = [] then [] else (literal data).toList),
      decide (c ≠ '[') = true := by
    intro c hc
    split at hc
    · cases hc
    · exact ne_bracket_of_mem_literal hc
  have htext : t.text.toList = _ := h ▸ toList_cutLiteral data n
  obtain ⟨inner, hnote, -⟩ := isNote_missingNote n
  have htake : t.text.toList.takeWhile (· ≠ '[') =
      if data = [] then [] else (literal data).toList := by
    rw [htext, List.takeWhile_append_of_pos hwritten, hnote]
    simp
  have hdrop : t.text.toList.dropWhile (· ≠ '[') = (missingNote n).toList := by
    rw [htext, List.dropWhile_append_of_pos hwritten, hnote]
    simp
  have hhex : readHex? (if data = [] then [] else (literal data).toList) = some data := by
    split
    · simp [readHex?, *]
    · exact readHex?_literal data
  have hne : (missingNote n).toList ≠ [] := by simp [hnote]
  simp only [readLiteral, htake, hdrop, hhex, readMissing?_missingNote hn hbound]
  rw [if_neg (by simp [hne]), if_neg hne]

/-! ## Instructions are read back -/

/-- The instruction pushes `declared` bytes, of which `text` gives all or only the first. -/
inductive Payload (opcode : UInt8) (declared : Nat) : Instruction → String → Prop
  | full (data : Bytes) (h : data.length = declared) :
    Payload opcode declared (.push opcode data) (literal data)
  | cut (data : Bytes) (h : data.length < declared) :
    Payload opcode declared (.truncated opcode (.inData data declared))
      (cutLiteral data (declared - data.length))

theorem length_lt_of_declares (h : Declares opcode declared) : declared < lengthBound := by
  have hbyte := opcode.toNat_lt
  have hbound : (256 : Nat) ^ 4 < lengthBound := by decide
  unfold Declares lengthWidth? at h
  split_ifs at h <;> simp only at h <;> omega

theorem width_lt_of_lengthWidth? (h : lengthWidth? opcode = some width) : width < lengthBound := by
  unfold lengthWidth? at h
  split_ifs at h <;> cases h <;> decide

@[simp] theorem ok_bind {α β : Type} (a : α) (f : α → Except Fault β) : (.ok a >>= f) = f a := rfl

theorem lengthWidth?_eq_zero_iff :
    lengthWidth? opcode = some 0 ↔ opcode ≤ Opcode.maxDirectPush := by
  unfold lengthWidth?
  split_ifs with h <;> simp [h]

theorem Literal.length_eq {l : Literal} (h : l.bytes.length + l.missing.getD 0 = n)
    (hbound : n < lengthBound) : l.length = n := by
  rw [Literal.length, h, Nat.mod_eq_of_lt hbound]

namespace Payload

theorem exists_literal (h : Payload opcode declared i text) (hbound : declared < lengthBound)
    (name : Token) (ht : t.text = text) :
    ∃ l, readLiteral t = .ok l ∧ pushOfLength name opcode declared l = .ok i := by
  cases h with
  | full data hlength =>
    have hl : (Literal.mk data none).length = declared :=
      Literal.length_eq (by simpa using hlength) hbound
    exact ⟨_, readLiteral_literal ht, by simp [pushOfLength, hl]⟩
  | cut data hlength =>
    have hl : (Literal.mk data (some (declared - data.length))).length = declared :=
      Literal.length_eq (by simp; omega) hbound
    exact ⟨_, readLiteral_cutLiteral ht (by omega) (by omega), by simp [pushOfLength, hl]⟩

theorem operands_eq (h : Payload opcode declared i text) (hne : opcode ≠ 0) :
    operands i = if opcode ≤ Opcode.maxDirectPush then [text] else [toString declared, text] := by
  cases h with
  | full data hlength => simp [operands, hne, hlength]
  | cut data hlength => simp [operands, Cut.inData, Cut.length]

theorem readInstruction_direct (h : Payload opcode opcode.toNat i text)
    (hname : Opcode.byteOfName? edition name.text = some opcode)
    (hwidth : lengthWidth? opcode = some 0) (hne : opcode ≠ 0) (ht : t.text = text) :
    readInstruction edition name (t :: rest) = .ok (i, 1) := by
  have hbound : opcode.toNat < lengthBound := opcode.toNat_lt.trans (by decide)
  obtain ⟨l, hl, hpush⟩ := h.exists_literal hbound name ht
  simp only [readInstruction, hname, hwidth, if_neg hne, List.getElem?_cons_zero, requireOperand,
    ok_bind, hl, hpush]
  rfl

theorem readInstruction_long (h : Payload opcode declared i text)
    (hname : Opcode.byteOfName? edition name.text = some opcode)
    (hwidth : lengthWidth? opcode = some (width + 1)) (hbound : declared < lengthBound)
    (hdeclared : declared < 256 ^ (width + 1)) {length : Token}
    (hlength : length.text = toString declared) (ht : t.text = text) :
    readInstruction edition name (length :: t :: rest) = .ok (i, 2) := by
  obtain ⟨l, hl, hpush⟩ := h.exists_literal hbound name ht
  have hdigits : length.text.toList = Nat.toDigits 10 declared := by
    rw [hlength, Text.toList_toString]
  have hcount : Text.countBelow? (1 <<< (8 * (width + 1))) (Nat.toDigits 10 declared) =
      some declared := by
    refine Text.countBelow?_toDigits ?_
    rwa [Nat.one_shiftLeft, Nat.pow_mul]
  simp only [readInstruction, hname, hwidth, readLongPush, List.getElem?_cons_zero,
    List.getElem?_cons_succ, requireOperand, ok_bind, hdigits, Text.all_isDigit_toDigits, hcount,
    hl, hpush]
  rfl

/-- The name of a push and its operands are read as the push. -/
theorem readInstruction_words (h : Payload opcode declared i text)
    (hdeclares : Declares opcode declared)
    (hname : Opcode.byteOfName? edition name.text = some opcode) {ops : List Token}
    (hops : ops.map Token.text = operands i) (rest : List Token) :
    readInstruction edition name (ops ++ rest) = .ok (i, ops.length) := by
  have hbound := length_lt_of_declares hdeclares
  cases hwidth : lengthWidth? opcode with
  | none => simp [Declares, hwidth] at hdeclares
  | some width =>
    cases width with
    | zero =>
      have hlength : declared = opcode.toNat := by simpa [Declares, hwidth] using hdeclares
      subst hlength
      rcases eq_or_ne opcode 0 with rfl | hne
      · cases h with
        | full data hdata =>
          have hdata : data = [] := List.eq_nil_of_length_eq_zero hdata
          have hops : ops = [] := by simpa [operands] using hops
          simp [readInstruction, hname, hwidth, hdata, hops]
        | cut data hdata => cases hdata
      · rw [h.operands_eq hne, if_pos (lengthWidth?_eq_zero_iff.mp hwidth)] at hops
        obtain ⟨t, rfl, ht⟩ := List.map_eq_singleton_iff.mp hops
        exact h.readInstruction_direct hname hwidth hne ht
    | succ width =>
      have hlength : declared < 256 ^ (width + 1) := by simpa [Declares, hwidth] using hdeclares
      have hdirect : ¬ opcode ≤ Opcode.maxDirectPush := by
        rw [← lengthWidth?_eq_zero_iff, hwidth]
        simp
      have hne : opcode ≠ 0 := by
        rintro rfl
        exact hdirect (by decide)
      rw [h.operands_eq hne, if_neg hdirect] at hops
      obtain ⟨length, others, rfl, hl, hothers⟩ := List.map_eq_cons_iff.mp hops
      obtain ⟨t, rfl, ht⟩ := List.map_eq_singleton_iff.mp hothers
      exact h.readInstruction_long hname hwidth hbound hlength hl ht

end Payload

/-- The name of a push and a note on its missing length are read as the push that is cut off. -/
theorem readInstruction_cutLength (hwidth : lengthWidth? opcode = some width)
    (hpresent : present.length < width)
    (hname : Opcode.byteOfName? edition name.text = some opcode)
    (ht : t.text = cutLiteral present (width - present.length)) :
    readInstruction edition name (t :: rest) =
      .ok (.truncated opcode (.inLength present width), 1) := by
  have hbound := width_lt_of_lengthWidth? hwidth
  obtain ⟨width, rfl⟩ : ∃ k, width = k + 1 := ⟨width - 1, by omega⟩
  have hl := readLiteral_cutLiteral ht (by omega) (by omega)
  have hlength : (Literal.mk present (some (width + 1 - present.length))).length = width + 1 :=
    Literal.length_eq (by simp; omega) hbound
  have hnote : (t.text.toList.all Char.isDigit) = false := by
    rw [ht, toList_cutLiteral, toList_missingNote]
    simp
  have hcut : readCutLength opcode (width + 1) t =
      .ok (.truncated opcode (.inLength present (width + 1))) := by
    simp only [readCutLength, hl, ok_bind, hlength, Option.isSome_some, beq_self_eq_true,
      Bool.and_self, if_true]
    rfl
  simp only [readInstruction, hname, hwidth, readLongPush, List.getElem?_cons_zero, requireOperand,
    ok_bind, hnote, Bool.not_false, if_true, hcut]
  rfl

/-- The words of an instruction are read as that instruction, whatever follows them. -/
theorem readInstruction_of_isFormed (h : i.IsFormed)
    (hname : name.text = Opcode.nameOfByte edition i.opcode) {ops : List Token}
    (hops : ops.map Token.text = operands i) (rest : List Token) :
    readInstruction edition name (ops ++ rest) = .ok (i, ops.length) := by
  have hbyte : Opcode.byteOfName? edition name.text = some i.opcode :=
    hname ▸ Opcode.byteOfName?_nameOfByte edition i.opcode
  cases i with
  | operation opcode =>
    have hops : ops = [] := by simpa [operands] using hops
    have hwidth : lengthWidth? opcode = none := h
    simp only [Instruction.opcode] at hbyte
    simp [readInstruction, hbyte, hwidth, hops]
  | push opcode data => exact (Payload.full data rfl).readInstruction_words h hbyte hops rest
  | truncated opcode cut =>
    obtain ⟨present, -, width, hwidth, hpresent, rfl⟩ | ⟨declared, -, hdeclares, hdata, hcut⟩ := h
    · obtain ⟨t, rfl, ht⟩ := List.map_eq_singleton_iff.mp hops
      exact readInstruction_cutLength hwidth hpresent hbyte ht
    · rw [hcut] at hops hbyte ⊢
      exact (Payload.cut cut.data hdata).readInstruction_words hdeclares hbyte hops rest

/-! ## Listings -/

/-- A name is not taken for an operand. -/
theorem isOperandText_nameOfByte (edition : Edition) (byte : UInt8) :
    isOperandText (Opcode.nameOfByte edition byte) = false := by
  have hchars := List.all_eq_true.mp (Opcode.isName_nameOfByte edition byte).2
  have hx : 'x' ∉ (Opcode.nameOfByte edition byte).toList := fun hmem ↦
    absurd (hchars _ hmem) (by decide)
  have hbracket : '[' ∉ (Opcode.nameOfByte edition byte).toList := fun hmem ↦
    absurd (hchars _ hmem) (by decide)
  rw [isOperandText, ← Bool.not_eq_true, Bool.or_eq_true, List.isPrefixOf_iff_prefix,
    List.isPrefixOf_iff_prefix]
  rintro (h | h)
  · exact hx (h.subset (by simp))
  · exact hbracket (h.subset (by simp))

/-- The words of well-formed instructions are read as these instructions. -/
theorem assembleTokens_words {instructions : List Instruction} (h : WellFormed instructions)
    {ts : List Token} (hts : ts.map Token.text = instructions.flatMap (words edition)) :
    assembleTokens edition ts = .ok instructions := by
  induction instructions generalizing ts with
  | nil =>
    have hts : ts = [] := by simpa using hts
    simp [hts, assembleTokens]
  | cons i others ih =>
    obtain ⟨hformed, hlast, hothers⟩ := Instruction.wellFormed_cons_iff.mp h
    rw [List.flatMap_cons, words, List.cons_append] at hts
    obtain ⟨name, rest, rfl, hname, hrest⟩ := List.map_eq_cons_iff.mp hts
    obtain ⟨ops, rest, rfl, hops, hrest⟩ := List.map_eq_append_iff.mp hrest
    have hread := readInstruction_of_isFormed hformed hname hops rest
    have hoperand : isOperandText name.text = false := hname ▸ isOperandText_nameOfByte _ _
    -- What is cut off stands at the end, so no token follows it.
    have hend : i.isTruncated = true → rest = [] := by
      intro hcut
      obtain rfl : others = [] := by simpa [hcut] using hlast
      simpa using hrest
    have hdrop : (ops ++ rest).drop ops.length = rest := List.drop_left
    rw [assembleTokens, hoperand, hread]
    simp only [Bool.false_eq_true, if_false, hdrop, ih hothers hrest]
    cases hcut : i.isTruncated with
    | false => rfl
    | true =>
      rw [hend hcut]
      rfl

/-- The listing of what bytecode says is read back, as the same instructions and the same bytes. -/
theorem assemble_text (edition : Edition) (bytecode : Bytes) :
    assemble edition (Listing.text edition (Instruction.parse bytecode)) =
        .ok (Instruction.parse bytecode) ∧
      Listing.bytecode edition (Listing.text edition (Instruction.parse bytecode)) =
        .ok bytecode := by
  have hwords : ∀ word ∈ (Instruction.parse bytecode).flatMap (words edition),
      IsWord word.toList := by
    intro word hword
    obtain ⟨i, -, hword⟩ := List.mem_flatMap.mp hword
    exact isWord_of_mem_words hword
  obtain ⟨ts, htokens, hts⟩ := tokens_intercalate hwords
  have hassemble : assemble edition (Listing.text edition (Instruction.parse bytecode)) =
      .ok (Instruction.parse bytecode) := by
    rw [assemble, text_eq_intercalate, htokens, ok_bind]
    exact assembleTokens_words (Instruction.wellFormed_parse bytecode) hts
  refine ⟨hassemble, ?_⟩
  rw [Listing.bytecode, hassemble, Except.map, Instruction.serialize_parse]

end ScriptMachine.Listing
