import ScriptMachine.Proofs.Listing.RoundTrip

/-!
# Assembled programs

Lengths in a listing are counted in words. As long as no count is too large for a word, what is
assembled is well formed: nothing follows a push that is cut off, bytes are really missing from it,
and every length fits the bytes that give it. A count that is too large starts again from zero. Then
more bytes may be there than the length says, and the bytecode is read back as something else.
-/

namespace ScriptMachine.Listing

open Instruction (WellFormed Declares lengthWidth?)

/-- The bytes of a literal that are there and those that are missing. -/
def Literal.size (l : Literal) : Nat := l.bytes.length + l.missing.getD 0

/-- The token is a literal with more bytes than can be counted in a word. -/
def Token.Wraps (t : Token) : Prop := ∃ l, readLiteral t = .ok l ∧ lengthBound ≤ l.size

variable {edition : Edition} {opcode : UInt8} {declared width count : Nat} {l : Literal}
  {i : Instruction} {name t : Token} {operands : List Token} {text : List Char}

theorem exists_of_bind_eq_ok {α β : Type} {x : Except Fault α} {f : α → Except Fault β} {b : β}
    (h : (x >>= f) = .ok b) : ∃ a, x = .ok a ∧ f a = .ok b := by
  cases x with
  | error fault => cases h
  | ok a => exact ⟨a, rfl, h⟩

/-! ## Literals -/

theorem lt_of_countBelow? {bound n : Nat} (h : Text.countBelow? bound text = some n) :
    n < bound := by
  unfold Text.countBelow? at h
  simpa using (Option.filter_eq_some_iff.mp h).2

theorem bounds_of_readMissing? {n : Nat} (h : readMissing? text = some n) :
    0 < n ∧ n < lengthBound := by
  simp only [readMissing?, Option.bind_eq_bind, Option.bind_eq_some_iff] at h
  obtain ⟨_, -, _, -, digits, -, hfilter⟩ := h
  obtain ⟨hcount, hpos⟩ := Option.filter_eq_some_iff.mp hfilter
  exact ⟨of_decide_eq_true hpos, lt_of_countBelow? hcount⟩

/-- What a literal is made of: bytes that are written out, or a note on missing ones, or both. -/
theorem readLiteral_eq_ok (h : readLiteral t = .ok l) :
    ∃ written note, t.text.toList = written ++ note ∧ readHex? written = some l.bytes ∧
      (note = [] ∧ written ≠ [] ∧ l.missing = none ∨
        (∃ rest, note = '[' :: rest) ∧ ∃ n, readMissing? note = some n ∧ l.missing = some n) := by
  refine ⟨_, _, (List.takeWhile_append_dropWhile (p := (· ≠ '['))).symm, ?_⟩
  have hbracket : ∀ c rest, t.text.toList.dropWhile (· ≠ '[') = c :: rest → c = '[' := by
    intro c rest hnote
    have hhead := List.head?_dropWhile_not (· ≠ '[') t.text.toList
    rw [hnote] at hhead
    simpa using hhead
  unfold readLiteral at h
  dsimp only at h
  generalize t.text.toList.takeWhile (· ≠ '[') = written at h ⊢
  generalize t.text.toList.dropWhile (· ≠ '[') = note at h hbracket ⊢
  cases note with
  | nil =>
    by_cases hempty : written = []
    · rw [if_pos ⟨rfl, hempty⟩] at h
      cases h
    · rw [if_neg (fun hnil ↦ hempty hnil.2)] at h
      cases hhex : readHex? written with
      | none =>
        rw [hhex] at h
        cases h
      | some bytes =>
        simp only [hhex, if_true] at h
        cases h
        exact ⟨rfl, .inl ⟨rfl, hempty, rfl⟩⟩
  | cons c rest =>
    obtain rfl := hbracket c rest rfl
    rw [if_neg (by simp)] at h
    cases hhex : readHex? written with
    | none =>
      rw [hhex] at h
      cases h
    | some bytes =>
      simp only [hhex, reduceCtorEq, if_false] at h
      cases hmissing : readMissing? ('[' :: rest) with
      | none =>
        rw [hmissing] at h
        cases h
      | some n =>
        simp only [hmissing] at h
        cases h
        exact ⟨rfl, .inr ⟨⟨rest, rfl⟩, n, rfl, rfl⟩⟩

/-- Some bytes are missing where a literal says so, and their number is a word. -/
theorem bounds_of_readLiteral {n : Nat} (h : readLiteral t = .ok l) (hn : l.missing = some n) :
    0 < n ∧ n < lengthBound := by
  obtain ⟨written, note, -, -, ⟨-, -, hnone⟩ | ⟨-, k, hk, hmissing⟩⟩ := readLiteral_eq_ok h
  · rw [hnone] at hn
    cases hn
  · rw [hmissing] at hn
    cases hn
    exact bounds_of_readMissing? hk

theorem isOperandText_of_readLiteral (h : readLiteral t = .ok l) :
    isOperandText t.text = true := by
  obtain ⟨written, note, htext, hhex, hrest⟩ := readLiteral_eq_ok h
  rw [isOperandText, Bool.or_eq_true, List.isPrefixOf_iff_prefix, List.isPrefixOf_iff_prefix,
    htext]
  by_cases hempty : written = []
  · obtain ⟨-, hne, -⟩ | ⟨⟨rest, rfl⟩, -⟩ := hrest
    · exact absurd hempty hne
    · right
      rw [hempty]
      exact List.prefix_append ['['] rest
  · left
    rw [readHex?, if_neg hempty] at hhex
    obtain ⟨digits, hmark, -⟩ := Option.bind_eq_some_iff.mp hhex
    obtain rfl := List.isPrefixOf?_eq_some_iff_append_eq.mp hmark
    exact ⟨digits ++ note, (List.append_assoc _ _ _).symm⟩

theorem all_isDigit_of_isOperandText {text : String} (h : isOperandText text = true) :
    text.toList.all Char.isDigit = false := by
  rw [isOperandText, Bool.or_eq_true, List.isPrefixOf_iff_prefix, List.isPrefixOf_iff_prefix] at h
  obtain ⟨rest, hrest⟩ | ⟨rest, hrest⟩ := h
  · rw [← hrest]
    simp
  · rw [← hrest]
    simp

theorem wraps_iff (h : readLiteral t = .ok l) : t.Wraps ↔ lengthBound ≤ l.size := by
  constructor
  · rintro ⟨l', hl', hsize⟩
    rw [h] at hl'
    cases hl'
    exact hsize
  · exact fun hsize ↦ ⟨l, h, hsize⟩

instance (t : Token) : Decidable t.Wraps :=
  match h : readLiteral t with
  | .ok _ => decidable_of_iff _ (wraps_iff h).symm
  | .error _ => .isFalse fun ⟨_, hl, _⟩ ↦ nomatch h.symm.trans hl

/-! ## Instructions -/

theorem canCut_inLength_iff (hwidth : lengthWidth? opcode = some width) (present : Bytes) :
    Instruction.CanCut opcode (.inLength present width) ↔ present.length < width := by
  simp [Instruction.CanCut, Cut.inLength, hwidth]

theorem canCut_inData_iff (hdeclares : Declares opcode declared) (present : Bytes) :
    Instruction.CanCut opcode (.inData present declared) ↔ present.length < declared := by
  simp [Instruction.CanCut, Cut.inData, hdeclares]

/-- With bytes missing, fewer are there than the length says unless the count was too large. -/
theorem length_lt_iff {n : Nat} (h : readLiteral t = .ok l) (hn : l.missing = some n)
    (hlength : l.length = declared) (hdeclared : declared < lengthBound) :
    l.bytes.length < declared ↔ l.size < lengthBound := by
  obtain ⟨hpos, hword⟩ := bounds_of_readLiteral h hn
  simp only [Literal.length, Literal.size, hn, Option.getD_some] at hlength ⊢
  generalize lengthBound = bound at *
  constructor
  · intro hlt
    by_contra hwraps
    have hmod : (l.bytes.length + n) % bound = l.bytes.length + n - bound := by
      rw [Nat.mod_eq_sub_mod (Nat.not_lt.mp hwraps), Nat.mod_eq_of_lt (by omega)]
    omega
  · intro hlt
    rw [Nat.mod_eq_of_lt hlt] at hlength
    omega

theorem pushOfLength_isFormed_iff (h : pushOfLength name opcode declared l = .ok i)
    (hl : readLiteral t = .ok l) (hdeclares : Declares opcode declared) :
    i.IsFormed ↔ ¬ t.Wraps := by
  rw [wraps_iff hl, Nat.not_le]
  have hdeclared := length_lt_of_declares hdeclares
  unfold pushOfLength at h
  split_ifs at h with hlength
  rw [not_not] at hlength
  cases hmissing : l.missing with
  | none =>
    rw [hmissing] at h
    cases h
    have hsize : l.size = l.bytes.length := by simp [Literal.size, hmissing]
    rw [hsize]
    refine ⟨length_lt_of_declares, fun hlt ↦ ?_⟩
    have hexact : l.bytes.length = declared := by
      rw [← hlength, Literal.length, hmissing]
      exact (Nat.mod_eq_of_lt hlt).symm
    change Declares opcode l.bytes.length
    rwa [hexact]
  | some n =>
    rw [hmissing] at h
    cases h
    exact (canCut_inData_iff hdeclares l.bytes).trans (length_lt_iff hl hmissing hlength hdeclared)

theorem readCutLength_isFormed_iff (h : readCutLength opcode width t = .ok i)
    (hwidth : lengthWidth? opcode = some width) : i.IsFormed ↔ ¬ t.Wraps := by
  obtain ⟨l, hl, h⟩ := exists_of_bind_eq_ok h
  split_ifs at h with hcut
  cases h
  rw [Bool.and_eq_true, beq_iff_eq] at hcut
  obtain ⟨n, hn⟩ := Option.isSome_iff_exists.mp hcut.1
  have hbound := width_lt_of_lengthWidth? hwidth
  rw [wraps_iff hl, Nat.not_le]
  exact (canCut_inLength_iff hwidth l.bytes).trans (length_lt_iff hl hn hcut.2 hbound)

theorem exists_cons_of_requireOperand {operand : Operand}
    (h : requireOperand name operand operands[0]? = .ok t) : ∃ others, operands = t :: others := by
  cases operands with
  | nil => cases h
  | cons first others =>
    cases h
    exact ⟨others, rfl⟩

theorem readLongPush_isFormed_iff (hwidth : lengthWidth? opcode = some (width + 1))
    (h : readLongPush name opcode (width + 1) operands = .ok (i, count)) :
    i.IsFormed ↔ ∀ t ∈ operands.take count, ¬ t.Wraps := by
  obtain ⟨t, ht, h⟩ := exists_of_bind_eq_ok h
  obtain ⟨others, rfl⟩ := exists_cons_of_requireOperand ht
  split_ifs at h with hdigits
  · obtain ⟨j, hj, h⟩ := exists_of_bind_eq_ok h
    cases h
    simpa using readCutLength_isFormed_iff hj hwidth
  · split at h
    · cases h
    · rename_i declared hdeclared
      obtain ⟨payload, hpayload, h⟩ := exists_of_bind_eq_ok h
      obtain ⟨l, hl, h⟩ := exists_of_bind_eq_ok h
      obtain ⟨j, hj, h⟩ := exists_of_bind_eq_ok h
      cases h
      rw [List.getElem?_cons_succ] at hpayload
      obtain ⟨others, rfl⟩ := exists_cons_of_requireOperand hpayload
      have hdeclares : Declares opcode declared := by
        have hlt := lt_of_countBelow? hdeclared
        rw [Nat.one_shiftLeft, Nat.pow_mul] at hlt
        simpa [Declares, hwidth] using hlt
      -- The first operand is a number, and so it is no literal.
      have hlength : ¬ t.Wraps := by
        rintro ⟨l, hliteral, -⟩
        rw [all_isDigit_of_isOperandText (isOperandText_of_readLiteral hliteral)] at hdigits
        exact hdigits rfl
      simpa [hlength] using pushOfLength_isFormed_iff hj hl hdeclares

/-- An instruction that is read is formed unless an operand of it has too many bytes. -/
theorem readInstruction_isFormed_iff
    (h : readInstruction edition name operands = .ok (i, count)) :
    i.IsFormed ↔ ∀ t ∈ operands.take count, ¬ t.Wraps := by
  unfold readInstruction at h
  split at h
  · cases h
  · rename_i opcode hname
    split at h
    · rename_i hwidth
      cases h
      simpa [Instruction.IsFormed] using hwidth
    · rename_i hwidth
      split_ifs at h with hzero
      · cases h
        subst hzero
        simp [Instruction.IsFormed, Declares, hwidth]
      · obtain ⟨t, ht, h⟩ := exists_of_bind_eq_ok h
        obtain ⟨l, hl, h⟩ := exists_of_bind_eq_ok h
        obtain ⟨j, hj, h⟩ := exists_of_bind_eq_ok h
        cases h
        obtain ⟨others, rfl⟩ := exists_cons_of_requireOperand ht
        have hdeclares : Declares opcode opcode.toNat := by simp [Declares, hwidth]
        simpa using pushOfLength_isFormed_iff hj hl hdeclares
    · rename_i width hne hwidth
      obtain ⟨width, rfl⟩ := Nat.exists_eq_succ_of_ne_zero hne
      exact readLongPush_isFormed_iff hwidth h

/-! ## Programs -/

theorem not_wraps_of_isOperandText (h : isOperandText t.text = false) : ¬ t.Wraps := by
  rintro ⟨l, hliteral, -⟩
  rw [isOperandText_of_readLiteral hliteral] at h
  cases h

/-- What it means that tokens are assembled: one instruction is read, and then the others. -/
theorem assembleTokens_cons_eq_ok {rest : List Token} {instructions : List Instruction}
    (h : assembleTokens edition (name :: rest) = .ok instructions) :
    isOperandText name.text = false ∧ ∃ i count others,
      readInstruction edition name rest = .ok (i, count) ∧
        assembleTokens edition (rest.drop count) = .ok others ∧
          (i.isTruncated = false ∨ others = []) ∧ instructions = i :: others := by
  rw [assembleTokens] at h
  split_ifs at h with hoperand
  split at h
  · cases h
  · rename_i i count hread
    split at h
    · cases h
    · rename_i hlast
      obtain ⟨others, hothers, h⟩ := exists_of_bind_eq_ok h
      cases h
      refine ⟨by simpa using hoperand, i, count, others, hread, hothers, ?_, rfl⟩
      cases hcut : i.isTruncated with
      | false => exact .inl rfl
      | true =>
        right
        cases hdrop : rest.drop count with
        | nil =>
          rw [hdrop, assembleTokens] at hothers
          cases hothers
          rfl
        | cons next more => exact (hlast next more hcut hdrop).elim

/-- What tokens are assembled to is well formed unless one of them has too many bytes. -/
theorem assembleTokens_wellFormed_iff {ts : List Token} {instructions : List Instruction}
    (h : assembleTokens edition ts = .ok instructions) :
    WellFormed instructions ↔ ∀ t ∈ ts, ¬ t.Wraps := by
  -- The induction is on the number of tokens, as an instruction takes more than one of them.
  induction hlength : ts.length using Nat.strong_induction_on generalizing ts instructions with
  | _ length ih =>
    subst hlength
    cases ts with
    | nil =>
      rw [assembleTokens] at h
      cases h
      simpa using Instruction.wellFormed_nil
    | cons name rest =>
      obtain ⟨hname, i, count, others, hread, hothers, hlast, rfl⟩ := assembleTokens_cons_eq_ok h
      have hshorter : (rest.drop count).length < (name :: rest).length := by
        rw [List.length_drop, List.length_cons]
        omega
      calc WellFormed (i :: others)
        _ ↔ i.IsFormed ∧ WellFormed others := by
          rw [Instruction.wellFormed_cons_iff, and_iff_right hlast]
        _ ↔ (∀ t ∈ rest.take count, ¬ t.Wraps) ∧ ∀ t ∈ rest.drop count, ¬ t.Wraps :=
          and_congr (readInstruction_isFormed_iff hread) (ih _ hshorter hothers rfl)
        _ ↔ ∀ t ∈ rest, ¬ t.Wraps := by
          rw [← List.forall_mem_append, List.take_append_drop]
        _ ↔ ∀ t ∈ name :: rest, ¬ t.Wraps := by
          rw [List.forall_mem_cons, and_iff_right (not_wraps_of_isOperandText hname)]

/-- An assembled program is read back from its bytes exactly if every literal of its listing has
fewer bytes, with those that are missing, than a word can count. Then it is well formed. -/
theorem assembled_read_back_iff {source : String} {instructions : List Instruction}
    (h : assemble edition source = .ok instructions) :
    ∃ ts, tokens source = .ok ts ∧
      (WellFormed instructions ↔ ∀ t ∈ ts, ¬ t.Wraps) ∧
      (Instruction.parse (Instruction.serialize instructions) = instructions ↔
        ∀ t ∈ ts, ¬ t.Wraps) := by
  obtain ⟨ts, hts, h⟩ := exists_of_bind_eq_ok h
  have hformed := assembleTokens_wellFormed_iff h
  refine ⟨ts, hts, hformed, ?_⟩
  rw [← hformed]
  constructor
  · intro hread
    rw [← hread]
    apply Instruction.wellFormed_parse
  · exact Instruction.parse_serialize

theorem assembled_read_back_iff_cut :
    let source := "OP_1 OP_PUSHDATA_1 3 0x0102[missing 1 byte]"
    let instructions : List Instruction := [.operation 0x51, .truncated 0x4c (.inData [1, 2] 3)]
    assemble .y2026 source = .ok instructions ∧
      (∃ ts, tokens source = .ok ts ∧ ∀ t ∈ ts, ¬ t.Wraps) ∧ WellFormed instructions ∧
      Instruction.parse (Instruction.serialize instructions) = instructions := by
  intro source instructions
  have h : assemble .y2026 source = .ok instructions := by decide +kernel
  have htokens : tokens source = .ok [⟨"OP_1", ⟨1, 1⟩⟩, ⟨"OP_PUSHDATA_1", ⟨1, 6⟩⟩, ⟨"3", ⟨1, 20⟩⟩,
      ⟨"0x0102[missing 1 byte]", ⟨1, 22⟩⟩] := by
    decide +kernel
  obtain ⟨ts, hts, hformed, hread⟩ := assembled_read_back_iff h
  have hfits : ∀ t ∈ ts, ¬ t.Wraps := by
    rw [htokens] at hts
    cases hts
    decide +kernel
  exact ⟨h, ⟨ts, hts, hfits⟩, hformed.mpr hfits, hread.mpr hfits⟩

/-- With as many bytes missing as a word can count, the count of all starts again from zero. Then
the two bytes that are there are taken for the first ones of a length of one byte. -/
theorem assembled_not_read_back :
    assemble .y2026 "OP_PUSHDATA_1 0x0000[missing 18446744073709551615 bytes]" =
      .ok [.truncated 0x4c (.inLength [0, 0] 1)] ∧
    Instruction.parse (Instruction.serialize [.truncated 0x4c (.inLength [0, 0] 1)]) =
      [.push 0x4c [], .push 0 []] := by
  decide +kernel

end ScriptMachine.Listing
