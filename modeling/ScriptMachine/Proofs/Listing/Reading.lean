import ScriptMachine.Proofs.Listing.WellFormed

/-!
# Instructions are read from words

A token that an instruction is read from is a word: a name, a number, bytes in hexadecimal or a note
on missing bytes. The instruction depends on the texts of its own tokens only, not on where they
stand and not on what follows them.
-/

namespace ScriptMachine.Listing

variable {edition : Edition} {opcode : UInt8} {declared width count bound n : Nat} {l : Literal}
  {i : Instruction} {name name' t t' : Token} {operands : List Token} {text : List Char}
  {bytes : Bytes} {c : Char}

/-! ## What is read are words -/

theorem mem_of_countBelow? (h : Text.countBelow? bound text = some n) :
    text ≠ [] ∧ ∀ c ∈ text, c = '+' ∨ c.isDigit = true := by
  have hdigits : ∀ {text n}, Text.digits? text = some n →
      text ≠ [] ∧ ∀ c ∈ text, c.isDigit = true := by
    intro text n h
    rw [Text.digits?] at h
    split_ifs at h with hall
    exact ⟨hall.1, List.all_eq_true.mp hall.2⟩
  have hnumber := (Option.filter_eq_some_iff.mp h).1
  split at hnumber
  · refine ⟨List.cons_ne_nil _ _, List.forall_mem_cons.mpr ⟨.inl rfl, fun c hc ↦ ?_⟩⟩
    exact .inr ((hdigits hnumber).2 c hc)
  · exact ⟨(hdigits hnumber).1, fun c hc ↦ .inr ((hdigits hnumber).2 c hc)⟩

theorem isPlain_of_countBelow? (h : Text.countBelow? bound text = some n) (hc : c ∈ text) :
    isPlain c = true := by
  rcases (mem_of_countBelow? h).2 c hc with rfl | hdigit
  · decide
  · exact isPlain_of_isNameChar (by simp [Opcode.isNameChar, hdigit])

theorem isWord_of_countBelow? (h : Text.countBelow? bound text = some n) : IsWord text :=
  isWord_of_forall (mem_of_countBelow? h).1 fun _ hc ↦ isPlain_of_countBelow? h hc

theorem isPlain_of_value? (h : Hex.value? c = some n) : isPlain c = true := by
  unfold Hex.value? at h
  dsimp only at h
  split_ifs at h with hdigit hlower hupper
  · exact isPlain_of_toNat ⟨hdigit.1, by omega⟩ (by omega)
  · exact isPlain_of_toNat ⟨by omega, by omega⟩ (by omega)
  · exact isPlain_of_toNat ⟨by omega, by omega⟩ (by omega)

theorem isPlain_of_decode? (h : Hex.decode? text = some bytes) (hc : c ∈ text) :
    isPlain c = true := by
  fun_induction Hex.decode? text generalizing bytes with
  | case1 => cases hc
  | case2 => cases h
  | case3 high low rest n k others hrest hlow hhigh ih =>
    rcases List.mem_cons.mp hc with rfl | hc
    · exact isPlain_of_value? hhigh
    · rcases List.mem_cons.mp hc with rfl | hc
      · exact isPlain_of_value? hlow
      · exact ih hrest hc
  | case4 => cases h

theorem isPlain_of_readHex? (h : readHex? text = some bytes) (hc : c ∈ text) :
    isPlain c = true := by
  rw [readHex?] at h
  split_ifs at h with hempty
  · rw [hempty] at hc
    cases hc
  · obtain ⟨digits, hmark, hdigits⟩ := Option.bind_eq_some_iff.mp h
    obtain rfl := List.isPrefixOf?_eq_some_iff_append_eq.mp hmark
    rcases List.mem_append.mp hc with hc | hc
    · exact isPlain_of_mem_mark hc
    · exact isPlain_of_decode? hdigits hc

theorem isNoteChar_of_countBelow? (h : Text.countBelow? bound text = some n) (hc : c ∈ text) :
    isNoteChar c = true := by
  rcases (mem_of_countBelow? h).2 c hc with rfl | hdigit
  · decide
  · exact isNoteChar_of_isDigit hdigit

theorem isNote_of_readMissing? (h : readMissing? text = some n) : IsNote text := by
  simp only [readMissing?, Option.bind_eq_bind, Option.bind_eq_some_iff] at h
  obtain ⟨rest, hopen, inner, hclose, digits, hunit, hfilter⟩ := h
  obtain rfl := List.isPrefixOf?_eq_some_iff_append_eq.mp hopen
  obtain rfl := List.isSuffixOf?_eq_some_iff_append_eq.mp hclose
  have hcount := (Option.filter_eq_some_iff.mp hfilter).1
  have hdigits : ∀ c ∈ digits, isNoteChar c = true := fun c hc ↦
    isNoteChar_of_countBelow? hcount hc
  have hwords : (∀ c ∈ "missing ".toList, isNoteChar c = true) ∧
      (∀ c ∈ " bytes".toList, isNoteChar c = true) ∧
      ∀ c ∈ " byte".toList, isNoteChar c = true := by simp [isNoteChar, isHash]
  have hinner : ∀ c ∈ inner, isNoteChar c = true := by
    rcases Option.or_eq_some_iff.mp hunit with hbytes | ⟨-, hbyte⟩
    · obtain rfl := List.isSuffixOf?_eq_some_iff_append_eq.mp hbytes
      exact List.forall_mem_append.mpr ⟨hdigits, hwords.2.1⟩
    · obtain rfl := List.isSuffixOf?_eq_some_iff_append_eq.mp hbyte
      exact List.forall_mem_append.mpr ⟨hdigits, hwords.2.2⟩
  exact ⟨"missing ".toList ++ inner, by simp, List.forall_mem_append.mpr ⟨hwords.1, hinner⟩⟩

theorem isWord_of_readLiteral (h : readLiteral t = .ok l) : IsWord t.text.toList := by
  obtain ⟨written, note, htext, hhex, hrest⟩ := readLiteral_eq_ok h
  have hwritten : ∀ c ∈ written, isPlain c = true := fun c hc ↦ isPlain_of_readHex? hhex hc
  rw [htext]
  rcases hrest with ⟨rfl, hne, -⟩ | ⟨⟨rest, rfl⟩, n, hn, -⟩
  · rw [List.append_nil]
    exact isWord_of_forall hne hwritten
  · exact ⟨by simp, written, _, rfl, hwritten, .inr (isNote_of_readMissing? hn)⟩

theorem isPlain_of_derivedNumber? {byte : UInt8} (h : Opcode.derivedNumber? text = some byte)
    (hc : c ∈ text) : isPlain c = true := by
  rw [Opcode.derivedNumber?] at h
  split_ifs at h
  obtain ⟨n, hn, -⟩ := Option.map_eq_some_iff.mp h
  exact isPlain_of_countBelow? hn hc

theorem isWord_of_derived {word : String} {keep : UInt8 → Bool}
    (hword : Opcode.IsName word.toList)
    (h : ((word.toList.isPrefixOf? text).bind fun number ↦
      (Opcode.derivedNumber? number).filter keep) = some opcode) : IsWord text := by
  obtain ⟨number, hstart, hfilter⟩ := Option.bind_eq_some_iff.mp h
  obtain rfl := List.isPrefixOf?_eq_some_iff_append_eq.mp hstart
  have hnumber := (Option.filter_eq_some_iff.mp hfilter).1
  refine isWord_of_forall (by simp [hword.1]) (List.forall_mem_append.mpr ⟨?_, ?_⟩)
  · exact fun c hc ↦ isPlain_of_isNameChar (List.all_eq_true.mp hword.2 c hc)
  · exact fun c hc ↦ isPlain_of_derivedNumber? hnumber hc

theorem isName_of_ofMnemonic? {word : String} {op : Opcode}
    (h : Opcode.ofMnemonic? edition word = some op) : Opcode.IsName word.toList := by
  rw [Opcode.ofMnemonic?] at h
  split_ifs at h with hfalse htrue
  · subst hfalse
    decide +kernel
  · subst htrue
    decide +kernel
  · have hname : op.mnemonic = word := by simpa using List.find?_some h
    rw [← hname]
    exact (Opcode.isName_mnemonic op).1

theorem isWord_of_byteOfName? {word : String}
    (h : Opcode.byteOfName? edition word = some opcode) : IsWord word.toList := by
  rw [Opcode.byteOfName?] at h
  cases hop : Opcode.ofMnemonic? edition word with
  | some op =>
    obtain ⟨hne, hchars⟩ := isName_of_ofMnemonic? hop
    exact isWord_of_forall hne fun c hc ↦ isPlain_of_isNameChar (List.all_eq_true.mp hchars c hc)
  | none =>
    simp only [hop] at h
    rcases Option.or_eq_some_iff.mp h with hpush | ⟨-, hunknown⟩
    · exact isWord_of_derived (by decide +kernel) hpush
    · exact isWord_of_derived (by decide +kernel) hunknown

/-! ## An instruction is read from its own tokens -/

theorem readLiteral_of_text (h : readLiteral t = .ok l) (htext : t'.text = t.text) :
    readLiteral t' = .ok l := by
  unfold readLiteral at h ⊢
  rw [htext]
  dsimp only at h ⊢
  generalize t.text.toList.takeWhile (· ≠ '[') = written at h ⊢
  generalize t.text.toList.dropWhile (· ≠ '[') = note at h ⊢
  split_ifs at h ⊢ with hempty hnote
  · cases hhex : readHex? written with
    | none =>
      rw [hhex] at h
      cases h
    | some bytes =>
      rw [hhex] at h
      exact h
  · cases hhex : readHex? written with
    | none =>
      rw [hhex] at h
      cases h
    | some bytes =>
      cases hmissing : readMissing? note with
      | none =>
        simp only [hhex, hmissing] at h
        cases h
      | some n =>
        simp only [hhex, hmissing] at h ⊢
        exact h

theorem pushOfLength_of_ok (h : pushOfLength name opcode declared l = .ok i) (name' : Token) :
    pushOfLength name' opcode declared l = .ok i := by
  unfold pushOfLength at h ⊢
  split_ifs at h ⊢
  exact h

theorem readCutLength_of_text (h : readCutLength opcode width t = .ok i)
    (htext : t'.text = t.text) : readCutLength opcode width t' = .ok i := by
  obtain ⟨l, hl, h⟩ := exists_of_bind_eq_ok h
  rw [readCutLength, readLiteral_of_text hl htext]
  split_ifs at h with hcut
  cases h
  exact if_pos hcut

/-- The instruction is read from the name and these operands, which are words, wherever they stand
and whatever follows them. -/
structure ReadFrom (read : Token → List Token → Except Fault (Instruction × Nat)) (name : Token)
    (taken : List Token) (i : Instruction) : Prop where
  words : ∀ t ∈ taken, IsWord t.text.toList
  read_eq : ∀ (name' : Token) (taken' rest : List Token), name'.text = name.text →
    taken'.map Token.text = taken.map Token.text →
      read name' (taken' ++ rest) = .ok (i, taken.length)

theorem readFrom_readLongPush (h : readLongPush name opcode width operands = .ok (i, count)) :
    ∃ taken rest, operands = taken ++ rest ∧ taken.length = count ∧
      ReadFrom (readLongPush · opcode width ·) name taken i := by
  obtain ⟨t, ht, h⟩ := exists_of_bind_eq_ok h
  obtain ⟨others, rfl⟩ := exists_cons_of_requireOperand ht
  split_ifs at h with hdigits
  · obtain ⟨j, hj, h⟩ := exists_of_bind_eq_ok h
    cases h
    obtain ⟨l, hl, -⟩ := exists_of_bind_eq_ok hj
    refine ⟨[t], others, rfl, rfl, by simpa using isWord_of_readLiteral hl, ?_⟩
    intro name' taken' rest hname htaken
    obtain ⟨t', rfl, htext⟩ := List.map_eq_singleton_iff.mp htaken
    have hcut := readCutLength_of_text hj htext
    simp only [readLongPush, List.singleton_append, List.getElem?_cons_zero, requireOperand,
      ok_bind, htext, hdigits, if_true, hcut]
    rfl
  · split at h
    · cases h
    · rename_i declared hdeclared
      obtain ⟨payload, hpayload, h⟩ := exists_of_bind_eq_ok h
      obtain ⟨l, hl, h⟩ := exists_of_bind_eq_ok h
      obtain ⟨j, hj, h⟩ := exists_of_bind_eq_ok h
      cases h
      rw [List.getElem?_cons_succ] at hpayload
      obtain ⟨others, rfl⟩ := exists_cons_of_requireOperand hpayload
      refine ⟨[t, payload], others, rfl, rfl, ?_, ?_⟩
      · simpa using ⟨isWord_of_countBelow? hdeclared, isWord_of_readLiteral hl⟩
      · intro name' taken' rest hname htaken
        obtain ⟨t', taken', rfl, htext, htaken⟩ := List.map_eq_cons_iff.mp htaken
        obtain ⟨payload', rfl, hpayload'⟩ := List.map_eq_singleton_iff.mp htaken
        have hl' := readLiteral_of_text hl hpayload'
        have hj' := pushOfLength_of_ok hj name'
        simp only [readLongPush, List.cons_append, List.getElem?_cons_zero,
          List.getElem?_cons_succ, requireOperand, ok_bind, htext, hdigits, hdeclared, hl', hj']
        rfl

theorem readFrom_readInstruction (h : readInstruction edition name operands = .ok (i, count)) :
    ∃ taken rest, operands = taken ++ rest ∧ taken.length = count ∧ IsWord name.text.toList ∧
      ReadFrom (readInstruction edition) name taken i := by
  unfold readInstruction at h
  split at h
  · cases h
  · rename_i opcode hopcode
    have hword := isWord_of_byteOfName? hopcode
    split at h
    · rename_i hwidth
      cases h
      refine ⟨[], operands, rfl, rfl, hword, by simp, fun name' taken' rest hname htaken ↦ ?_⟩
      simp only [readInstruction, hname, hopcode, hwidth, List.length_nil]
    · rename_i hwidth
      split_ifs at h with hzero
      · cases h
        refine ⟨[], operands, rfl, rfl, hword, by simp, fun name' taken' rest hname htaken ↦ ?_⟩
        simp only [readInstruction, hname, hopcode, hwidth, if_pos hzero, List.length_nil]
      · obtain ⟨t, ht, h⟩ := exists_of_bind_eq_ok h
        obtain ⟨l, hl, h⟩ := exists_of_bind_eq_ok h
        obtain ⟨j, hj, h⟩ := exists_of_bind_eq_ok h
        cases h
        obtain ⟨others, rfl⟩ := exists_cons_of_requireOperand ht
        refine ⟨[t], others, rfl, rfl, hword, by simpa using isWord_of_readLiteral hl, ?_⟩
        intro name' taken' rest hname htaken
        obtain ⟨t', rfl, htext⟩ := List.map_eq_singleton_iff.mp htaken
        have hl' := readLiteral_of_text hl htext
        have hj' := pushOfLength_of_ok hj name'
        simp only [readInstruction, hname, hopcode, hwidth, if_neg hzero, List.singleton_append,
          List.getElem?_cons_zero, requireOperand, ok_bind, hl', hj']
        rfl
    · rename_i width hne hwidth
      obtain ⟨width, rfl⟩ := Nat.exists_eq_succ_of_ne_zero hne
      obtain ⟨taken, rest, rfl, hlength, hread⟩ := readFrom_readLongPush h
      refine ⟨taken, rest, rfl, hlength, hword, hread.words, ?_⟩
      intro name' taken' rest hname htaken
      simp only [readInstruction, hname, hopcode, hwidth]
      exact hread.read_eq name' taken' rest hname htaken

/-! ## Programs -/

/-- The last instruction is a push that is cut off. -/
def endsCut (program : List Instruction) : Bool := program.getLast?.any Instruction.isTruncated

theorem endsCut_cons_of_not_isTruncated (h : i.isTruncated = false) (others : List Instruction) :
    endsCut (i :: others) = endsCut others := by
  cases others with
  | nil => simp [endsCut, h]
  | cons j others => simp [endsCut]

/-- The tokens are those of these instructions, one after the other. -/
inductive Assembles (edition : Edition) : List Token → List Instruction → Prop
  | nil : Assembles edition [] []
  | cons {name : Token} {taken rest : List Token} {i : Instruction} {others : List Instruction}
      (hname : isOperandText name.text = false) (hword : IsWord name.text.toList)
      (hread : ReadFrom (readInstruction edition) name taken i)
      (hlast : i.isTruncated = false ∨ rest = []) (hrest : Assembles edition rest others) :
      Assembles edition (name :: (taken ++ rest)) (i :: others)

theorem assembles_of_assembleTokens {ts : List Token} {program : List Instruction}
    (h : assembleTokens edition ts = .ok program) : Assembles edition ts program := by
  -- The induction is on the number of tokens, as an instruction takes more than one of them.
  induction hlength : ts.length using Nat.strong_induction_on generalizing ts program with
  | _ length ih =>
    subst hlength
    cases ts with
    | nil =>
      rw [assembleTokens] at h
      cases h
      exact .nil
    | cons name rest =>
      obtain ⟨hname, i, count, others, hread, hothers, hlast, rfl⟩ := assembleTokens_cons_eq_ok h
      obtain ⟨taken, more, rfl, rfl, hword, hfrom⟩ := readFrom_readInstruction hread
      rw [List.drop_left] at hothers
      have hmore := ih more.length (by simp) hothers rfl
      refine .cons hname hword hfrom (hlast.imp_right ?_) hmore
      rintro rfl
      cases hmore
      rfl

namespace Assembles

variable {ts ts' : List Token} {program : List Instruction}

theorem isWord (h : Assembles edition ts program) : ∀ t ∈ ts, IsWord t.text.toList := by
  induction h with
  | nil => simp
  | cons _ hword hread _ _ ih =>
    exact List.forall_mem_cons.mpr ⟨hword, List.forall_mem_append.mpr ⟨hread.words, ih⟩⟩

/-- Below a program, tokens are assembled as they are alone, unless the program ends in a push that
is cut off. -/
theorem assembleTokens_append (h : Assembles edition ts program)
    (htexts : ts'.map Token.text = ts.map Token.text) (more : List Token) :
    assembleTokens edition (ts' ++ more) =
      match endsCut program, more with
      | true, next :: _ => .error (next.fault .trailingToken)
      | _, _ => (assembleTokens edition more).map (program ++ ·) := by
  induction h generalizing ts' with
  | nil =>
    obtain rfl := List.map_eq_nil_iff.mp htexts
    cases hmore : assembleTokens edition more <;> simp [endsCut, hmore, Except.map]
  | @cons name taken rest i others hname hword hread hlast hrest ih =>
    obtain ⟨name', ts', rfl, hname', htexts⟩ := List.map_eq_cons_iff.mp htexts
    rw [List.map_append] at htexts
    obtain ⟨taken', rest', rfl, htaken, hrest'⟩ := List.map_eq_append_iff.mp htexts
    have hlength : taken'.length = taken.length := by simpa using congrArg List.length htaken
    have hoperand : ¬ isOperandText name'.text = true := by rw [hname', hname]; decide
    rw [List.cons_append, List.append_assoc, assembleTokens, if_neg hoperand,
      hread.read_eq name' taken' (rest' ++ more) hname' htaken, ← hlength]
    simp only [List.drop_left]
    cases hcut : i.isTruncated with
    | false =>
      rw [ih hrest', endsCut_cons_of_not_isTruncated hcut]
      cases endsCut others with
      | false => cases assembleTokens edition more <;> rfl
      | true =>
        cases more with
        | nil => cases assembleTokens edition [] <;> rfl
        | cons next more => rfl
    | true =>
      obtain rfl : rest = [] := hlast.resolve_left (by simp [hcut])
      obtain rfl := List.map_eq_nil_iff.mp hrest'
      cases hrest
      have hends : endsCut [i] = true := by simp [endsCut, hcut]
      rw [hends, List.nil_append]
      cases more with
      | nil => cases assembleTokens edition [] <;> rfl
      | cons next more => rfl

/-- Where the tokens stand does not matter. -/
theorem assembleTokens_of_texts (h : Assembles edition ts program)
    (htexts : ts'.map Token.text = ts.map Token.text) :
    assembleTokens edition ts' = .ok program := by
  have hjoined := h.assembleTokens_append htexts []
  rw [List.append_nil] at hjoined
  rw [hjoined, assembleTokens]
  cases endsCut program <;> exact congrArg Except.ok (List.append_nil program)

end Assembles

end ScriptMachine.Listing
