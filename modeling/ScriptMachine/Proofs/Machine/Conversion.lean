import ScriptMachine.Proofs.Machine.Arithmetic
import ScriptMachine.Proofs.Machine.StackWindow

/-!
# Numbers of a given size

A number can be padded to every size that its shortest encoding does not exceed. The padded string
is the magnitude with zeros above it and the sign in its topmost bit. It has the same value, so
minimizing it gives the shortest encoding back, and the two opcodes that pad and minimize an item
together minimize it.
-/

namespace ScriptMachine

open ScriptNumber (encode encodeIn value minimize pad signBit)
open ScriptMachine.Action

/-! ## Padding -/

namespace ScriptNumber

variable {size : Nat} {v : Int}

/-- To set the topmost bit, where it is free, is to add its place. -/
theorem modifyLast_signBit {bytes : Bytes} (hne : bytes ≠ [])
    (h : 2 * Bytes.toNatLE bytes < 256 ^ bytes.length) :
    bytes.modifyLast (· ||| signBit) =
      Bytes.ofNatLE bytes.length (Bytes.toNatLE bytes + signPlace bytes.length) := by
  obtain rfl | ⟨init, last, rfl⟩ := List.eq_nil_or_concat' bytes
  · exact absurd rfl hne
  · have hclear : last.toNat < 128 := by
      rw [← Nat.not_le, ← pow_le_two_mul_toNatLE_concat init last]
      exact Nat.not_le.mpr h
    have hplace : 2 * signPlace (init ++ [last]).length = 256 ^ init.length * 256 := by
      rw [← pow_length_concat init last]
      apply two_mul_signPlace
      simp
    have hvalue : Bytes.toNatLE (init ++ [last]) + signPlace (init ++ [last]).length =
        Bytes.toNatLE (init ++ [last ||| signBit]) := by
      rw [Bytes.toNatLE_concat, Bytes.toNatLE_concat, toNat_or_signBit hclear, Nat.mul_add]
      omega
    have hlength : (init ++ [last]).length = (init ++ [last ||| signBit]).length := by simp
    rw [List.modifyLast_concat, hvalue, hlength, Bytes.ofNatLE_toNatLE]

/-- A magnitude that leaves the topmost bit free takes the sign there. -/
theorem encodeIn_eq_magnitude (h : 2 * v.natAbs < 256 ^ size) :
    encodeIn size v =
      if v < 0 then (Bytes.ofNatLE size v.natAbs).modifyLast (· ||| signBit)
      else Bytes.ofNatLE size v.natAbs := by
  by_cases hv : v < 0
  · have hmagnitude : Bytes.toNatLE (Bytes.ofNatLE size v.natAbs) = v.natAbs := by
      rw [Bytes.toNatLE_ofNatLE, Nat.mod_eq_of_lt]
      omega
    have hne : Bytes.ofNatLE size v.natAbs ≠ [] := by
      intro hnil
      rw [hnil] at hmagnitude
      change 0 = v.natAbs at hmagnitude
      omega
    have hlength := Bytes.length_ofNatLE size v.natAbs
    have hsigned := modifyLast_signBit hne (by rwa [hmagnitude, hlength])
    rw [if_pos hv, encodeIn, if_pos hv, hsigned, hmagnitude, hlength]
  · rw [if_neg hv, encodeIn, if_neg hv, Nat.add_zero]

theorem pad_of_le (h : (encode v).length ≤ size) : pad v size = .ok (encodeIn size v) :=
  if_neg (Nat.not_lt.mpr h)

theorem pad_of_lt (h : size < (encode v).length) : pad v size = .error (.insufficientSize size) :=
  if_pos h

theorem value_padded (h : (encode v).length ≤ size) : value (encodeIn size v) = v := by
  apply value_encodeIn
  rwa [← width_le_iff, ← length_encode]

theorem minimize_padded (h : (encode v).length ≤ size) : minimize (encodeIn size v) = encode v := by
  rw [minimize, value_padded h]

end ScriptNumber

/-! ## Opcodes -/

section Opcodes

variable {p : Policy} {s t : State} {width item : Bytes} {rest : List Bytes} {k : Int}

/-- The size that an integer asks for; sizes are 64-bit words. -/
def requestedSize (k : Int) : Nat := min k.toNat Amount.top

/-- The item can be padded to the size that an integer asks for, and pushed again. -/
structure Policy.AcceptsSize (p : Policy) (k : Int) (item : Bytes) : Prop where
  nonneg : 0 ≤ k
  size_le : requestedSize k ≤ p.limits.itemLength
  length_le : (minimize item).length ≤ requestedSize k

theorem SpliceOp.perform_numToBin (hread : p.Reads width k)
    (hs : s.stack = width :: item :: rest) :
    SpliceOp.numToBin.perform p s =
      (if k < 0 then throw .negativeNumber
        else if p.limits.itemLength < requestedSize k then
          throw (.itemTooLong (requestedSize k) p.limits.itemLength)
        else
          match pad (value item) (requestedSize k) with
          | .ok padded => push p padded
          | .error fault => throw (.number fault) : Action Unit) { s with stack := rest } := by
  have hpop : pop { s with stack := item :: rest } = .ok item { s with stack := rest } := rfl
  rw [SpliceOp.perform, bind_of_ok (popNumber_of_reads hread hs), bind_of_ok hpop]
  by_cases hneg : k < 0
  · rw [if_pos hneg, if_pos hneg]
    rfl
  · rw [if_neg hneg, if_neg hneg]
    change (ite (p.limits.itemLength < requestedSize k) _ _ : Action Unit) _ = _
    by_cases hlong : p.limits.itemLength < requestedSize k
    · rw [if_pos hlong, if_pos hlong]
      rfl
    · rw [if_neg hlong, if_neg hlong]
      rfl

/-- An accepted item is replaced by its padding. -/
theorem SpliceOp.perform_numToBin_of_accepts (hread : p.Reads width k)
    (hs : s.stack = width :: item :: rest) (h : p.AcceptsSize k item) :
    SpliceOp.numToBin.perform p s =
      .ok () (({ s with stack := rest } : State).pushItems p
        [encodeIn (requestedSize k) (value item)]) := by
  have hpush : (encodeIn (requestedSize k) (value item)).length ≤ p.limits.itemLength := by
    rw [ScriptNumber.length_encodeIn]
    exact h.size_le
  rw [perform_numToBin hread hs, if_neg (Int.not_lt.mpr h.nonneg),
    if_neg (Nat.not_lt.mpr h.size_le), ScriptNumber.pad_of_le h.length_le]
  exact push_of_le hpush _

theorem SpliceOp.accepts_of_perform_numToBin (hread : p.Reads width k)
    (hs : s.stack = width :: item :: rest) (h : SpliceOp.numToBin.perform p s = .ok () t) :
    p.AcceptsSize k item := by
  rw [perform_numToBin hread hs] at h
  by_cases hneg : k < 0
  · rw [if_pos hneg] at h
    cases h
  · by_cases hlong : p.limits.itemLength < requestedSize k
    · rw [if_neg hneg, if_pos hlong] at h
      cases h
    · refine ⟨Int.not_lt.mp hneg, Nat.not_lt.mp hlong, Nat.not_lt.mp fun hshort ↦ ?_⟩
      rw [if_neg hneg, if_neg hlong, ScriptNumber.pad_of_lt hshort] at h
      cases h

/-- Where an item was padded, the size was read from the item above it. -/
theorem SpliceOp.exists_of_perform_numToBin (h : SpliceOp.numToBin.perform p s = .ok () t)
    (hs : s.stack = width :: item :: rest) :
    ∃ k, p.Reads width k ∧ p.AcceptsSize k item ∧
      t = ({ s with stack := rest } : State).pushItems p
        [encodeIn (requestedSize k) (value item)] := by
  obtain ⟨k, _, hnumber, -⟩ := bind_eq_ok h
  have hread := (reads_of_popNumber_eq_ok hnumber hs).1
  have haccepts := accepts_of_perform_numToBin hread hs h
  rw [perform_numToBin_of_accepts hread hs haccepts] at h
  cases h
  exact ⟨k, hread, haccepts, rfl⟩

theorem SpliceOp.perform_binToNum (hs : s.stack = item :: rest)
    (hitem : (minimize item).length ≤ p.limits.itemLength) :
    SpliceOp.binToNum.perform p s =
      if (minimize item).length ≤ p.limits.numberLength then
        .ok () (({ s with stack := rest } : State).pushItems p [minimize item])
      else .error (.numberOverflow p.limits.numberLength) { s with stack := rest } := by
  have hpop : pop s = .ok item { s with stack := rest } := by rw [pop, hs]
  rw [SpliceOp.perform, bind_of_ok hpop]
  change (ite (p.limits.numberLength < (minimize item).length) _ _ : Action Unit) _ = _
  by_cases hnumber : (minimize item).length ≤ p.limits.numberLength
  · rw [if_neg (Nat.not_lt.mpr hnumber), if_pos hnumber]
    exact push_of_le hitem _
  · rw [if_pos (Nat.lt_of_not_le hnumber), if_neg hnumber]
    rfl

/-- Minimizing what was padded is minimizing. -/
theorem SpliceOp.binToNum_numToBin {u : State} (h : SpliceOp.numToBin.perform p s = .ok () t)
    (hs : s.stack = width :: item :: rest) (hu : u.stack = t.stack) :
    SpliceOp.binToNum.perform p u =
      if (minimize item).length ≤ p.limits.numberLength then
        .ok () (({ u with stack := rest } : State).pushItems p [minimize item])
      else .error (.numberOverflow p.limits.numberLength) { u with stack := rest } := by
  obtain ⟨k, -, haccepts, rfl⟩ := exists_of_perform_numToBin h hs
  have hsame : minimize (encodeIn (requestedSize k) (value item)) = minimize item :=
    ScriptNumber.minimize_padded haccepts.length_le
  have hitem := haccepts.length_le.trans haccepts.size_le
  rw [← hsame] at hitem ⊢
  exact perform_binToNum hu hitem

end Opcodes

/-- The opcode that minimizes, reached after a step that padded an item. -/
theorem Machine.stack_step_step {m : Machine} {ctx : Context} {s : State} {width item : Bytes}
    {rest : List Bytes} (hs : s.IsAt (.splice .numToBin)) (hstack : s.stack = width :: item :: rest)
    (hfault : (m.step ctx s).fault = none) (hnext : (m.step ctx s).IsAt (.splice .binToNum))
    (hcount : m.MayCount (m.step ctx s))
    (hnumber : (minimize item).length ≤ m.policy.limits.numberLength) :
    (m.step ctx (m.step ctx s)).stack = minimize item :: rest := by
  obtain ⟨t, hpadded, hsame⟩ := exists_perform_of_step hs (Opcode.isOrdinary_splice _ _) hfault
  have hminimized := SpliceOp.binToNum_numToBin hpadded hstack
    (show (m.counted (m.step ctx s)).stack = t.stack from hsame)
  rw [if_pos hnumber] at hminimized
  exact stack_step_of_perform hnext (Opcode.isOrdinary_splice _ _) hcount hminimized

/-- Padding fails exactly for sizes below that of the shortest encoding. What is padded has the size
that was asked for, is the magnitude with the sign in its topmost bit, and keeps the value, so that
minimizing it gives the shortest encoding. One opcode pads and another minimizes: after the first,
the second makes of an item what it would have made of it before. -/
theorem padding_is_section_of_minimizing :
    (∀ v size, (pad v size = .error (.insufficientSize size) ↔ size < (encode v).length) ∧
      ((encode v).length ≤ size → ∃ bytes, pad v size = .ok bytes ∧ bytes.length = size ∧
        value bytes = v ∧ minimize bytes = encode v ∧
          bytes = if v < 0 then (Bytes.ofNatLE size v.natAbs).modifyLast (· ||| signBit)
            else Bytes.ofNatLE size v.natAbs)) ∧
    (∀ (p : Policy) (s : State) (width item : Bytes) (rest : List Bytes),
      s.stack = width :: item :: rest →
        ((∃ t, SpliceOp.numToBin.perform p s = .ok () t) ↔
          ∃ k, p.Reads width k ∧ p.AcceptsSize k item) ∧
        ∀ t, SpliceOp.numToBin.perform p s = .ok () t →
          SpliceOp.binToNum.perform p t =
            if (minimize item).length ≤ p.limits.numberLength then
              .ok () (({ t with stack := rest } : State).pushItems p [minimize item])
            else .error (.numberOverflow p.limits.numberLength) { t with stack := rest }) ∧
    ∀ (m : Machine) (ctx : Context) (s : State) (width item : Bytes) (rest : List Bytes),
      s.IsAt (.splice .numToBin) → s.stack = width :: item :: rest →
        (m.step ctx s).fault = none → (m.step ctx s).IsAt (.splice .binToNum) →
          m.MayCount (m.step ctx s) → (minimize item).length ≤ m.policy.limits.numberLength →
            (m.step ctx (m.step ctx s)).stack = minimize item :: rest := by
  refine ⟨fun v size ↦ ?_, fun p s width item rest hs ↦ ?_,
    fun m ctx s width item rest ↦ Machine.stack_step_step⟩
  · by_cases hsize : size < (encode v).length
    · exact ⟨⟨fun _ ↦ hsize, ScriptNumber.pad_of_lt⟩, fun hle ↦ absurd hsize (Nat.not_lt.mpr hle)⟩
    · have hle := Nat.not_lt.mp hsize
      have hpad := ScriptNumber.pad_of_le hle
      refine ⟨⟨fun herror ↦ ?_, fun hlt ↦ absurd hlt hsize⟩, fun _ ↦ ⟨_, hpad, ?_, ?_, ?_, ?_⟩⟩
      · rw [hpad] at herror
        cases herror
      · exact ScriptNumber.length_encodeIn size v
      · exact ScriptNumber.value_padded hle
      · exact ScriptNumber.minimize_padded hle
      · apply ScriptNumber.encodeIn_eq_magnitude
        rwa [← ScriptNumber.width_le_iff, ← ScriptNumber.length_encode]
  · refine ⟨⟨?_, ?_⟩, fun t ht ↦ SpliceOp.binToNum_numToBin ht hs rfl⟩
    · rintro ⟨t, ht⟩
      obtain ⟨k, hread, haccepts, -⟩ := SpliceOp.exists_of_perform_numToBin ht hs
      exact ⟨k, hread, haccepts⟩
    · rintro ⟨k, hread, haccepts⟩
      exact ⟨_, SpliceOp.perform_numToBin_of_accepts hread hs haccepts⟩

/-- A negative number whose magnitude fills its only byte, padded to four bytes and minimized. -/
theorem padding_is_section_of_minimizing_full_byte :
    let m : Machine := {}
    let s : State :=
      { program := [.operation (Opcode.splice .numToBin).byte,
          .operation (Opcode.splice .binToNum).byte]
        stack := [[4], [0x80, 0, 0x80], [7]], meter := .start m.policy 100 }
    pad (-128) 4 = .ok [0x80, 0, 0, 0x80] ∧ pad (-128) 1 = .error (.insufficientSize 1) ∧
      (m.step {} s).stack = [[0x80, 0, 0, 0x80], [7]] ∧
        (m.step {} (m.step {} s)).stack = [[0x80, 0x80], [7]] := by
  intro m s
  obtain ⟨hpad, -, hsteps⟩ := padding_is_section_of_minimizing
  have hstack : (m.step {} (m.step {} s)).stack = [minimize [0x80, 0, 0x80], [7]] := by
    apply hsteps m {} s [4] [0x80, 0, 0x80] [[7]] ⟨by decide, by decide, by decide⟩ rfl (by decide)
      ⟨by decide, by decide, by decide⟩
    · intro limit hlimit
      cases hlimit
    · decide
  refine ⟨?_, (hpad (-128) 1).1.mpr (by decide), by decide, ?_⟩
  · obtain ⟨bytes, hbytes, -, -, -, hsame⟩ := (hpad (-128) 4).2 (by decide)
    rw [hbytes, hsame]
    decide
  · rw [hstack]
    decide

end ScriptMachine
