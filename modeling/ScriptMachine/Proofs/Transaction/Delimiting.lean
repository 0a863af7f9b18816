import ScriptMachine.Bytes.Lemmas
import ScriptMachine.Transaction.Wire

/-!
# Wire forms that say where they end

Nothing in the wire form separates one part from the next. It can be taken apart all the same: each
part either has a fixed width or starts with its length, so that it says where it ends.
-/

namespace ScriptMachine

/-- On the values that satisfy `P`, the encoding says what it stands for and where it ends. -/
def Delimits {α : Type} (P : α → Prop) (encode : α → Bytes) : Prop :=
  ∀ a b, P a → P b → ∀ r s, encode a ++ r = encode b ++ s → a = b ∧ r = s

namespace Delimits

variable {α : Type} {P : α → Prop} {encode : α → Bytes}

theorem of_width {width : Nat} (hlength : ∀ a, (encode a).length = width)
    (hinj : Function.Injective encode) : Delimits P encode := by
  intro a b _ _ r s h
  obtain ⟨hencode, hrest⟩ := List.append_inj h ((hlength a).trans (hlength b).symm)
  exact ⟨hinj hencode, hrest⟩

theorem of_read (read : Bytes → α × Bytes)
    (hread : ∀ a, P a → ∀ r, read (encode a ++ r) = (a, r)) : Delimits P encode := by
  intro a b ha hb r s h
  have hpair : (a, r) = (b, s) := by rw [← hread a ha r, h, hread b hb s]
  exact Prod.mk.inj hpair

theorem eq_of_eq (h : Delimits P encode) {a b : α} (ha : P a) (hb : P b)
    (heq : encode a = encode b) : a = b :=
  (h a b ha hb [] [] (by rw [heq])).1

/-- A list of parts can be taken apart if no part is empty: a part that is read leaves less. -/
theorem eq_of_flatMap_eq (h : Delimits P encode) (hne : ∀ a, P a → encode a ≠ []) {as bs : List α}
    (has : ∀ a ∈ as, P a) (hbs : ∀ b ∈ bs, P b) (heq : as.flatMap encode = bs.flatMap encode) :
    as = bs := by
  induction as generalizing bs with
  | nil =>
    cases bs with
    | nil => rfl
    | cons b bs =>
      rw [List.flatMap_nil, List.flatMap_cons, eq_comm, List.append_eq_nil_iff] at heq
      exact absurd heq.1 (hne b (hbs b List.mem_cons_self))
  | cons a as ih =>
    rw [List.forall_mem_cons] at has
    cases bs with
    | nil =>
      rw [List.flatMap_nil, List.flatMap_cons, List.append_eq_nil_iff] at heq
      exact absurd heq.1 (hne a has.1)
    | cons b bs =>
      rw [List.forall_mem_cons] at hbs
      rw [List.flatMap_cons, List.flatMap_cons] at heq
      obtain ⟨rfl, hrest⟩ := h a b has.1 hbs.1 _ _ heq
      rw [ih has.2 hbs.2 hrest]

end Delimits

theorem Bytes.ofNatLE_inj {width m n : Nat} (hm : m < 256 ^ width) (hn : n < 256 ^ width)
    (h : ofNatLE width m = ofNatLE width n) : m = n := by
  have hvalue := congrArg toNatLE h
  rwa [toNatLE_ofNatLE, toNatLE_ofNatLE, Nat.mod_eq_of_lt hm, Nat.mod_eq_of_lt hn] at hvalue

namespace Wire

@[simp] theorem length_word32 (n : UInt32) : (word32 n).length = 4 := Bytes.length_ofNatLE 4 n.toNat

@[simp] theorem length_word64 (n : UInt64) : (word64 n).length = 8 := Bytes.length_ofNatLE 8 n.toNat

theorem word32_injective : Function.Injective word32 := by
  intro m n h
  exact UInt32.toNat_inj.mp (Bytes.ofNatLE_inj m.toNat_lt n.toNat_lt h)

theorem word64_injective : Function.Injective word64 := by
  intro m n h
  exact UInt64.toNat_inj.mp (Bytes.ofNatLE_inj m.toNat_lt n.toNat_lt h)

theorem delimits_word32 : Delimits (fun _ ↦ True) word32 := .of_width length_word32 word32_injective

theorem delimits_word64 : Delimits (fun _ ↦ True) word64 := .of_width length_word64 word64_injective

/-- Reads a count: the first byte is the count, or says how wide it is. -/
def readCompactSize : Bytes → Nat × Bytes
  | [] => (0, [])
  | b :: rest =>
    let number (width : Nat) := (Bytes.toNatLE (rest.take width), rest.drop width)
    if b = 0xfd then number 2
    else if b = 0xfe then number 4
    else if b = 0xff then number 8
    else (b.toNat, rest)

theorem readCompactSize_compactSize {n : Nat} (hn : n < 2 ^ 64) (r : Bytes) :
    readCompactSize (compactSize n ++ r) = (n, r) := by
  have hnumber {width : Nat} (hwidth : n < 256 ^ width) :
      (Bytes.toNatLE ((Bytes.ofNatLE width n ++ r).take width),
        (Bytes.ofNatLE width n ++ r).drop width) = (n, r) := by
    have hlength := Bytes.length_ofNatLE width n
    rw [List.take_left' hlength, List.drop_left' hlength, Bytes.toNatLE_ofNatLE,
      Nat.mod_eq_of_lt hwidth]
  unfold compactSize compactSizeParts
  split
  next hlt =>
    have hbyte : (UInt8.ofNat n).toNat = n := UInt8.toNat_ofNat_of_lt (show n < 256 by omega)
    -- A count of one byte is below all markers, so that it is not taken for one.
    have hmarker {marker : UInt8} (h : 0xfd ≤ marker.toNat) : UInt8.ofNat n ≠ marker := by
      rintro rfl
      omega
    change readCompactSize (UInt8.ofNat n :: r) = (n, r)
    simp [readCompactSize, hmarker, hbyte]
  next =>
    split
    next hle => exact hnumber (by omega)
    next =>
      split
      next hle => exact hnumber (by omega)
      next => exact hnumber (by omega)

theorem delimits_compactSize : Delimits (· < 2 ^ 64) compactSize :=
  .of_read readCompactSize fun _ hn r ↦ readCompactSize_compactSize hn r

theorem delimits_byteString : Delimits (fun bytes : Bytes ↦ bytes.length < 2 ^ 64) byteString := by
  intro a b ha hb r s h
  rw [byteString_eq, byteString_eq, List.append_assoc, List.append_assoc] at h
  obtain ⟨hlength, hrest⟩ := delimits_compactSize _ _ ha hb _ _ h
  exact List.append_inj hrest hlength

end Wire

@[simp] theorem Outpoint.length_encode (o : Outpoint) : o.encode.length = 36 := by
  simp [encode_eq, o.hash.length_eq]

theorem Outpoint.encode_injective : Function.Injective encode := by
  rintro ⟨⟨hash, hlength⟩, index⟩ ⟨⟨hash', hlength'⟩, index'⟩ h
  obtain ⟨hhash, hindex⟩ := List.append_inj h (hlength.trans hlength'.symm)
  obtain rfl : hash = hash' := hhash
  obtain rfl : index = index' := Wire.word32_injective hindex
  rfl

theorem delimits_outpoint : Delimits (fun _ ↦ True) Outpoint.encode :=
  .of_width Outpoint.length_encode Outpoint.encode_injective

theorem delimits_output :
    Delimits (fun o : Output ↦ o.locking.length < 2 ^ 64) Output.encode := by
  rintro ⟨value, locking⟩ ⟨value', locking'⟩ ha hb r s h
  rw [Output.encode_eq, Output.encode_eq, List.append_assoc, List.append_assoc] at h
  obtain ⟨rfl, hrest⟩ := Wire.delimits_word64 _ _ trivial trivial _ _ h
  obtain ⟨rfl, rfl⟩ := Wire.delimits_byteString _ _ ha hb _ _ hrest
  exact ⟨rfl, rfl⟩

theorem Output.encode_ne_nil (o : Output) : o.encode ≠ [] := by
  apply List.ne_nil_of_length_pos
  simp [encode_eq]

end ScriptMachine
