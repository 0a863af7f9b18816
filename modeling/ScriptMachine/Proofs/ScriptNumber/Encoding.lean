import ScriptMachine.Bytes.Lemmas
import ScriptMachine.ScriptNumber

/-!
# Shortest encodings of numbers

A string of `size` bytes holds a sign and a magnitude below half of `256 ^ size`, and every integer
of such a magnitude has an encoding in `size` bytes. Zero alone has two. So the shortest encoding of
an integer is the only one of its length, and the last two bytes of a string tell whether it is one.
-/

namespace ScriptMachine.ScriptNumber

variable {size : Nat} {v : Int} {bytes : Bytes}

/-! ## Widths -/

/-- The number of bytes that a magnitude needs together with a sign. -/
def width (m : Nat) : Nat := if m = 0 then 0 else (m.log2 + 1) / 8 + 1

theorem pow_eq_two_pow (size : Nat) : 256 ^ size = 2 ^ (8 * size) := by
  rw [Nat.pow_mul]

theorem two_mul_signPlace (h : size ≠ 0) : 2 * signPlace size = 256 ^ size := by
  have hexponent : 8 * size = (8 * size - 1) + 1 := by omega
  rw [pow_eq_two_pow, hexponent, Nat.pow_succ, signPlace, Nat.one_shiftLeft, Nat.mul_comm]

/-- A magnitude fits where it leaves the topmost bit free. -/
theorem width_le_iff (magnitude size : Nat) :
    width magnitude ≤ size ↔ 2 * magnitude < 256 ^ size := by
  unfold width
  split
  · rename_i hzero
    simp [hzero]
  · rename_i hne
    have hdouble : 2 * magnitude ≠ 0 := by omega
    have hlog : (2 * magnitude).log2 = magnitude.log2 + 1 := Nat.log2_two_mul hne
    rw [pow_eq_two_pow, ← Nat.log2_lt hdouble, hlog]
    omega

theorem two_mul_natAbs_value_lt (bytes : Bytes) :
    2 * (value bytes).natAbs < 256 ^ bytes.length := by
  have hlt := Bytes.toNatLE_lt bytes
  by_cases hnil : bytes = []
  · simp [hnil, value, Bytes.toNatLE]
  · have hsign : 2 * signPlace bytes.length = 256 ^ bytes.length :=
      two_mul_signPlace (by simpa using hnil)
    simp only [value, hnil, ne_eq, not_false_eq_true, true_and]
    split <;> omega

theorem width_natAbs_value_le (bytes : Bytes) : width (value bytes).natAbs ≤ bytes.length :=
  (width_le_iff _ _).mpr (two_mul_natAbs_value_lt bytes)

/-! ## Encodings of a given size -/

theorem value_encodeIn (h : 2 * v.natAbs < 256 ^ size) : value (encodeIn size v) = v := by
  by_cases hsize : size = 0
  · subst hsize
    have hv : v = 0 := by omega
    subst hv
    rfl
  · have hsign := two_mul_signPlace hsize
    have hnil : encodeIn size v ≠ [] := by
      rw [← List.length_pos_iff, length_encodeIn]
      omega
    have hnat : Bytes.toNatLE (encodeIn size v) =
        v.natAbs + if v < 0 then signPlace size else 0 := by
      rw [encodeIn, Bytes.toNatLE_ofNatLE, Nat.mod_eq_of_lt]
      split <;> omega
    simp only [value, hnil, hnat, length_encodeIn, ne_eq, not_false_eq_true, true_and]
    split_ifs <;> omega

/-- Zero has a second encoding of each size, with the sign bit set. -/
theorem encodeIn_value (h : value bytes ≠ 0) : encodeIn bytes.length (value bytes) = bytes := by
  have hnat : (value bytes).natAbs + (if value bytes < 0 then signPlace bytes.length else 0) =
      Bytes.toNatLE bytes := by
    revert h
    simp only [value]
    split_ifs <;> omega
  rw [encodeIn, hnat, Bytes.ofNatLE_toNatLE]

/-! ## The last two bytes -/

theorem magnitudeBits_ne_zero_iff (b : UInt8) : (b &&& 0x7f != 0) = true ↔ b.toNat % 128 ≠ 0 := by
  have hand : (b &&& 0x7f).toNat = b.toNat % 128 := by
    rw [UInt8.toNat_and]
    exact Nat.and_two_pow_sub_one_eq_mod b.toNat 7
  rw [bne_iff_ne, ne_eq, ← UInt8.toNat_inj, hand]
  rfl

theorem signBit_ne_zero_iff (b : UInt8) : (b &&& signBit != 0) = true ↔ 128 ≤ b.toNat := by
  have hb := b.toNat_lt
  have hand : (b &&& signBit).toNat = (b.toNat.testBit 7).toNat * 128 := by
    rw [UInt8.toNat_and]
    exact Nat.and_two_pow b.toNat 7
  have hbit : b.toNat.testBit 7 = decide (128 ≤ b.toNat) := by
    rw [Nat.testBit_eq_decide_div_mod_eq, decide_eq_decide]
    omega
  rw [bne_iff_ne, ne_eq, ← UInt8.toNat_inj, hand, hbit]
  by_cases h : 128 ≤ b.toNat <;> simp [h]

theorem pow_length_concat (init : Bytes) (last : UInt8) :
    256 ^ (init ++ [last]).length = 256 ^ init.length * 256 := by
  simp [Nat.pow_succ]

theorem pow_le_two_mul_toNatLE_concat (init : Bytes) (last : UInt8) :
    256 ^ (init ++ [last]).length ≤ 2 * Bytes.toNatLE (init ++ [last]) ↔ 128 ≤ last.toNat := by
  have hinit := Bytes.toNatLE_lt init
  rw [pow_length_concat, Bytes.toNatLE_concat]
  constructor
  · intro h
    by_contra hclear
    have hbelow : 256 ^ init.length * last.toNat ≤ 256 ^ init.length * 127 :=
      Nat.mul_le_mul_left _ (by omega)
    omega
  · intro h
    have habove : 256 ^ init.length * 128 ≤ 256 ^ init.length * last.toNat :=
      Nat.mul_le_mul_left _ h
    omega

/-- The topmost bit of the last byte is the sign, and all other bits are the magnitude. -/
theorem value_concat (init : Bytes) (last : UInt8) :
    value (init ++ [last]) = (if 128 ≤ last.toNat then -1 else 1) *
      ((Bytes.toNatLE init + 256 ^ init.length * (last.toNat % 128) : Nat) : Int) := by
  have hlast := last.toNat_lt
  have hset := pow_le_two_mul_toNatLE_concat init last
  have hsign : 2 * signPlace (init ++ [last]).length = 256 ^ (init ++ [last]).length :=
    two_mul_signPlace (by simp)
  have hnil : init ++ [last] ≠ [] := by simp
  rw [Bytes.toNatLE_concat, pow_length_concat] at hset
  rw [pow_length_concat] at hsign
  simp only [value, hnil, Bytes.toNatLE_concat, ne_eq, not_false_eq_true, true_and]
  by_cases hbit : 128 ≤ last.toNat
  · have hsplit : 256 ^ init.length * last.toNat =
        256 ^ init.length * 128 + 256 ^ init.length * (last.toNat % 128) := by
      rw [← Nat.mul_add]
      congr 1
      omega
    rw [if_pos (by omega), if_pos hbit]
    omega
  · rw [if_neg (by omega), if_neg hbit, Nat.mod_eq_of_lt (Nat.lt_of_not_le hbit), one_mul]

theorem natAbs_value_concat (init : Bytes) (last : UInt8) :
    (value (init ++ [last])).natAbs =
      Bytes.toNatLE init + 256 ^ init.length * (last.toNat % 128) := by
  rw [value_concat]
  split <;> omega

theorem isMinimal_concat_iff (init : Bytes) (last : UInt8) :
    isMinimal (init ++ [last]) = true ↔
      last.toNat % 128 ≠ 0 ∨ 256 ^ init.length ≤ 2 * Bytes.toNatLE init := by
  rcases List.eq_nil_or_concat' init with rfl | ⟨first, before, rfl⟩
  · simp only [isMinimal, List.nil_append, List.reverse_singleton, magnitudeBits_ne_zero_iff]
    simp [Bytes.toNatLE]
  · rw [pow_le_two_mul_toNatLE_concat, ← magnitudeBits_ne_zero_iff, ← signBit_ne_zero_iff,
      ← Bool.or_eq_true]
    simp [isMinimal]

/-- A string passes the test where its value needs all of its bytes. -/
theorem isMinimal_iff_width_eq (bytes : Bytes) :
    isMinimal bytes = true ↔ width (value bytes).natAbs = bytes.length := by
  rcases List.eq_nil_or_concat' bytes with rfl | ⟨init, last, rfl⟩
  · simp [isMinimal, value, Bytes.toNatLE, width]
  · have hneeds : width (value (init ++ [last])).natAbs = (init ++ [last]).length ↔
        256 ^ init.length ≤ 2 * (value (init ++ [last])).natAbs := by
      have hle := width_natAbs_value_le (init ++ [last])
      have hlength : (init ++ [last]).length = init.length + 1 := by simp
      rw [← Nat.not_lt, ← width_le_iff]
      omega
    rw [isMinimal_concat_iff, hneeds, natAbs_value_concat]
    -- Without the last byte the magnitude fits only where its bits there are clear.
    constructor
    · rintro (hne | hbig)
      · have hpos := Nat.le_mul_of_pos_right (256 ^ init.length) (Nat.pos_of_ne_zero hne)
        omega
      · omega
    · intro h
      by_contra hnot
      rw [not_or, not_not] at hnot
      rw [hnot.1] at h
      omega

/-! ## Magnitudes with a sign -/

theorem toNat_or_signBit {b : UInt8} (h : b.toNat < 128) :
    (b ||| signBit).toNat = b.toNat + 128 := by
  have hor : 2 ^ 7 * 1 + b.toNat = 2 ^ 7 * 1 ||| b.toNat := Nat.two_pow_add_eq_or_of_lt h 1
  rw [UInt8.toNat_or, Nat.or_comm, Nat.add_comm]
  exact hor.symm

theorem toNatLE_magnitudeBytes (m : Nat) : Bytes.toNatLE (magnitudeBytes m) = m := by
  have hlt : m < 256 ^ (m.log2 / 8 + 1) := by
    rw [pow_eq_two_pow]
    exact Nat.lt_log2_self.trans_le (Nat.pow_le_pow_right Nat.two_pos (by omega))
  rw [magnitudeBytes, Bytes.toNatLE_ofNatLE, Nat.mod_eq_of_lt hlt]

theorem exists_magnitudeBytes_eq (m : Nat) : ∃ init top, magnitudeBytes m = init ++ [top] := by
  obtain hnil | hconcat := List.eq_nil_or_concat' (magnitudeBytes m)
  · cases congrArg List.length hnil
  · exact hconcat

section Magnitude

variable {init : Bytes} {top : UInt8}

/-- A sign needs a byte of its own where the topmost bit is taken. -/
theorem width_of_magnitudeBytes {m : Nat} (hm : m ≠ 0) (h : magnitudeBytes m = init ++ [top]) :
    width m = init.length + 1 + if 128 ≤ top.toNat then 1 else 0 := by
  have hlength : m.log2 / 8 + 1 = (init ++ [top]).length := by
    rw [← h, magnitudeBytes, Bytes.length_ofNatLE]
  have hfits := width_le_iff m (init ++ [top]).length
  have htop := pow_le_two_mul_toNatLE_concat init top
  rw [← h, toNatLE_magnitudeBytes, h] at htop
  rw [← Nat.not_le, htop, ← hlength] at hfits
  rw [List.length_append, List.length_singleton] at hlength
  rw [width, if_neg hm] at hfits ⊢
  split <;> omega

theorem encode_of_magnitudeBytes (hv : v ≠ 0) (h : magnitudeBytes v.natAbs = init ++ [top]) :
    encode v =
      if 128 ≤ top.toNat then init ++ [top] ++ [if v < 0 then signBit else 0]
      else if v < 0 then init ++ [top ||| signBit] else init ++ [top] := by
  have htop : (init ++ [top]).getLastD 0 = top := by simp
  simp only [encode, if_neg hv, h, htop, List.dropLast_concat, signBit_ne_zero_iff]

end Magnitude

@[simp] theorem length_encode (v : Int) : (encode v).length = width v.natAbs := by
  by_cases hv : v = 0
  · subst hv
    rfl
  · obtain ⟨init, top, h⟩ := exists_magnitudeBytes_eq v.natAbs
    rw [encode_of_magnitudeBytes hv h, width_of_magnitudeBytes (Int.natAbs_ne_zero.mpr hv) h]
    split_ifs <;> simp

theorem value_encode (v : Int) : value (encode v) = v := by
  by_cases hv : v = 0
  · subst hv
    rfl
  · obtain ⟨init, top, h⟩ := exists_magnitudeBytes_eq v.natAbs
    have hmagnitude : Bytes.toNatLE (init ++ [top]) = v.natAbs := by
      rw [← h, toNatLE_magnitudeBytes]
    rw [encode_of_magnitudeBytes hv h]
    split_ifs with htop hneg hneg
    · rw [value_concat, hmagnitude, if_pos (by decide), (by decide : signBit.toNat % 128 = 0)]
      omega
    · rw [value_concat, hmagnitude, if_neg (by decide), (by decide : (0 : UInt8).toNat % 128 = 0)]
      omega
    · have hbits := toNat_or_signBit (Nat.lt_of_not_le htop)
      rw [Bytes.toNatLE_concat] at hmagnitude
      rw [value_concat, hbits, if_pos (Nat.le_add_left _ _), Nat.add_mod_right,
        Nat.mod_eq_of_lt (Nat.lt_of_not_le htop), hmagnitude]
      omega
    · rw [Bytes.toNatLE_concat] at hmagnitude
      rw [value_concat, if_neg htop, Nat.mod_eq_of_lt (Nat.lt_of_not_le htop), hmagnitude]
      omega

/-- The magnitude with its sign is the encoding of the least size that is wide enough. -/
theorem encode_eq_encodeIn (v : Int) : encode v = encodeIn (width v.natAbs) v := by
  by_cases hv : v = 0
  · subst hv
    rfl
  · have hencode : encodeIn (encode v).length (value (encode v)) = encode v :=
      encodeIn_value (by rwa [value_encode])
    rw [value_encode, length_encode] at hencode
    exact hencode.symm

theorem encode_value_of_width_eq (h : width (value bytes).natAbs = bytes.length) :
    encode (value bytes) = bytes := by
  by_cases hzero : value bytes = 0
  · -- Zero needs no byte, so none of its other encodings is meant.
    have hnil : bytes = [] := by simpa [hzero, width] using h.symm
    subst hnil
    rfl
  · rw [encode_eq_encodeIn, h, encodeIn_value hzero]

/-! ## Shortest encodings -/

/-- No other string that is as short has the same value. -/
def IsShortest (bytes : Bytes) : Prop :=
  ∀ other, value other = value bytes → other.length ≤ bytes.length → other = bytes

theorem isMinimal_iff_encode_value (bytes : Bytes) :
    isMinimal bytes = true ↔ encode (value bytes) = bytes := by
  rw [isMinimal_iff_width_eq]
  refine ⟨encode_value_of_width_eq, fun h ↦ ?_⟩
  rw [← length_encode, h]

theorem isMinimal_encode (v : Int) : isMinimal (encode v) = true := by
  rw [isMinimal_iff_encode_value, value_encode]

theorem isShortest_encode (v : Int) : IsShortest (encode v) := by
  intro other hvalue hlength
  rw [value_encode] at hvalue
  subst hvalue
  rw [length_encode] at hlength
  exact (encode_value_of_width_eq ((width_natAbs_value_le other).antisymm hlength)).symm

theorem isMinimal_iff_isShortest (bytes : Bytes) : isMinimal bytes = true ↔ IsShortest bytes := by
  rw [isMinimal_iff_encode_value]
  constructor
  · intro h
    rw [← h]
    exact isShortest_encode _
  · intro h
    apply h _ (value_encode _)
    rw [length_encode]
    exact width_natAbs_value_le bytes

theorem decode_minimal_eq_ok_iff (bytes : Bytes) (limit : Nat) (v : Int) :
    decode bytes limit true = .ok v ↔
      bytes.length ≤ limit ∧ bytes = encode (value bytes) ∧ v = value bytes := by
  rw [eq_comm (a := bytes), ← isMinimal_iff_encode_value, decode]
  by_cases hlimit : limit < bytes.length
  · simp [hlimit]
  · cases hminimal : isMinimal bytes with
    | false => simp [hlimit]
    | true => simp [hlimit, Nat.le_of_not_lt hlimit, eq_comm]

/-- The value of a string has the topmost bit of the last byte as its sign and all other bits as its
magnitude. Integers and the strings that pass the test are in bijection: the test holds of exactly
the encodings of integers, and these are the strings with no other one of the same value that is as
short. So minimizing finds the one shortest string with the value of a given one, and reading
succeeds on exactly the encodings that are short enough. -/
theorem minimal_strings_biject_with_integers :
    (value [] = 0 ∧ ∀ init last, value (init ++ [last]) = (if 128 ≤ last.toNat then -1 else 1) *
        ((Bytes.toNatLE init + 256 ^ init.length * (last.toNat % 128) : Nat) : Int)) ∧
      (∀ v, value (encode v) = v ∧ isMinimal (encode v) = true) ∧
      (∀ bytes, (isMinimal bytes = true ↔ encode (value bytes) = bytes) ∧
        (isMinimal bytes = true ↔ IsShortest bytes)) ∧
      (∀ bytes, value (minimize bytes) = value bytes ∧ IsShortest (minimize bytes) ∧
        minimize (minimize bytes) = minimize bytes) ∧
      ∀ bytes limit v, decode bytes limit true = .ok v ↔
        bytes.length ≤ limit ∧ bytes = encode (value bytes) ∧ v = value bytes := by
  refine ⟨⟨rfl, value_concat⟩, fun v ↦ ⟨value_encode v, isMinimal_encode v⟩,
    fun bytes ↦ ⟨isMinimal_iff_encode_value bytes, isMinimal_iff_isShortest bytes⟩,
    fun bytes ↦ ⟨value_encode _, isShortest_encode _, ?_⟩, decode_minimal_eq_ok_iff⟩
  rw [minimize, minimize, value_encode]

end ScriptMachine.ScriptNumber
