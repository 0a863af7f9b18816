import Mathlib.Data.List.Induction
import ScriptMachine.Hex
import ScriptMachine.Text.Numeral

/-!
# Written numbers

Numbers in decimal and bytes in hexadecimal are read back as what was written. A number is also read
with zeros in front of it, and a count with a plus sign.
-/

namespace ScriptMachine

namespace Text

variable {n bound : Nat} {text : List Char}

theorem toList_toString (n : Nat) : (toString n).toList = Nat.toDigits 10 n := by
  rw [Nat.toString_eq_ofList_toDigits, String.toList_ofList]

theorem digitsValue_toDigits (n : Nat) : digitsValue (Nat.toDigits 10 n) = n :=
  Nat.ofDigitChars_ten_toDigits

theorem all_isDigit_toDigits (n : Nat) : (Nat.toDigits 10 n).all Char.isDigit = true :=
  List.all_eq_true.mpr fun _ ↦ Nat.isDigit_of_mem_toDigits (by decide) (by decide)

theorem digitChar_of_isDigit {c : Char} (h : c.isDigit = true) :
    c.toNat - 48 < 10 ∧ Nat.digitChar (c.toNat - 48) = c := by
  have hrange : 48 ≤ c.toNat ∧ c.toNat ≤ 57 := Char.isDigit_iff_toNat.mp h
  have hlt : c.toNat - 48 < 10 := by omega
  refine ⟨hlt, Char.toNat_inj.mp ?_⟩
  rw [Nat.toNat_digitChar_of_lt_ten hlt]
  omega

theorem digits?_replicate_append (zeros n : Nat) :
    digits? (List.replicate zeros '0' ++ Nat.toDigits 10 n) = some n := by
  have hzeros : digitsValue (List.replicate zeros '0') = 0 := Nat.ofDigitChars_replicate_zero
  have hvalue : digitsValue (List.replicate zeros '0' ++ Nat.toDigits 10 n) = n := by
    rw [digitsValue, List.foldl_append, ← digitsValue, hzeros]
    exact digitsValue_toDigits n
  have hall : (List.replicate zeros '0' ++ Nat.toDigits 10 n).all Char.isDigit = true := by
    rw [List.all_append, all_isDigit_toDigits, List.all_replicate]
    simp
  rw [digits?, if_pos ⟨by simp, hall⟩, hvalue]

theorem eq_zeros_append_toDigits (hne : text ≠ []) (hall : text.all Char.isDigit = true) :
    ∃ zeros, text = List.replicate zeros '0' ++ Nat.toDigits 10 (digitsValue text) := by
  induction text using List.reverseRecOn with
  | nil => exact absurd rfl hne
  | append_singleton init c ih =>
    rw [List.all_append, Bool.and_eq_true, List.all_cons, List.all_nil, Bool.and_true] at hall
    obtain ⟨hlt, hchar⟩ := digitChar_of_isDigit hall.2
    have hvalue : digitsValue (init ++ [c]) = 10 * digitsValue init + (c.toNat - 48) := by
      simp [digitsValue]
    have hlast : Nat.toDigits 10 (c.toNat - 48) = [c] := by
      rw [Nat.toDigits_of_lt_base hlt, hchar]
    rw [hvalue]
    rcases Nat.eq_zero_or_pos (digitsValue init) with hzero | hpos
    · -- All digits before the last are zeros.
      rw [hzero, Nat.mul_zero, Nat.zero_add, hlast]
      by_cases hnil : init = []
      · exact ⟨0, by simp [hnil]⟩
      · obtain ⟨zeros, hzeros⟩ := ih hnil hall.1
        rw [hzero, Nat.toDigits_zero, ← List.replicate_succ'] at hzeros
        exact ⟨zeros + 1, by rw [hzeros]⟩
    · have hnil : init ≠ [] := by
        rintro rfl
        exact absurd hpos (Nat.lt_irrefl 0)
      obtain ⟨zeros, hzeros⟩ := ih hnil hall.1
      rw [← Nat.toDigits_append_toDigits (by decide) hpos hlt, hlast]
      exact ⟨zeros, by rw [← List.append_assoc, ← hzeros]⟩

theorem digits?_eq_some_iff :
    digits? text = some n ↔ ∃ zeros, text = List.replicate zeros '0' ++ Nat.toDigits 10 n := by
  constructor
  · intro h
    rw [digits?] at h
    split_ifs at h with htext
    cases h
    exact eq_zeros_append_toDigits htext.1 htext.2
  · rintro ⟨zeros, rfl⟩
    exact digits?_replicate_append zeros n

theorem countBelow?_of_digits? (h : digits? text = some n) (hlt : n < bound) :
    countBelow? bound text = some n := by
  unfold countBelow?
  split
  · simp [digits?] at h
  · rw [h, Option.filter_some, if_pos (by simpa using hlt)]

/-- A count is its digits, with zeros in front of them, and perhaps a plus sign in front of all. -/
theorem countBelow?_eq_some_iff :
    countBelow? bound text = some n ↔ n < bound ∧ ∃ zeros,
      text = List.replicate zeros '0' ++ Nat.toDigits 10 n ∨
        text = '+' :: (List.replicate zeros '0' ++ Nat.toDigits 10 n) := by
  constructor
  · intro h
    unfold countBelow? at h
    obtain ⟨hdigits, hlt⟩ := Option.filter_eq_some_iff.mp h
    refine ⟨of_decide_eq_true hlt, ?_⟩
    split at hdigits
    · obtain ⟨zeros, rfl⟩ := digits?_eq_some_iff.mp hdigits
      exact ⟨zeros, .inr rfl⟩
    · obtain ⟨zeros, rfl⟩ := digits?_eq_some_iff.mp hdigits
      exact ⟨zeros, .inl rfl⟩
  · rintro ⟨hlt, zeros, rfl | rfl⟩
    · exact countBelow?_of_digits? (digits?_replicate_append zeros n) hlt
    · simp [countBelow?, digits?_replicate_append, hlt]

/-- A number below the bound is read back from its digits, which have no sign before them. -/
theorem countBelow?_toDigits (h : n < bound) : countBelow? bound (Nat.toDigits 10 n) = some n :=
  countBelow?_eq_some_iff.mpr ⟨h, 0, .inl rfl⟩

/-- Only zero is written with a zero in front. -/
theorem head?_toDigits_ne_zero (h : 0 < n) : (Nat.toDigits 10 n).head? ≠ some '0' := by
  induction n using Nat.strongRecOn with
  | ind n ih =>
    by_cases hn : n < 10
    · rw [Nat.toDigits_of_lt_base hn]
      have hdigit : ∀ d < 10, 0 < d → Nat.digitChar d ≠ '0' := by decide
      simpa using hdigit n hn h
    · have hfront := ih (n / 10) (by omega) (by omega)
      obtain ⟨d, rest, hd⟩ :=
        List.exists_cons_of_ne_nil (Nat.toDigits_ne_nil (b := 10) (n := n / 10))
      rw [hd] at hfront
      rwa [Nat.toDigits_of_base_le (by decide) (by omega), hd]

end Text

namespace Hex

variable {n : Nat}

theorem value?_digit (h : n < 16) : value? (digit n) = some n := by
  have hall : ∀ d < 16, value? (digit d) = some d := by decide
  exact hall n h

/-- Two digits of a byte give it back. -/
theorem decode?_flatMap_byte (bytes : Bytes) : decode? (bytes.flatMap byte) = some bytes := by
  induction bytes with
  | nil => rfl
  | cons b rest ih =>
    have hb := b.toNat_lt
    have hhigh := value?_digit (n := b.toNat / 16) (by omega)
    have hlow := value?_digit (n := b.toNat % 16) (by omega)
    have hbyte : UInt8.ofNat (16 * (b.toNat / 16) + b.toNat % 16) = b := by
      rw [Nat.div_add_mod, UInt8.ofNat_toNat]
    simp only [List.flatMap_cons, byte, List.cons_append, List.nil_append, decode?, hhigh, hlow,
      ih, hbyte]

end Hex

end ScriptMachine
