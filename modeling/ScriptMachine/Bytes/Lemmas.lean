import Mathlib
import ScriptMachine.Bytes

/-!
# Byte strings as numerals

Byte strings are numerals to the base 256: a string of a given length stands for a number below that
power of 256, and joining two strings shifts the second one.
-/

namespace ScriptMachine.Bytes

theorem toNatLE_lt (bytes : Bytes) : toNatLE bytes < 256 ^ bytes.length := by
  induction bytes with
  | nil => simp [toNatLE]
  | cons b bytes ih =>
    have hb := b.toNat_lt
    simp only [toNatLE, List.length_cons, Nat.pow_succ]
    omega

theorem toNatLE_append (a b : Bytes) :
    toNatLE (a ++ b) = toNatLE a + 256 ^ a.length * toNatLE b := by
  induction a with
  | nil => simp [toNatLE]
  | cons x a ih =>
    simp only [List.cons_append, toNatLE, ih, List.length_cons, Nat.pow_succ]
    rw [Nat.mul_add, Nat.mul_comm (256 ^ a.length) 256, Nat.mul_assoc, Nat.add_assoc]

theorem toNatLE_concat (init : Bytes) (last : UInt8) :
    toNatLE (init ++ [last]) = toNatLE init + 256 ^ init.length * last.toNat := by
  simp [toNatLE_append, toNatLE]

theorem toNatLE_ofNatLE (width n : Nat) : toNatLE (ofNatLE width n) = n % 256 ^ width := by
  induction width generalizing n with
  | zero => simp [toNatLE, ofNatLE, Nat.mod_one]
  | succ width ih =>
    have hb : (UInt8.ofNat n).toNat = n % 256 := by simp
    rw [ofNatLE, toNatLE, ih, hb, Nat.pow_succ, Nat.mul_comm (256 ^ width) 256, Nat.mod_mul]

/-! ## Most significant byte first -/

theorem toNatBE_ofNatBE {width n : Nat} (h : n < 256 ^ width) : toNatBE (ofNatBE width n) = n := by
  rw [toNatBE, ofNatBE, List.reverse_reverse, toNatLE_ofNatLE, Nat.mod_eq_of_lt h]

theorem ofNatBE_toNatBE (bytes : Bytes) : ofNatBE bytes.length (toNatBE bytes) = bytes := by
  have hreversed := ofNatLE_toNatLE bytes.reverse
  rw [List.length_reverse] at hreversed
  rw [ofNatBE, toNatBE, hreversed, List.reverse_reverse]

theorem toNatBE_inj {a b : Bytes} (hlength : a.length = b.length) :
    toNatBE a = toNatBE b ↔ a = b := by
  refine ⟨fun h ↦ ?_, congrArg toNatBE⟩
  rw [← ofNatBE_toNatBE a, ← ofNatBE_toNatBE b, hlength, h]

end ScriptMachine.Bytes
