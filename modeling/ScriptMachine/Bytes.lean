/-!
# Byte strings

A byte string is a list of bytes. Integers are written in a fixed number of bytes, least or most
significant byte first; a number that does not fit keeps its low bytes only.
-/

namespace ScriptMachine

abbrev Bytes := List UInt8

namespace Bytes

/-- The `width` low bytes of `n`, least significant first. -/
def ofNatLE : (width n : Nat) → Bytes
  | 0, _ => []
  | width + 1, n => UInt8.ofNat n :: ofNatLE width (n / 256)

/-- The number whose base-256 digits are `bytes`, least significant first. -/
def toNatLE : Bytes → Nat
  | [] => 0
  | b :: bytes => b.toNat + 256 * toNatLE bytes

def ofNatBE (width n : Nat) : Bytes := (ofNatLE width n).reverse

def toNatBE (bytes : Bytes) : Nat := toNatLE bytes.reverse

def pieces (size : Nat) : (count : Nat) → Bytes → List Bytes
  | 0, _ => []
  | count + 1, bytes => bytes.take size :: pieces size count (bytes.drop size)

@[simp] theorem length_ofNatLE (width n : Nat) : (ofNatLE width n).length = width := by
  induction width generalizing n with
  | zero => rfl
  | succ width ih => simp [ofNatLE, ih]

@[simp] theorem length_ofNatBE (width n : Nat) : (ofNatBE width n).length = width := by
  simp [ofNatBE]

theorem ofNatLE_toNatLE (bytes : Bytes) : ofNatLE bytes.length (toNatLE bytes) = bytes := by
  induction bytes with
  | nil => rfl
  | cons b bytes ih =>
    have hb := b.toNat_lt
    have hdiv : (b.toNat + 256 * toNatLE bytes) / 256 = toNatLE bytes := by omega
    have hmod : UInt8.ofNat (b.toNat + 256 * toNatLE bytes) = b := by
      apply UInt8.toNat_inj.mp
      simp only [UInt8.toNat_ofNat']
      omega
    simp [toNatLE, ofNatLE, hdiv, hmod, ih]

end Bytes

end ScriptMachine
