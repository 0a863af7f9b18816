import ScriptMachine.Bytes

/-!
# Script numbers

Numbers are byte strings, least significant byte first, whose topmost bit is the sign. Each integer
has one shortest encoding; zero is the empty string. Items that are read as numbers must be such
encodings and not too long, but any byte string has a value.
-/

namespace ScriptMachine.ScriptNumber

inductive Fault
  | tooLong (length limit : Nat)
  | notMinimal
  | insufficientSize (size : Nat)
  deriving DecidableEq, Repr

def signBit : UInt8 := 0x80

/-- The value of the topmost of the bits in `size` bytes. -/
def signPlace (size : Nat) : Nat := 1 <<< (8 * size - 1)

/-- The encoding of `v` in `size` bytes, for a `size` that is wide enough. -/
def encodeIn (size : Nat) (v : Int) : Bytes :=
  Bytes.ofNatLE size (v.natAbs + if v < 0 then signPlace size else 0)

/-- The bytes of a positive number, without any that are not needed. -/
def magnitudeBytes (m : Nat) : Bytes := Bytes.ofNatLE (m.log2 / 8 + 1) m

/-- The bytes of the magnitude. The sign takes the topmost bit of the last one, or else a byte of
its own where that bit is set already. -/
def encode (v : Int) : Bytes :=
  if v = 0 then []
  else
    let bytes := magnitudeBytes v.natAbs
    let top := bytes.getLastD 0
    if top &&& signBit != 0 then bytes ++ [if v < 0 then signBit else 0]
    else if v < 0 then bytes.dropLast ++ [top ||| signBit]
    else bytes

def value (bytes : Bytes) : Int :=
  let n := Bytes.toNatLE bytes
  let sign := signPlace bytes.length
  if bytes ≠ [] ∧ sign ≤ n then -((n - sign : Nat) : Int) else n

/-- The string is the shortest encoding of its value: its last byte holds more than a sign bit, or a
sign bit that the byte before it has no room for. -/
def isMinimal (bytes : Bytes) : Bool :=
  match bytes.reverse with
  | [] => true
  | [last] => last &&& 0x7f != 0
  | last :: before :: _ => last &&& 0x7f != 0 || before &&& signBit != 0

def decode (bytes : Bytes) (limit : Nat) (minimal : Bool) : Except Fault Int :=
  if limit < bytes.length then .error (.tooLong bytes.length limit)
  else if minimal && !isMinimal bytes then .error .notMinimal
  else .ok (value bytes)

/-- The item counts as true: it has a bit set, other than its sign bit. -/
def isTruthy (bytes : Bytes) : Bool :=
  match bytes.reverse with
  | [] => false
  | last :: rest => last &&& 0x7f != 0 || rest.any (· != 0)

def minimize (bytes : Bytes) : Bytes := encode (value bytes)

def pad (v : Int) (size : Nat) : Except Fault Bytes :=
  if size < (encode v).length then .error (.insufficientSize size) else .ok (encodeIn size v)

@[simp] theorem length_encodeIn (size : Nat) (v : Int) : (encodeIn size v).length = size := by
  simp [encodeIn]

/-- The integer, or the largest signed 64-bit word where it is not one. Faults report positions
so. -/
def clamp (v : Int) : Int :=
  if Int64.minValue.toInt ≤ v ∧ v ≤ Int64.maxValue.toInt then v else Int64.maxValue.toInt

end ScriptMachine.ScriptNumber
