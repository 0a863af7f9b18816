import ScriptMachine.Bytes

/-!
# Hexadecimal text

Bytes are written as two lower-case digits each. Reading takes digits of either case, and reports
the first thing wrong with a text it refuses.
-/

namespace ScriptMachine.Hex

/-- The digit of value `n`, for `n` below sixteen. -/
def digit (n : Nat) : Char :=
  if n < 10 then Char.ofNat (48 + n) else Char.ofNat (87 + n)

def value? (c : Char) : Option Nat :=
  let n := c.toNat
  if 48 ≤ n ∧ n ≤ 57 then some (n - 48)
  else if 97 ≤ n ∧ n ≤ 102 then some (n - 87)
  else if 65 ≤ n ∧ n ≤ 70 then some (n - 55)
  else none

def byte (b : UInt8) : List Char := [digit (b.toNat / 16), digit (b.toNat % 16)]

def encode (bytes : Bytes) : String := String.ofList (bytes.flatMap byte)

def decode? : List Char → Option Bytes
  | [] => some []
  | [_] => none
  | hi :: lo :: rest =>
    match value? hi, value? lo, decode? rest with
    | some h, some l, some bytes => some (UInt8.ofNat (16 * h + l) :: bytes)
    | _, _, _ => none

inductive Fault
  /-- The text has an odd number of bytes. -/
  | oddLength
  /-- The byte at this position of the text is no digit. -/
  | badByte (byte : UInt8) (index : Nat)
  deriving DecidableEq, Repr

/-- The character of a byte as it stands between quotes: control characters, the two blanks above
the ASCII range that print as nothing, the quote and the backslash are escaped. -/
def quotedByte (b : UInt8) : String :=
  let c := Char.ofNat b.toNat
  if b = 0 then "\\0"
  else if b = 9 then "\\t"
  else if b = 10 then "\\n"
  else if b = 13 then "\\r"
  else if c = '\'' then "\\'"
  else if c = '\\' then "\\\\"
  else if b < 0x20 ∨ (0x7f ≤ b ∧ b ≤ 0xa0) ∨ b = 0xad then
    "\\u\x7b" ++ String.ofList (Nat.toDigits 16 b.toNat) ++ "\x7d"
  else String.singleton c

def Fault.message : Fault → String
  | .oddLength => "Odd number of digits"
  | .badByte b index => s!"Invalid character '{quotedByte b}' at position {index}"

/-- The first thing wrong with a text that cannot be read; its length counts first. -/
def diagnose (text : String) : Fault :=
  let bytes := text.toUTF8.toList
  let isDigit (b : UInt8) : Bool := (value? (Char.ofNat b.toNat)).isSome
  if bytes.length % 2 = 1 then .oddLength
  else
    match bytes.find? (fun b ↦ !isDigit b) with
    | some b => .badByte b (bytes.findIdx (fun b ↦ !isDigit b))
    | none => .oddLength

def decode (text : String) : Except Fault Bytes :=
  match decode? text.toList with
  | some bytes => .ok bytes
  | none => .error (diagnose text)

end ScriptMachine.Hex
