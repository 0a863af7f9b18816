import ScriptMachine.Bytes

/-!
# Signatures in DER

A pair of positive integers as a DER sequence. Reading is strict: lengths are the short form,
integers have no superfluous zero byte and no sign bit, and nothing follows.
-/

namespace ScriptMachine.Signature.Der

/-- The big-endian bytes of a number, without leading zeros. -/
def magnitude (n : Nat) : Bytes := Bytes.ofNatBE (if n = 0 then 0 else n.log2 / 8 + 1) n

/-- The content of a DER integer: the magnitude, after a zero byte where it would read as
negative. -/
def integerContent (n : Nat) : Bytes :=
  match magnitude n with
  | [] => [0]
  | b :: rest => if b < 0x80 then b :: rest else 0 :: b :: rest

def integer (n : Nat) : Bytes :=
  let content := integerContent n
  2 :: UInt8.ofNat content.length :: content

def encode (r s : Nat) : Bytes :=
  let body := integer r ++ integer s
  0x30 :: UInt8.ofNat body.length :: body

def contentValue? : Bytes → Option Nat
  | [] => none
  | [b] => if b < 0x80 then some b.toNat else none
  | b :: b' :: rest =>
    if b = 0 ∧ b' < 0x80 then none
    else if b < 0x80 then some (Bytes.toNatBE (b :: b' :: rest))
    else none

def readInteger? : Bytes → Option (Nat × Bytes)
  | tag :: length :: rest =>
    if tag = 2 ∧ length < 0x80 ∧ length.toNat ≤ rest.length then
      (contentValue? (rest.take length.toNat)).map fun n ↦ (n, rest.drop length.toNat)
    else none
  | _ => none

def decode? : Bytes → Option (Nat × Nat)
  | tag :: length :: body =>
    if tag = 0x30 ∧ length < 0x80 ∧ length.toNat = body.length then
      match readInteger? body with
      | some (r, rest) =>
        match readInteger? rest with
        | some (s, []) => some (r, s)
        | _ => none
      | none => none
    else none
  | _ => none

end ScriptMachine.Signature.Der
