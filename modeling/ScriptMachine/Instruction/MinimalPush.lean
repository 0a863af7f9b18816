import ScriptMachine.Instruction.Basic

/-!
# Shortest pushes

Every item has one shortest instruction that pushes it: an opcode of its own for the numbers from
minus one to sixteen, and otherwise the push with the narrowest length.
-/

namespace ScriptMachine.Instruction

def narrowestPush (length : Nat) : UInt8 :=
  if length ≤ 0x4b then UInt8.ofNat length
  else if length ≤ 0xff then 0x4c
  else if length ≤ 0xffff then 0x4d
  else 0x4e

/-- The opcode that pushes this item without any bytes following it. -/
def constantOpcode? : Bytes → Option UInt8
  | [b] =>
    if 1 ≤ b ∧ b ≤ 16 then some (0x50 + b)
    else if b = 0x81 then some 0x4f
    else none
  | _ => none

def minimalPush (data : Bytes) : Instruction :=
  match constantOpcode? data with
  | some opcode => operation opcode
  | none => push (narrowestPush data.length) data

/-- The instruction is not a push that another instruction makes in fewer bytes. -/
def isMinimal : Instruction → Bool
  | push opcode data => (constantOpcode? data).isNone && opcode == narrowestPush data.length
  | _ => true

def encodePush (data : Bytes) : Bytes := (minimalPush data).encode

end ScriptMachine.Instruction
