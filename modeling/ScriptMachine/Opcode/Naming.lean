import ScriptMachine.Edition
import ScriptMachine.Opcode.Basic
import ScriptMachine.Text.Numeral

/-!
# Names of bytes

Which opcode a byte or a name stands for depends on the edition. Bytes without an opcode have
derived names, which say how many bytes they push or merely their value.
-/

namespace ScriptMachine.Opcode

/-- The largest byte that pushes as many bytes as its value says. -/
def maxDirectPush : UInt8 := 0x4b

/-- The largest byte that counts as a push where only pushes are allowed. -/
def maxPush : UInt8 := 0x60

/-- The opcodes of the editions with loops: they take the bytes of the two conditional opcodes that
always fail. -/
def loopTable : List Opcode :=
  table.map fun op ↦
    if op = .reserved .verIf then .loop .begin
    else if op = .reserved .verNotIf then .loop .until
    else op

def available (edition : Edition) : List Opcode :=
  if edition.hasLoops then loopTable else table

def ofByte? (edition : Edition) (byte : UInt8) : Option Opcode :=
  (available edition).find? fun op ↦ op.byte == byte

/-- The opcode of a name. Two opcodes have a second name. -/
def ofMnemonic? (edition : Edition) (name : String) : Option Opcode :=
  if name = "OP_FALSE" then some (.pushing .empty)
  else if name = "OP_TRUE" then some (.small ⟨0, by decide⟩)
  else (available edition).find? fun op ↦ op.mnemonic == name

def isDirectPush (byte : UInt8) : Bool := decide (1 ≤ byte ∧ byte ≤ maxDirectPush)

def nameOfByte (edition : Edition) (byte : UInt8) : String :=
  match ofByte? edition byte with
  | some op => op.mnemonic
  | none =>
    if isDirectPush byte then s!"OP_PUSHBYTES_{byte.toNat}" else s!"OP_UNKNOWN{byte.toNat}"

/-- The number in a derived name: a count without a superfluous leading zero. -/
def derivedNumber? (text : List Char) : Option UInt8 :=
  if text.length > 1 ∧ text.head? = some '0' then none
  else (Text.countBelow? 256 text).map UInt8.ofNat

def directPushOfName? (name : List Char) : Option UInt8 :=
  ("OP_PUSHBYTES_".toList.isPrefixOf? name).bind fun number ↦
    (derivedNumber? number).filter isDirectPush

def unknownOfName? (edition : Edition) (name : List Char) : Option UInt8 :=
  ("OP_UNKNOWN".toList.isPrefixOf? name).bind fun number ↦
    (derivedNumber? number).filter fun byte ↦
      (ofByte? edition byte).isNone && decide (maxDirectPush < byte)

def byteOfName? (edition : Edition) (name : String) : Option UInt8 :=
  match ofMnemonic? edition name with
  | some op => some op.byte
  | none => (directPushOfName? name.toList).or (unknownOfName? edition name.toList)

end ScriptMachine.Opcode
