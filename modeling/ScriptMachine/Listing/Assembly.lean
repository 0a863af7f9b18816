import ScriptMachine.Hex
import ScriptMachine.Instruction.Basic
import ScriptMachine.Listing.Token

/-!
# Assembly

Reads a listing back into instructions. The first mistake is reported; all lines are split into
tokens before any instruction is read.
-/

namespace ScriptMachine.Listing

/-- Bytes written out in a listing, and the number of bytes noted as missing. -/
structure Literal where
  bytes : Bytes
  missing : Option Nat
  deriving DecidableEq, Repr

def lengthBound : Nat := UInt64.size

/-- The bytes that are there or missing, counted in a word. -/
def Literal.length (l : Literal) : Nat := (l.bytes.length + l.missing.getD 0) % lengthBound

def readHex? (text : List Char) : Option Bytes :=
  if text = [] then some [] else ("0x".toList.isPrefixOf? text).bind Hex.decode?

def readMissing? (text : List Char) : Option Nat := do
  let rest ← "[missing ".toList.isPrefixOf? text
  let rest ← "]".toList.isSuffixOf? rest
  let digits ← (" bytes".toList.isSuffixOf? rest).or (" byte".toList.isSuffixOf? rest)
  (Text.countBelow? lengthBound digits).filter (0 < ·)

/-- Reads bytes in hexadecimal that may be followed by a note on missing bytes. -/
def readLiteral (t : Token) : Except Fault Literal :=
  let chars := t.text.toList
  let written := chars.takeWhile (· ≠ '[')
  let note := chars.dropWhile (· ≠ '[')
  if note = [] ∧ written = [] then .error (t.fault (.invalidHex t.text))
  else
    match readHex? written with
    | none => .error (t.fault (.invalidHex t.text))
    | some bytes =>
      if note = [] then .ok ⟨bytes, none⟩
      else
        match readMissing? note with
        | none => .error (t.fault (.invalidMissingNote t.text))
        | some missing => .ok ⟨bytes, some missing⟩

def pushOfLength (name : Token) (opcode : UInt8) (declared : Nat) (l : Literal) :
    Except Fault Instruction :=
  if l.length ≠ declared then
    .error (name.fault (.lengthMismatch name.text declared l.length))
  else
    match l.missing with
    | none => .ok (.push opcode l.bytes)
    | some _ => .ok (.truncated opcode (.inData l.bytes declared))

def requireOperand (name : Token) (operand : Operand) : Option Token → Except Fault Token
  | some t => .ok t
  | none => .error (name.fault (.missingOperand name.text operand))

/-- Reads a length that was cut off: the bytes of it that are there, out of `width`. -/
def readCutLength (opcode : UInt8) (width : Nat) (t : Token) : Except Fault Instruction := do
  let l ← readLiteral t
  if l.missing.isSome && l.length == width then
    return .truncated opcode (.inLength l.bytes width)
  else throw (t.fault (.invalidLength t.text))

/-- Reads a push with a length of `width` bytes, and counts the operands it takes. -/
def readLongPush (name : Token) (opcode : UInt8) (width : Nat) (operands : List Token) :
    Except Fault (Instruction × Nat) := do
  let t ← requireOperand name .length operands[0]?
  if !t.text.toList.all Char.isDigit then
    let i ← readCutLength opcode width t
    return (i, 1)
  else
    match Text.countBelow? (1 <<< (8 * width)) t.text.toList with
    | none => throw (t.fault (.invalidLength t.text))
    | some declared => do
      let payload ← requireOperand name .payload operands[1]?
      let l ← readLiteral payload
      let i ← pushOfLength name opcode declared l
      return (i, 2)

def readInstruction (edition : Edition) (name : Token) (operands : List Token) :
    Except Fault (Instruction × Nat) :=
  match Opcode.byteOfName? edition name.text with
  | none => .error (name.fault (.unknownOpcode name.text))
  | some opcode =>
    match Instruction.lengthWidth? opcode with
    | none => .ok (.operation opcode, 0)
    | some 0 =>
      if opcode = 0 then .ok (.push opcode [], 0)
      else do
        let t ← requireOperand name .payload operands[0]?
        let l ← readLiteral t
        let i ← pushOfLength name opcode opcode.toNat l
        return (i, 1)
    | some width => readLongPush name opcode width operands

/-- The token cannot be the name of an opcode: it is bytes or a note on missing ones. -/
def isOperandText (text : String) : Bool :=
  "0x".toList.isPrefixOf text.toList || "[".toList.isPrefixOf text.toList

def assembleTokens (edition : Edition) : List Token → Except Fault (List Instruction)
  | [] => .ok []
  | name :: rest =>
    if isOperandText name.text then .error (name.fault (.unexpectedToken name.text))
    else
      match readInstruction edition name rest with
      | .error fault => .error fault
      | .ok (i, count) =>
        match i.isTruncated, rest.drop count with
        | true, next :: _ => .error (next.fault .trailingToken)
        | _, _ => do
          let others ← assembleTokens edition (rest.drop count)
          return i :: others
termination_by tokens => tokens.length
decreasing_by simp only [List.length_cons, List.length_drop]; omega

def assemble (edition : Edition) (source : String) : Except Fault (List Instruction) := do
  let ts ← tokens source
  assembleTokens edition ts

def bytecode (edition : Edition) (source : String) : Except Fault Bytes :=
  (assemble edition source).map Instruction.serialize

end ScriptMachine.Listing
