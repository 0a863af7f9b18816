import ScriptMachine.Hex
import ScriptMachine.Instruction.Basic

/-!
# Listings

Instructions as text. A push is followed by its bytes in hexadecimal, and by its length where the
opcode does not tell it. A push that was cut off says how many bytes are missing.
-/

namespace ScriptMachine.Listing

def literal (bytes : Bytes) : String := "0x" ++ Hex.encode bytes

def missingNote (count : Nat) : String :=
  s!"[missing {count} " ++ (if count = 1 then "byte]" else "bytes]")

/-- The bytes that are there, if any, and the note on those that are missing. -/
def cutLiteral (present : Bytes) (missing : Nat) : String :=
  (if present.isEmpty then "" else literal present) ++ missingNote missing

def operands : Instruction → List String
  | .operation _ => []
  | .push opcode data =>
    if opcode = 0 then []
    else if opcode ≤ Opcode.maxDirectPush then [literal data]
    else [toString data.length, literal data]
  | .truncated opcode cut =>
    match cut.lengthBytes with
    | some present => [cutLiteral present (cut.width.getD present.length - present.length)]
    | none =>
      let payload := cutLiteral cut.data (cut.length - cut.data.length)
      if opcode ≤ Opcode.maxDirectPush then [payload] else [toString cut.length, payload]

def instruction (edition : Edition) (i : Instruction) : String :=
  " ".intercalate (Opcode.nameOfByte edition i.opcode :: operands i)

def text (edition : Edition) (instructions : List Instruction) : String :=
  " ".intercalate (instructions.map (instruction edition))

end ScriptMachine.Listing
