import ScriptMachine.Source.Range
import ScriptMachine.Text.Align
import ScriptMachine.Text.Blank
import ScriptMachine.Text.Lines

/-!
# Faults of listings

What can be wrong with a listing, where, and how it is shown to its author.
-/

namespace ScriptMachine.Listing

inductive Operand
  | payload
  | length
  deriving DecidableEq, Repr

def Operand.description : Operand → String
  | payload => "a hex payload"
  | length => "a length or truncated length prefix"

inductive Mistake
  | unknownOpcode (name : String)
  | invalidHex (token : String)
  | invalidLength (token : String)
  | missingOperand (opcode : String) (operand : Operand)
  | lengthMismatch (opcode : String) (declared provided : Nat)
  | invalidMissingNote (token : String)
  | unexpectedToken (token : String)
  | trailingToken
  deriving DecidableEq, Repr

def Mistake.message : Mistake → String
  | unknownOpcode name => "unknown opcode `" ++ name ++ "`"
  | invalidHex token => "invalid hex literal `" ++ token ++ "`"
  | invalidLength token => "invalid push length `" ++ token ++ "`"
  | missingOperand opcode operand => s!"{opcode} expects {operand.description}"
  | lengthMismatch opcode declared provided =>
    s!"{opcode} declares {declared} bytes but {provided} were provided"
  | invalidMissingNote token => "invalid missing-bytes marker `" ++ token ++ "`"
  | unexpectedToken token => "unexpected `" ++ token ++ "`"
  | trailingToken => "malformed instruction must be the last instruction"

/-- A mistake and the token that shows it. Columns of a listing count bytes. -/
structure Fault where
  position : Source.Position
  mistake : Mistake
  deriving DecidableEq, Repr

def Fault.message (f : Fault) : String := f.mistake.message

/-- A message that shows the line it is about, with a caret under the column. The line is left out
where the text has no such line. -/
def diagnostic (file source : String) (position : Source.Position) (message : String) : String :=
  let head := s!"error: {message}\n --> {file}:{position.text}\n"
  match (Text.lines source.toList)[position.line - 1]? with
  | none => head
  | some line =>
    let shown := String.ofList (Text.trimEnd (· = '\r') line)
    let indent := String.ofList (List.replicate (position.column - 1) ' ')
    head ++ "  |\n" ++ Text.padLeft 4 (toString position.line) ++ s!" | {shown}\n  | {indent}^\n"

def Fault.diagnostic (file source : String) (f : Fault) : String :=
  Listing.diagnostic file source f.position f.message

end ScriptMachine.Listing
