import ScriptMachine.Command.Log

/-!
# Outcomes of commands

What a command prints on its two streams, and the code that it exits with.
-/

namespace ScriptMachine.Command

structure Outcome where
  exitCode : UInt8 := 0
  stdout : String := ""
  stderr : String := ""
  deriving DecidableEq, Repr

def Outcome.failure (message : String) : Outcome where
  exitCode := 1
  stderr := Level.error.line .info message

def unlines (lines : List String) : String := String.join (lines.map (· ++ "\n"))

/-- The outcome of a command that is called without arguments, or to be explained. -/
def explain? (usage : String) (args : List String) : Option Outcome :=
  let shown := Level.info.line .info usage
  match args with
  | [] => some { exitCode := 1, stderr := shown }
  | first :: _ => if first = "--help" ∨ first = "-h" then some { stderr := shown } else none

def unexpectedArgument (usage : String) (least : Level) (argument : String) : Outcome where
  exitCode := 1
  stderr :=
    Level.error.line least s!"Unexpected argument: {argument}\n" ++ Level.info.line least usage

def missingArgument (option : String) : Outcome := .failure s!"{option} requires an argument"

def unknownEdition (label : String) : Outcome := .failure s!"Unknown instruction set: '{label}'"

end ScriptMachine.Command
