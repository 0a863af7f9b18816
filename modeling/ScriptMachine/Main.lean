import ScriptMachine.Command.Assembler
import ScriptMachine.Command.Debugger

/-!
# Command line

`debug` runs the debugger and `assemble` the assembler on files of the system.
-/

namespace ScriptMachine.Command

/-- The fault that a system error stands for. A file of the wrong kind is a directory if the system
gives the number 21, and a path is refused as an argument only for its length. -/
def faultOfError : IO.Error → FileFault
  | .inappropriateType _ number _ => if number = 21 then .isDirectory else .notDirectory
  | .invalidArgument .. => .nameTooLong
  | _ => .notFound

def readContent (path : String) : IO (Except FileFault Bytes) := do
  try
    let content ← IO.FS.readBinFile path
    return .ok content.toList
  catch e => return .error (faultOfError e)

def writeContent (path content : String) : IO (Option FileFault) := do
  try
    IO.FS.writeFile path content
    return none
  catch e => return some (faultOfError e)

def isPresent (path : String) : IO Bool := do
  try
    let _ ← IO.FS.realPath path
    return true
  catch _ => return false

def present (outcome : Outcome) : IO UInt32 := do
  IO.print outcome.stdout
  IO.eprint outcome.stderr
  return outcome.exitCode.toUInt32

def debugFiles (program : String) (args : List String) : IO UInt32 :=
  match Debugger.readArguments program args with
  | .error outcome => present outcome
  | .ok o => do
    let content ← readContent o.script
    present (Debugger.reportFile o content)

def assembleFiles (program : String) (args : List String) : IO UInt32 :=
  match Assembler.readArguments program args with
  | .error outcome => present outcome
  | .ok o => do
    let content ← readContent o.input
    let hasDirectory ← match o.directory? with
      | some directory => isPresent directory
      | none => pure true
    match Assembler.convert o content hasDirectory with
    | .error outcome => present outcome
    | .ok product =>
      match o.output with
      | none => present (Assembler.printed product)
      | some path => do
        let fault ← writeContent path (product.text ++ "\n")
        present (Assembler.written o product path fault)

end ScriptMachine.Command

def main : List String → IO UInt32
  | "debug" :: args => ScriptMachine.Command.debugFiles "script-machine debug" args
  | "assemble" :: args => ScriptMachine.Command.assembleFiles "script-machine assemble" args
  | _ => do
    IO.eprintln "usage: script-machine (debug | assemble) <file> [OPTIONS]"
    return 1
