import ScriptMachine.File
import ScriptMachine.Listing.Assembly

/-!
# Listings in files

Assembly of a file, where reading may fail before there is any listing.
-/

namespace ScriptMachine.Listing

inductive FileError
  | unreadable (path : String) (fault : FileFault)
  | faulty (fault : Fault)
  deriving DecidableEq, Repr

namespace FileError

def message : FileError → String
  | unreadable path fault => s!"io error reading {path}: {fault.message}"
  | faulty fault => fault.message

def position? : FileError → Option Source.Position
  | unreadable _ _ => none
  | faulty fault => some fault.position

/-- An error shown in its listing, or by itself if there is none. -/
def diagnostic (file source : String) (e : FileError) : String :=
  match e with
  | unreadable _ _ => s!"error: {e.message}"
  | faulty fault => fault.diagnostic file source

end FileError

def bytecodeOfFile (edition : Edition) (path : String) (content : Except FileFault Bytes) :
    Except FileError Bytes :=
  match content.bind FileFault.text with
  | .error fault => .error (.unreadable path fault)
  | .ok source =>
    match bytecode edition source with
    | .ok bytes => .ok bytes
    | .error fault => .error (.faulty fault)

end ScriptMachine.Listing
