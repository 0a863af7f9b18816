import ScriptMachine.Bytes

/-!
# Files

What can go wrong with a file, in the words of the operating system, and files as text.
-/

namespace ScriptMachine

inductive FileFault
  | notFound
  | notDirectory
  | isDirectory
  | nameTooLong
  | invalidText
  deriving DecidableEq, Repr

def FileFault.message : FileFault → String
  | notFound => "No such file or directory (os error 2)"
  | notDirectory => "Not a directory (os error 20)"
  | isDirectory => "Is a directory (os error 21)"
  | nameTooLong => "File name too long (os error 36)"
  | invalidText => "stream did not contain valid UTF-8"

def FileFault.text (bytes : Bytes) : Except FileFault String :=
  match String.fromUTF8? ⟨bytes.toArray⟩ with
  | some text => .ok text
  | none => .error .invalidText

end ScriptMachine
