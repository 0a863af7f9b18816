import ScriptMachine.File

/-!
# Paths

A path is split at its slashes. A dot stands for a directory itself and two dots for the one above;
slashes in a row count as one, and a slash at the end says that the path is that of a directory.
-/

namespace ScriptMachine.Command

def splitSlashes : List Char → List (List Char)
  | [] => [[]]
  | c :: rest =>
    match splitSlashes rest with
    | [] => [[c]]
    | part :: parts => if c = '/' then [] :: part :: parts else (c :: part) :: parts

structure Path where
  isAbsolute : Bool
  /-- The parts from the first to the last; none is empty. -/
  parts : List String
  isSlashed : Bool
  deriving DecidableEq, Repr

namespace Path

def maxLength : Nat := 4095

def maxNameLength : Nat := 255

def ofText (text : String) : Path where
  isAbsolute := text.toList.head? == some '/'
  parts := ((splitSlashes text.toList).filter (· ≠ [])).map String.ofList
  isSlashed := text.toList.getLast? == some '/'

/-- Reads a path, which must be neither empty nor too long. -/
def read (text : String) : Except FileFault Path :=
  if text.isEmpty then .error .notFound
  else if maxLength < text.utf8ByteSize then .error .nameTooLong
  else .ok (ofText text)

end Path

def dropLastPart (reversed : List Char) : List Char := reversed.dropWhile (· ≠ '/')

/-- Drops what adds nothing at the end of a path, given in reverse: slashes, and dots after a
slash. -/
def dropIdle : List Char → List Char
  | '/' :: c :: rest => dropIdle (c :: rest)
  | '.' :: '/' :: rest => dropIdle ('/' :: rest)
  | path => path
termination_by path => path.length

/-- The directory that a path lies in. It is empty for a bare name, and nothing lies above the
root. -/
def parent? (path : String) : Option String :=
  match dropIdle path.toList.reverse with
  | [] => none
  | ['/'] => none
  | reversed => some (String.ofList (dropIdle (dropLastPart reversed)).reverse)

end ScriptMachine.Command
