import ScriptMachine.Command.Path

/-!
# Folders

The files that a command can reach, by their places. Paths are resolved part by part, and every part
but the last has to lead to a directory. Besides the directories that hold its files, a folder knows
those above the working directory and those that every system has.
-/

namespace ScriptMachine.Command

/-- A directory that is there without a file in it. -/
inductive Base
  | root
  /-- The directory so many levels above the working directory. -/
  | above (levels : Nat)
  deriving DecidableEq, Repr

/-- A place below a base. The names are those on the way, the last one first. -/
structure Location where
  base : Base
  names : List String := []
  deriving DecidableEq, Repr

namespace Location

def working : Location := ⟨.above 0, []⟩

def child (place : Location) (name : String) : Location := ⟨place.base, name :: place.names⟩

/-- The directory above. The root is above itself. -/
def parent : Location → Location
  | ⟨base, _ :: names⟩ => ⟨base, names⟩
  | ⟨.root, []⟩ => ⟨.root, []⟩
  | ⟨.above levels, []⟩ => ⟨.above (levels + 1), []⟩

def enter (place : Location) (part : String) : Location :=
  if part = "." then place else if part = ".." then place.parent else place.child part

def isBelow (place directory : Location) : Bool :=
  place.base == directory.base && directory.names.isSuffixOf place.names && place != directory

end Location

def Path.start (path : Path) : Location := if path.isAbsolute then ⟨.root, []⟩ else .working

def systemDirectories : List String :=
  ["bin", "boot", "dev", "etc", "lib", "media", "mnt", "opt", "run", "sbin", "srv", "tmp", "usr",
    "var"]

/-- The device that is empty and drops what is written to it. -/
def nullDevice : Location := ⟨.root, ["null", "dev"]⟩

inductive Entry
  | file (place : Location) (content : Bytes)
  | directory (place : Location)
  | vacant (place : Location)
  | unreachable (fault : FileFault)
  deriving DecidableEq, Repr

/-- Why nothing can be written at an entry that is taken for a directory, or gone through. -/
def Entry.obstacle : Entry → FileFault
  | file _ _ => .notDirectory
  | directory _ => .isDirectory
  | vacant _ => .notFound
  | unreachable fault => fault

structure Folder where
  files : List (Location × Bytes)
  deriving DecidableEq, Repr

namespace Folder

def ofFiles (files : List (String × Bytes)) : Folder :=
  ⟨files.map fun (text, content) ↦
    let path := Path.ofText text
    (path.parts.foldl Location.enter path.start, content)⟩

def content? (folder : Folder) (place : Location) : Option Bytes :=
  if place = nullDevice then some []
  else (folder.files.find? fun (other, _) ↦ other == place).map (·.2)

def hasDirectory (folder : Folder) (place : Location) : Bool :=
  place.names.isEmpty ||
    (place.base == .root && systemDirectories.any fun name ↦ place.names == [name]) ||
    folder.files.any fun (other, _) ↦ other.isBelow place

def lookUp (folder : Folder) (directory : Location) (part : String) : Entry :=
  let place := directory.enter part
  if part = "." ∨ part = ".." then .directory place
  else if Path.maxNameLength < part.utf8ByteSize then .unreachable .nameTooLong
  else
    match folder.content? place with
    | some content => .file place content
    | none => if folder.hasDirectory place then .directory place else .vacant place

def follow (folder : Folder) (directory : Location) : List String → Entry
  | [] => .directory directory
  | part :: rest =>
    let entry := folder.lookUp directory part
    if rest.isEmpty then entry
    else
      match entry with
      | .directory next => follow folder next rest
      | other => .unreachable other.obstacle

def entry (folder : Folder) (path : Path) : Entry :=
  match folder.follow path.start path.parts with
  | .file place content =>
    if path.isSlashed then .unreachable .notDirectory else .file place content
  | other => other

def doesExist (folder : Folder) (text : String) : Bool :=
  match (Path.read text).map folder.entry with
  | .ok (.file _ _) | .ok (.directory _) => true
  | _ => false

def read (folder : Folder) (text : String) : Except FileFault Bytes :=
  match (Path.read text).map folder.entry with
  | .ok (.file _ content) => .ok content
  | .ok other => .error other.obstacle
  | .error fault => .error fault

def put (folder : Folder) (place : Location) (content : Bytes) : Folder :=
  if place = nullDevice then folder
  else ⟨(place, content) :: folder.files.filter fun (other, _) ↦ other != place⟩

/-- Writes a file, which may be new, into a directory. A path that ends in a slash is never that of
a file, whatever its last part leads to. -/
def write (folder : Folder) (text : String) (content : Bytes) : Except FileFault Folder :=
  match Path.read text with
  | .error fault => .error fault
  | .ok path =>
    if path.isSlashed then .error (folder.follow path.start path.parts.dropLast).obstacle
    else
      match folder.entry path with
      | .file place _ | .vacant place => .ok (folder.put place content)
      | other => .error other.obstacle

end Folder

end ScriptMachine.Command
