import ScriptMachine.Command.Folder
import ScriptMachine.Command.Outcome
import ScriptMachine.Listing.Assembly
import ScriptMachine.Listing.Basic

/-!
# The assembler

Turns a listing into hexadecimal bytecode, or such bytecode into a listing, and prints the result or
writes it to a file.
-/

namespace ScriptMachine.Command.Assembler

structure Options where
  input : String
  output : Option String := none
  disassemble : Bool := false
  edition : Edition := .y2025
  deriving DecidableEq, Repr

def usage (program : String) : String :=
  unlines
    [ "Script Assembler",
      "",
      "USAGE:",
      s!"    {program} <input> [OPTIONS]",
      "",
      "ARGS:",
      "    <input>    Mnemonic source file (hex file with --disassemble)",
      "",
      "OPTIONS:",
      "    -o, --output <file>    Output file path (defaults to standard output)",
      "    -d, --disassemble      Read hex bytecode and print mnemonics",
      "    --vm <version>         Instruction set: 2023, 2025 or 2026 (default 2025)",
      "    -h, --help             Print this help message",
      "",
      "EXAMPLES:",
      "    # Assemble to standard output",
      s!"    {program} script.asm",
      "",
      "    # Assemble to a file",
      s!"    {program} script.asm -o script.hex",
      "",
      "    # Disassemble with loop opcodes enabled",
      s!"    {program} script.hex --disassemble --vm 2026" ]

def readOptions (program : String) (o : Options) : List String → Except Outcome Options
  | [] => .ok o
  | [option] =>
    if option = "--output" ∨ option = "-o" ∨ option = "--vm" then .error (missingArgument option)
    else if option = "--disassemble" ∨ option = "-d" then .ok { o with disassemble := true }
    else .error (unexpectedArgument (usage program) .info option)
  | option :: argument :: rest =>
    if option = "--vm" then
      match Edition.ofLabel? argument with
      | some edition => readOptions program { o with edition := edition } rest
      | none => .error (unknownEdition argument)
    else if option = "--output" ∨ option = "-o" then
      readOptions program { o with output := some argument } rest
    else if option = "--disassemble" ∨ option = "-d" then
      readOptions program { o with disassemble := true } (argument :: rest)
    else .error (unexpectedArgument (usage program) .info option)

def readArguments (program : String) (args : List String) : Except Outcome Options :=
  match explain? (usage program) args, args with
  | some outcome, _ => .error outcome
  | none, input :: rest => readOptions program { input := input } rest
  | none, [] => .error {}

def dropHexMarks : List Char → List Char
  | '0' :: 'x' :: rest => dropHexMarks rest
  | text => text

structure Product where
  text : String
  summary : String
  deriving DecidableEq, Repr

/-- The listing of hexadecimal bytecode, in which white space does not count. -/
def disassemble (o : Options) (source : String) : Except Outcome Product :=
  match Hex.decode (String.ofList (dropHexMarks (Text.dropBlanks source.toList))) with
  | .error fault => .error (.failure s!"Invalid hex in {o.input}: {fault.message}")
  | .ok bytecode =>
    .ok
      { text := Listing.text o.edition (Instruction.parse bytecode)
        summary := s!"Disassembled {bytecode.length} bytes" }

def assemble (o : Options) (source : String) : Except Outcome Product :=
  match Listing.bytecode o.edition source with
  | .error fault => .error { exitCode := 1, stderr := fault.diagnostic o.input source }
  | .ok bytecode =>
    .ok { text := Hex.encode bytecode, summary := s!"Assembled {bytecode.length} bytes" }

/-- The directory that the output is to be written to, unless it is the working directory. -/
def Options.directory? (o : Options) : Option String :=
  (o.output.bind parent?).filter (· ≠ "")

/-- Converts an input file with this content. `hasDirectory` says that the directory of the output,
if it needs one, is there. -/
def convert (o : Options) (content : Except FileFault Bytes) (hasDirectory : Bool) :
    Except Outcome Product :=
  match content.bind FileFault.text, o.directory? with
  | .error fault, _ => .error (.failure s!"Failed to read {o.input}: {fault.message}")
  | .ok source, directory? =>
    match directory?.filter fun _ ↦ !hasDirectory with
    | some directory => .error (.failure s!"Output directory does not exist: {directory}")
    | none => if o.disassemble then disassemble o source else assemble o source

def printed (product : Product) : Outcome := { stdout := product.text ++ "\n" }

def written (o : Options) (product : Product) (path : String) : Option FileFault → Outcome
  | some fault => .failure s!"Failed to write output file: {fault.message}"
  | none => { stderr := Level.info.line .info s!"{product.summary} from {o.input} -> {path}" }

def run (program : String) (args : List String) (folder : Folder) : Outcome × Folder :=
  match readArguments program args with
  | .error outcome => (outcome, folder)
  | .ok o =>
    match convert o (folder.read o.input) (o.directory?.all folder.doesExist) with
    | .error outcome => (outcome, folder)
    | .ok product =>
      match o.output with
      | none => (printed product, folder)
      | some path =>
        match folder.write path (product.text ++ "\n").toUTF8.toList with
        | .error fault => (written o product path (some fault), folder)
        | .ok after => (written o product path none, after)

end ScriptMachine.Command.Assembler
