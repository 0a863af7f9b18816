import ScriptMachine.Command.Folder
import ScriptMachine.Command.Outcome
import ScriptMachine.Listing.Fault
import ScriptMachine.Machine.Summary
import ScriptMachine.Source.Compilation
import ScriptMachine.Source.Coverage
import ScriptMachine.Source.Extraction
import ScriptMachine.Text.Percentage

/-!
# The debugger

Compiles a source file, evaluates it without a transaction, and reports the samples, the parts of
the source that were not executed, and the cost.
-/

namespace ScriptMachine.Command.Debugger

structure Options where
  script : String
  edition : Edition := .y2025
  nonstandard : Bool := false
  trace : Bool := false
  least : Level := .info
  deriving DecidableEq, Repr

def usage (program : String) : String :=
  unlines
    [ "Script Debugger",
      "",
      "USAGE:",
      s!"    {program} <script> [OPTIONS]",
      "",
      "ARGS:",
      "    <script>    Script source file to evaluate",
      "",
      "OPTIONS:",
      "    --vm <version>    Instruction set: 2023, 2025 or 2026 (default 2025)",
      "    --nonstandard     Evaluate under consensus rules only",
      "    --trace           Print every evaluation step",
      "    --quiet           Only log warnings and errors",
      "    -h, --help        Print this help message",
      "",
      "SOURCE SYNTAX:",
      "    OP_ADD OP_1           opcodes",
      "    0xabcd 42 \"text\"      raw bytes",
      "    <1> <0xabcd>          minimal pushes",
      "    $(<1> <2> OP_ADD)     compile-time evaluation, replaced by its top item",
      "    // comment",
      "",
      "EXAMPLES:",
      s!"    {program} script.bch --trace",
      s!"    {program} loop.bch --vm 2026" ]

def readOptions (program : String) (o : Options) : List String → Except Outcome Options
  | [] => .ok o
  | ["--vm"] => .error (missingArgument "--vm")
  | "--vm" :: label :: rest =>
    match Edition.ofLabel? label with
    | some edition => readOptions program { o with edition := edition } rest
    | none => .error (unknownEdition label)
  | "--nonstandard" :: rest => readOptions program { o with nonstandard := true } rest
  | "--trace" :: rest => readOptions program { o with trace := true } rest
  | "--quiet" :: rest => readOptions program { o with least := .warn } rest
  | other :: _ => .error (unexpectedArgument (usage program) o.least other)

def readArguments (program : String) (args : List String) : Except Outcome Options :=
  match explain? (usage program) args, args with
  | some outcome, _ => .error outcome
  | none, script :: rest => readOptions program { script := script } rest
  | none, [] => .error {}

def Options.machine (o : Options) : Machine where
  policy := if o.nonstandard then (Policy.ofEdition o.edition).nonstandard else .ofEdition o.edition

def rangesText (label : String) (ranges : List Source.Range) : String :=
  unlines
    (s!"{label}:" ::
      ((if ranges.isEmpty then ["  (none)"] else ranges.map fun r ↦ s!"  {r.text}") ++ [""]))

def labelWidth : Nat := 2 + ((Work.all.map (·.label.length)).foldl max "total".length)

def costRow (amountWidth : Nat) (label : String) (amount : Nat) (percent : String) : String :=
  Text.padRight labelWidth label ++ " " ++ Text.padLeft amountWidth (Text.withCommas amount) ++
    " (" ++ Text.padLeft 5 percent ++ "%)"

def costTable (profile : Profile) : List String :=
  let total := profile.total
  let amountWidth := (Text.withCommas total).length
  let rule := String.ofList (List.replicate (labelWidth + 1 + amountWidth + 2 + 9) '-')
  let done := Work.all.filter fun work ↦ profile.get work ≠ 0
  let rows := done.map fun work ↦
    costRow amountWidth work.label (profile.get work) (Text.percentage (profile.get work) total)
  "Operation Cost:" :: rule :: (rows ++ [rule, costRow amountWidth "total" total "100.0", ""])

def limitText (limit : Nat) : String :=
  if limit = Amount.top then "unlimited" else Text.withCommas limit

def countersLine (meter : Meter) : String :=
  s!"instructions {meter.instructions}, " ++
    s!"hash iterations {meter.hashIterations}/{limitText meter.budget.hashIterations}, " ++
    s!"signature checks {meter.signatureChecks}/{limitText meter.budget.signatureChecks}, " ++
    s!"max memory {meter.peakMemory} bytes"

def sampleLine (edition : Edition) (s : Source.Sample) : String :=
  let shown := s.instruction.elim "(initial)" (Listing.instruction edition)
  let skip := if s.executed then "" else " (skip)"
  "  " ++ Text.padRight 16 s.range.text ++ s!" {shown}{skip} => {s.state.text}"

/-- The outcome for a source that cannot be compiled: everything but the place of the fault counts
as not executed. -/
def rejection (o : Options) (source : String) (fault : Source.Fault) : Outcome :=
  let place := fault.range.start
  let whole := Source.measuredExtent source
  { exitCode := 1
    stdout := rangesText "Unexecuted" (Source.unexecuted whole [] (some place))
    stderr := Listing.diagnostic o.script source place fault.message }

def traceText (o : Options) (trace : List State) : String :=
  if o.trace then
    unlines
      ("Trace:" ::
        ((State.summarize (Listing.instruction o.edition) trace).map ("  " ++ ·) ++ [""]))
  else ""

def samplesText (o : Options) (e : Source.Extraction) : String :=
  unlines ("Samples:" :: (e.flatten.map (sampleLine o.edition) ++ [""]))

def evaluationReport (o : Options) (compiled : Source.Compilation) (trace : List State) : Outcome :=
  let script := compiled.script
  let extraction := Source.extract compiled.tree script.range script.script trace
  let unexecuted :=
    Source.unexecuted script.range (extraction.samples.map Source.Sample.brief) none
  let unmatched := extraction.allUnmatched.length
  let last : State := trace.getLast?.getD { program := [] }
  let mode := if o.nonstandard then ", nonstandard" else ""
  let compiledLine := Level.info.line o.least
    s!"Compiled {o.script} ({script.bytecode.length} bytes) for {o.edition.name}{mode}"
  let unmatchedLine :=
    if unmatched = 0 then ""
    else Level.warn.line o.least s!"{unmatched} state(s) could not be matched to the source"
  let verdictLine :=
    match last.fault with
    | some fault => Level.error.line o.least s!"Evaluation failed: {fault.message}"
    | none => Level.info.line o.least "Evaluation succeeded"
  { exitCode := if last.fault.isSome then 1 else 0
    stdout :=
      traceText o trace ++ samplesText o extraction ++ rangesText "Unexecuted" unexecuted ++
        unlines (costTable last.meter.profile ++ [countersLine last.meter])
    stderr := compiledLine ++ unmatchedLine ++ verdictLine }

def report (o : Options) (source : String) : Outcome :=
  match Source.compile o.machine source with
  | .error fault => rejection o source fault
  | .ok compiled =>
    let m := o.machine
    evaluationReport o compiled (m.debug {} (m.start {} compiled.script.bytecode) .final)

def reportFile (o : Options) (content : Except FileFault Bytes) : Outcome :=
  match content.bind FileFault.text with
  | .ok source => report o source
  | .error fault => .failure s!"Failed to read {o.script}: {fault.message}"

def run (program : String) (args : List String) (folder : Folder) : Outcome :=
  match readArguments program args with
  | .error outcome => outcome
  | .ok o => reportFile o (folder.read o.script)

end ScriptMachine.Command.Debugger
