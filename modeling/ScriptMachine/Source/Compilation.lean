import ScriptMachine.Hex
import ScriptMachine.Machine.Run
import ScriptMachine.Source.Lexeme
import ScriptMachine.Source.Tree

/-!
# Compilation

Source text stands for bytecode: an opcode name for its byte, a literal for its bytes, `<…>` for
the push of what it holds, and `$(…)` for the item that evaluating what it holds leaves on top of
the stack.
-/

namespace ScriptMachine.Source

inductive Mistake
  | unknownIdentifier (name : String)
  | invalidHex (token : String)
  | invalidNumber (token : String)
  | unexpectedToken (token : String)
  | unterminatedString
  | unterminatedPush
  | unterminatedEvaluation
  | failedEvaluation (fault : ScriptMachine.Fault)
  | emptyEvaluation
  deriving DecidableEq, Repr

structure Fault where
  range : Range
  mistake : Mistake
  deriving DecidableEq, Repr

def Fault.message (f : Fault) : String :=
  let place := f.range.text
  match f.mistake with
  | .unknownIdentifier name => "unknown identifier `" ++ name ++ s!"` at {place}"
  | .invalidHex token => "invalid hex literal `" ++ token ++ s!"` at {place}"
  | .invalidNumber token => "invalid number `" ++ token ++ s!"` at {place}"
  | .unexpectedToken token => "unexpected `" ++ token ++ s!"` at {place}"
  | .unterminatedString => s!"unterminated string starting at {place}"
  | .unterminatedPush => s!"unterminated push starting at {place}"
  | .unterminatedEvaluation => s!"unterminated evaluation starting at {place}"
  | .failedEvaluation fault => s!"evaluation at {place} failed: {fault.message}"
  | .emptyEvaluation => s!"evaluation at {place} left an empty stack"

def quotedBytes (text : List Char) : Bytes := text.flatMap String.utf8EncodeChar

/-- The word is meant to be a number. -/
def looksNumeric (word : List Char) : Bool :=
  (word.dropWhile (· = '-')).head?.any Char.isDigit

def wordBytes (edition : Edition) (word : List Char) : Except Mistake Bytes :=
  let name := String.ofList word
  match "0x".toList.isPrefixOf? word with
  | some digits =>
    match Hex.decode? digits with
    | some bytes => .ok bytes
    | none => .error (.invalidHex name)
  | none =>
    if looksNumeric word then
      match Text.integer? word with
      | some v => .ok (ScriptNumber.encode v)
      | none => .error (.invalidNumber name)
    else
      match Opcode.byteOfName? edition name with
      | some byte => .ok [byte]
      | none => .error (.unknownIdentifier name)

inductive Bracket
  | push
  | evaluation
  deriving DecidableEq, Repr

def Bracket.unterminated : Bracket → Mistake
  | push => .unterminatedPush
  | evaluation => .unterminatedEvaluation

def Bracket.closer : Bracket → String
  | push => ">"
  | evaluation => ")"

/-- An open construct: what opened it, and the nodes before it, the last first. -/
structure Frame where
  bracket : Bracket
  opener : Range
  outer : List Nat
  deriving DecidableEq, Repr

/-- A compilation under way: the nodes so far, those of the innermost open construct, the last
first, and the open constructs, the innermost first. -/
structure Progress where
  tree : Tree := {}
  script : List Nat := []
  frames : List Frame := []
  deriving DecidableEq, Repr

namespace Progress

def add (p : Progress) (n : Node) : Progress :=
  { p with tree := p.tree.add n, script := p.tree.size :: p.script }

def enter (p : Progress) (bracket : Bracket) (opener : Range) : Progress :=
  { p with script := [], frames := ⟨bracket, opener, p.script⟩ :: p.frames }

/-- The inside of a construct that `closer` closes. -/
def inside (p : Progress) (frame : Frame) (closer : Range) : Nested where
  bytecode := p.tree.bytecode p.script.reverse
  range := ⟨frame.opener.stop, closer.start⟩
  script := p.script.reverse

end Progress

def evaluationTrace (m : Machine) (bytecode : Bytes) : List State :=
  m.debug {} (m.start {} bytecode) .partway

def evaluationNode (m : Machine) (source : Nested) (range : Range) : Except Mistake Node :=
  let trace := evaluationTrace m source.bytecode
  match trace.getLast? with
  | none => .error .emptyEvaluation
  | some last =>
    match last.fault, last.top? with
    | some fault, _ => .error (.failedEvaluation fault)
    | none, none => .error .emptyEvaluation
    | none, some top =>
      .ok { bytecode := top, range := range, source := some source, trace := some trace }

def bracketNode (m : Machine) (bracket : Bracket) (inside : Nested) (range : Range) :
    Except Mistake Node :=
  match bracket with
  | .push =>
    .ok
      { bytecode := Instruction.encodePush inside.bytecode, range := range, push := some inside }
  | .evaluation => evaluationNode m inside range

/-- Adds the node that was made, or reports what is wrong with it. -/
def Progress.addMade (p : Progress) (range : Range) : Except Mistake Node → Except Fault Progress
  | .ok n => .ok (p.add n)
  | .error mistake => .error ⟨range, mistake⟩

def Progress.leave (m : Machine) (p : Progress) (bracket : Bracket) (closer : Range) :
    Except Fault Progress :=
  let unexpected : Except Fault Progress := .error ⟨closer, .unexpectedToken bracket.closer⟩
  match p.frames with
  | [] => unexpected
  | frame :: frames =>
    if frame.bracket = bracket then
      let range : Range := ⟨frame.opener.start, closer.stop⟩
      let outer : Progress := { p with script := frame.outer, frames := frames }
      outer.addMade range (bracketNode m bracket (p.inside frame closer) range)
    else unexpected

def Progress.feed (m : Machine) (p : Progress) (x : Lexeme) : Except Fault Progress :=
  match x.kind with
  | .word text =>
    p.addMade x.range
      ((wordBytes m.policy.edition text).map fun bytes ↦ { bytecode := bytes, range := x.range })
  | .quoted text => .ok (p.add { bytecode := quotedBytes text, range := x.range })
  | .openPush => .ok (p.enter .push x.range)
  | .openEvaluation => .ok (p.enter .evaluation x.range)
  | .closePush => p.leave m .push x.range
  | .closeEvaluation => p.leave m .evaluation x.range
  | .looseParenthesis => .error ⟨x.range, .unexpectedToken "("⟩
  | .looseDollar => .error ⟨x.range, .unexpectedToken "$"⟩
  | .openQuotation => .error ⟨x.range, .unterminatedString⟩

def Progress.feedAll (m : Machine) (p : Progress) (xs : List Lexeme) : Except Fault Progress :=
  xs.foldlM (Progress.feed m) p

structure Compilation where
  tree : Tree
  script : Nested
  deriving DecidableEq, Repr

def Progress.finish (p : Progress) (whole : Range) : Except Fault Compilation :=
  match p.frames with
  | frame :: _ => .error ⟨⟨frame.opener.start, whole.stop⟩, frame.bracket.unterminated⟩
  | [] =>
    .ok ⟨p.tree, ⟨p.tree.bytecode p.script.reverse, whole, p.script.reverse⟩⟩

/-- Compiles a text for the edition of a machine, which also makes the evaluations. -/
def compile (m : Machine) (source : String) : Except Fault Compilation := do
  let p ← Progress.feedAll m {} (lexemes source)
  p.finish (extent source)

end ScriptMachine.Source
