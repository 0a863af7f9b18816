import ScriptMachine.Source.Tree

/-!
# Samples

A sample ties a piece of source text to the state that its instructions led to. Instructions and
nodes are matched by the bytes they occupy. Instructions of one node that follow each other share a
sample.
-/

namespace ScriptMachine.Source

/-- A piece of source text and the state that its instructions led to. -/
structure Sample where
  evaluationRange : Range
  range : Range
  state : State
  instruction : Option Instruction := none
  /-- Earlier instructions of the sample, with the states that they led to. -/
  internal : List (Instruction × State) := []
  executed : Bool := true
  deriving DecidableEq, Repr

def Sample.extend (s : Sample) (i : Instruction) (state : State) (range : Range)
    (executed : Bool) : Sample :=
  { s with
    range := s.range.merge range
    state := state
    instruction := some i
    internal := s.internal ++ (s.instruction.map fun prior ↦ (prior, s.state)).toList
    executed := s.executed || executed }

structure Span where
  start : Nat
  stop : Nat
  range : Range
  deriving DecidableEq, Repr

/-- The spans of nodes whose bytes start at `offset`. Nodes without bytes have none. -/
def spansFrom (offset : Nat) : List Node → List Span
  | [] => []
  | n :: rest =>
    let stop := offset + n.bytecode.length
    let others := spansFrom stop rest
    if offset < stop then ⟨offset, stop, n.range⟩ :: others else others

structure Location where
  range : Range
  /-- The instruction starts after the first byte of its node. -/
  continuesNode : Bool
  deriving DecidableEq, Repr

structure NodeMap where
  spans : List Span
  program : List Instruction
  /-- The bytes of the program that the nodes account for. -/
  matched : Nat
  deriving DecidableEq, Repr

/-- The text of a program, which has to start with the bytes of the nodes. -/
def NodeMap.ofNodes (t : Tree) (script : List Nat) (program : List Instruction) : NodeMap where
  spans := spansFrom 0 (script.filterMap t.get?)
  program := program
  matched :=
    if (t.bytecode script).isPrefixOf (Instruction.serialize program) then
      (t.bytecode script).length
    else 0

def NodeMap.offset (map : NodeMap) (index : Nat) : Nat :=
  total Instruction.encodedLength (map.program.take index)

def NodeMap.owners (map : NodeMap) (start stop : Nat) : List Span :=
  map.spans.filter fun span ↦ decide (span.start < stop ∧ start < span.stop)

def NodeMap.locate? (map : NodeMap) (index : Nat) : Option Location :=
  let start := map.offset index
  let stop := map.offset (index + 1)
  if map.program.length ≤ index ∨ map.matched < stop then none
  else
    match map.owners start stop with
    | [] => none
    | first :: others =>
      some
        { range := (others.map Span.range).foldl Range.merge first.range
          continuesNode := decide (first.start < start) }

/-- Samples the states after `before`. `current` is the sample that may go on, and `previous` the
index of the instruction before. Returns the samples from `current` on, and the states left over
once an instruction belongs to no node. A failing instruction at the start of a node has no sample.
-/
def collect (map : NodeMap) (evaluationRange : Range) (current : Sample) (previous : Option Nat)
    (before : State) : List State → List Sample × List State
  | [] => ([current], [])
  | after :: rest =>
    match before.next?, map.locate? before.pointer with
    | some i, some place =>
      let failed := after.fault.isSome
      let executed := failed || before.executesNext
      if place.continuesNode && previous.any (· + 1 == before.pointer) then
        let extended := current.extend i after place.range executed
        if failed then ([extended], [])
        else collect map evaluationRange extended (some before.pointer) after rest
      else if failed then ([current], [])
      else
        let fresh : Sample :=
          { evaluationRange := evaluationRange, range := place.range, state := after,
            instruction := some i, executed := executed }
        let (samples, unmatched) :=
          collect map evaluationRange fresh (some before.pointer) after rest
        (current :: samples, unmatched)
    | _, _ => ([current], after :: rest)

def evaluatedStates : List State → List State
  | [] => []
  | [s] => [s]
  | trace => trace.dropLast

/-- The samples of a trace, and its states that belong to no node. The first sample stands at the
start of the text, before any instruction. -/
def samples (t : Tree) (evaluationRange : Range) (script : List Nat) (trace : List State) :
    List Sample × List State :=
  match evaluatedStates trace with
  | [] => ([], [])
  | first :: rest =>
    let initial : Sample :=
      { evaluationRange := evaluationRange, range := .point evaluationRange.start, state := first }
    collect (.ofNodes t script first.program) evaluationRange initial none first rest

end ScriptMachine.Source
