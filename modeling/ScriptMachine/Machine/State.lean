import ScriptMachine.Instruction.MinimalPush
import ScriptMachine.Machine.Fault

/-!
# States of an evaluation

A state holds two stacks, the open branches and loops, the place in the program, and the meter.
Stacks and the list of open constructs have their top first.
-/

namespace ScriptMachine

inductive Marker
  | branch (taken : Bool)
  | alternative (taken : Bool)
  /-- A loop whose body starts at this instruction. -/
  | loop (start : Nat)
  deriving DecidableEq, Repr

/-- The code inside is evaluated, as far as this construct is concerned. -/
def Marker.isTaken : Marker → Bool
  | branch taken | alternative taken => taken
  | loop _ => true

inductive Status
  | idle | running | success | error
  deriving DecidableEq, Repr

structure State where
  program : List Instruction
  stack : List Bytes := []
  alt : List Bytes := []
  control : List Marker := []
  pointer : Nat := 0
  separator : Option Nat := none
  meter : Meter := {}
  /-- Opcodes evaluated so far that do more than push. -/
  operations : Nat := 0
  fault : Option Fault := none
  deriving DecidableEq, Repr

namespace State

def isExecuting (s : State) : Bool := s.control.all Marker.isTaken

def isEnclosingExecuting (s : State) : Bool := s.control.tail.all Marker.isTaken

def isHalted (s : State) : Bool := s.fault.isSome || decide (s.program.length ≤ s.pointer)

def status (s : State) : Status :=
  if s.fault.isSome then .error
  else if s.program.length ≤ s.pointer then .success
  else if s.meter.instructions = 0 then .idle
  else .running

def next? (s : State) : Option Instruction := s.program[s.pointer]?

/-- The bytes of the opcodes that take part in evaluation even in a branch that is not taken. In
editions without loops two of them fail there. -/
def conditionalBytes : List UInt8 :=
  [Opcode.flow .branch, .flow .branchNot, .flow .otherwise, .flow .endBranch, .loop .begin,
    .loop .until].map Opcode.byte

def closingBytes : List UInt8 :=
  [Opcode.flow .otherwise, .flow .endBranch, .loop .until].map Opcode.byte

def skipsNext (s : State) : Bool :=
  !s.isExecuting && s.next?.any fun i ↦ !conditionalBytes.contains i.opcode

/-- The next instruction takes effect. What closes a construct does so where the construct itself
was reached. -/
def executesNext (s : State) : Bool :=
  s.next?.any fun i ↦
    if closingBytes.contains i.opcode then s.isEnclosingExecuting else s.isExecuting

/-- The index after that of the code separator that was evaluated last. A separator that is not in
the program has a 64-bit index, and zero follows the largest of these. -/
def activeStart (s : State) : Nat :=
  match s.separator with
  | none => 0
  | some index =>
    if index < s.program.length then index + 1 else (index + 1) % UInt64.size

def activeBytecode (s : State) : Bytes := Instruction.serialize (s.program.drop s.activeStart)

def memoryUsage (s : State) : Nat :=
  total List.length s.stack + total List.length s.alt

def depth (s : State) : Nat := s.stack.length + s.alt.length

def top? (s : State) : Option Bytes := s.stack.head?

end State

end ScriptMachine
