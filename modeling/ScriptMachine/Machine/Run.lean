import ScriptMachine.Machine.Step

/-!
# Evaluations

An evaluation steps until the state is halted. Its trace has every state on the way, and ends with
one more copy of the last state, which carries the verdict.
-/

namespace ScriptMachine

inductive Completion
  /-- The stack holds exactly one item, and that is true. -/
  | final
  /-- Only branches and loops are closed. -/
  | partway
  deriving DecidableEq, Repr

def State.verdict (s : State) (completion : Completion) : Option Fault :=
  match s.fault with
  | some fault => some fault
  | none =>
    if s.control ≠ [] then some (.unbalancedControl s.control.length)
    else
      match completion, s.stack with
      | .partway, _ => none
      | .final, [top] => if ScriptNumber.isTruthy top then none else some .unsuccessful
      | .final, stack => some (.requiresCleanStack stack.length)

def State.complete (s : State) (completion : Completion) : State :=
  { s with fault := s.verdict completion }

namespace Machine

variable (m : Machine) (ctx : Context)

/-- The state before bytecode is evaluated on a stack, with a meter that may have run before. -/
def load (bytecode : Bytes) (stack : List Bytes) (meter : Meter) : State where
  program := Instruction.parse bytecode
  stack := stack
  meter := meter
  fault :=
    if m.policy.limits.bytecodeLength < bytecode.length then
      some (.bytecodeTooLong m.policy.limits.bytecodeLength)
    else none

def freshMeter (length : Nat) : Meter := .start m.policy (ctx.density length)

def start (bytecode : Bytes) : State := m.load bytecode [] (m.freshMeter ctx bytecode.length)

def runFor : (limit : Nat) → State → State
  | 0, s => s
  | limit + 1, s => if s.isHalted then s else runFor limit (m.step ctx s)

def traceFor : (limit : Nat) → State → List State
  | 0, s => [s]
  | limit + 1, s => if s.isHalted then [s] else s :: traceFor limit (m.step ctx s)

/-- The number of steps that the instruction counter, a 64-bit word, can count. -/
def stepLimit : Nat := UInt64.size

/-- The number of steps that an evaluation may take: one for each instruction, and as many more for
loops as can be counted. A halted state takes none. -/
def stepBound (s : State) : Nat := if s.isHalted then 0 else s.program.length + stepLimit

def evaluate (s : State) : State := m.runFor ctx (stepBound s) s

def trace (s : State) : List State := m.traceFor ctx (stepBound s) s

/-- The trace, and the last state again with its verdict. -/
def debug (s : State) (completion : Completion) : List State :=
  let states := m.trace ctx s
  states ++ (states.getLast?.map (·.complete completion)).toList

def verdict (bytecode : Bytes) : Option Fault :=
  (m.evaluate ctx (m.start ctx bytecode)).verdict .final

end Machine

end ScriptMachine
