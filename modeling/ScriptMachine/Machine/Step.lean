import ScriptMachine.Machine.FlowOps
import ScriptMachine.Machine.ItemOps
import ScriptMachine.Machine.NumberOps
import ScriptMachine.Machine.SignatureOps
import ScriptMachine.Machine.StackOps
import ScriptMachine.Machine.TransactionOps

/-!
# Steps

A step evaluates one instruction, charges for it, and then holds the state to every limit. A fault
does not escape: the state keeps it, and is then halted.
-/

namespace ScriptMachine

open ScriptMachine.Action

namespace Machine

variable (m : Machine) (ctx : Context)

def perform (index : Nat) (executing : Bool) : Opcode → Action Unit
  | .pushing _ => throw .malformedPush
  | .negativeOne => pushNumber m.policy (-1)
  | .small n => pushNumber m.policy (n.val + 1)
  | .reserved op => throw (.calledReserved (.reserved op))
  | .disabled op => throw (.disabledOpcode (.disabled op))
  | .nop => pure ()
  | .upgradable op =>
    if m.policy.standard then throw (.calledUpgradable (.upgradable op)) else pure ()
  | .flow op => op.perform executing
  | .loop op => op.perform m.policy index executing
  | .stack op => op.perform m.policy
  | .splice op => op.perform m.policy
  | .bitwise op => op.perform m.policy
  | .equal => do
    let same ← compareItems
    pushBool m.policy same
  | .equalVerify => do
    let same ← compareItems
    require same .equalVerify
  | .unary op => op.perform m.policy
  | .binary op => op.perform m.policy
  | .within => Action.within m.policy
  | .hash op => op.perform m
  | .codeSeparator => modify fun s ↦ { s with separator := some index }
  | .check op verify => op.perform m ctx verify
  | .locktime op => op.perform ctx
  | .introspection op => op.perform m.policy ctx

def failsAlways : Opcode → Option Fault
  | .disabled op => some (.disabledOpcode (.disabled op))
  | .reserved .verIf => some (.calledReserved (.reserved .verIf))
  | .reserved .verNotIf => some (.calledReserved (.reserved .verNotIf))
  | _ => none

/-- Counts an opcode that does more than push. The count is a 64-bit word. -/
def countOperation (byte : UInt8) : Action Unit := fun s ↦
  if byte ≤ Opcode.maxPush then .ok () s
  else
    let s := { s with operations := (s.operations + 1) % UInt64.size }
    match m.policy.limits.operationCount with
    | none => .ok () s
    | some limit => if limit < s.operations then .error (.tooManyOperations limit) s else .ok () s

def operate (index : Nat) (executing : Bool) (byte : UInt8) : Action Unit := do
  m.countOperation byte
  match Opcode.ofByte? m.policy.edition byte with
  | none => if executing then throw (.unknownOpcode byte) else pure ()
  | some op =>
    match failsAlways op with
    | some fault => throw fault
    | none =>
      if executing || op.isConditional then m.perform ctx index executing op else pure ()

/-- Evaluates a push. Its length counts even where it is not taken. -/
def pushData (executing : Bool) (instruction : Instruction) (data : Bytes) : Action Unit :=
  if m.policy.limits.itemLength < data.length then
    throw (.itemTooLong data.length m.policy.limits.itemLength)
  else if !executing then pure ()
  else if instruction.isMinimal then push m.policy data
  else throw .nonMinimalPush

def checkLimits : Action Unit := fun s ↦
  let limits := m.policy.limits
  if limits.stackDepth < s.depth then .error (.stackTooDeep limits.stackDepth) s
  else
    match limits.controlDepth.filter (· < s.control.length) with
    | some limit => .error (.controlTooDeep limit) s
    | none =>
      let s := { s with meter := s.meter.observeMemory s.memoryUsage }
      match s.meter.overdraft? with
      | some budget => .error (.overdraft budget) s
      | none => .ok () s

/-- Evaluates an instruction whose cost is already charged. -/
def execute (index : Nat) (executing : Bool) (instruction : Instruction) : Action Unit :=
  match instruction with
  | .truncated _ _ => throw .malformedPush
  | .push _ data => m.pushData executing instruction data
  | .operation byte => m.operate ctx index executing byte

def advance (s : State) : State :=
  { s with pointer := s.pointer + 1, meter := s.meter.countInstruction m.policy }

def settle : EStateM.Result Fault State Unit → State
  | .ok _ s => s
  | .error fault s => { s with fault := some fault }

/-- Evaluates one instruction. A halted state stays as it is. -/
def step (s : State) : State :=
  if s.isHalted then s
  else
    match s.next? with
    | none => s
    | some instruction =>
      settle ((do
        m.execute ctx s.pointer s.isExecuting instruction
        m.checkLimits) (m.advance s))

end Machine

end ScriptMachine
