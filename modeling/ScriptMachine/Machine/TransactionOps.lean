import ScriptMachine.Machine.Action

/-!
# Opcodes on the spending transaction

Time locks compare a number on the stack with the transaction and leave the stack as it is.
Introspection pushes fields of the transaction.
-/

namespace ScriptMachine

open ScriptMachine.Action

/-- Lock times below this are heights, others are times. -/
def lockTimeThreshold : Nat := 500000000

def finalSequence : UInt32 := 0xffffffff

def sequenceDisableFlag : Nat := 1 <<< 31

/-- The bit that says whether a relative lock counts time. -/
def sequenceTypeFlag : Nat := 1 <<< 22

def sequenceValueMask : Nat := 0xffff

/-- The bits of a relative lock that are compared. -/
def sequenceMask : Nat := sequenceTypeFlag ||| sequenceValueMask

def lockTimeLength : Nat := 5

namespace Action

/-- Reads the operand of a time lock and leaves it on the stack. -/
def peekLockTime : Action Nat := do
  let item ← inspect List.head?
  let v ← readNumber lockTimeLength item
  if v < 0 then throw .negativeNumber
  return v.toNat

def currentInput (ctx : Context) : Action Input :=
  match ctx.input? with
  | some input => pure input
  | none => throw .missingContext

def checkLockTime (ctx : Context) : Action Unit := do
  let required ← peekLockTime
  let input ← currentInput ctx
  let lockTime := ctx.transaction.lockTime.toNat
  if decide (required < lockTimeThreshold) != decide (lockTime < lockTimeThreshold) then
    throw .lockTimeTypeMismatch
  if lockTime < required then throw .unsatisfiedLockTime
  if input.sequence = finalSequence then throw .lockTimeDisabled

def checkSequence (ctx : Context) : Action Unit := do
  let required ← peekLockTime
  if required &&& sequenceDisableFlag ≠ 0 then return
  let input ← currentInput ctx
  let sequence := input.sequence.toNat
  if ctx.transaction.version < 2 ∨ sequence &&& sequenceDisableFlag ≠ 0 then
    throw .unsatisfiedSequence
  let required := required &&& sequenceMask
  let sequence := sequence &&& sequenceMask
  if required &&& sequenceTypeFlag ≠ sequence &&& sequenceTypeFlag then
    throw .lockTimeTypeMismatch
  if sequence < required then throw .unsatisfiedSequence

def popElement {α : Type} (p : Policy) (elements : List α) : Action α := do
  let v ← popNumber p
  let fault := Fault.invalidIntrospectionIndex (ScriptNumber.clamp v)
  if v < 0 then throw fault
  else
    match elements[v.toNat]? with
    | some element => return element
    | none => throw fault

def popSource (p : Policy) (ctx : Context) : Action Output := do
  let index ← popElement p (List.range ctx.transaction.inputs.length)
  match ctx.sources[index]? with
  | some source => return source
  | none => throw .missingContext

end Action

def LocktimeOp.perform (ctx : Context) : LocktimeOp → Action Unit
  | lockTime => checkLockTime ctx
  | sequence => checkSequence ctx

def IntrospectionOp.read (p : Policy) (ctx : Context) : IntrospectionOp → Action Unit
  | inputIndex => pushNumber p ctx.inputIndex
  | activeBytecode => do
    let s ← get
    push p s.activeBytecode
  | version => pushNumber p ctx.transaction.version.toNat
  | inputCount => pushNumber p ctx.transaction.inputs.length
  | outputCount => pushNumber p ctx.transaction.outputs.length
  | lockTime => pushNumber p ctx.transaction.lockTime.toNat
  | utxoValue => do
    let source ← popSource p ctx
    pushNumber p source.value.toNat
  | utxoBytecode => do
    let source ← popSource p ctx
    push p source.locking
  | outpointHash => do
    let input ← popElement p ctx.transaction.inputs
    push p input.outpoint.hash.bytes
  | outpointIndex => do
    let input ← popElement p ctx.transaction.inputs
    pushNumber p input.outpoint.index.toNat
  | inputBytecode => do
    let input ← popElement p ctx.transaction.inputs
    push p input.unlocking
  | sequenceNumber => do
    let input ← popElement p ctx.transaction.inputs
    pushNumber p input.sequence.toNat
  | outputValue => do
    let output ← popElement p ctx.transaction.outputs
    pushNumber p output.value.toNat
  | outputBytecode => do
    let output ← popElement p ctx.transaction.outputs
    push p output.locking

def IntrospectionOp.perform (p : Policy) (ctx : Context) (op : IntrospectionOp) : Action Unit := do
  let _ ← currentInput ctx
  op.read p ctx

end ScriptMachine
