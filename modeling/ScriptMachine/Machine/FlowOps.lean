import ScriptMachine.Machine.Action

/-!
# Branches and loops

These opcodes take part in evaluation also where code is not taken, so that constructs stay matched.
-/

namespace ScriptMachine

open ScriptMachine.Action

namespace Action

/-- Opens a branch, which is taken if a condition taken off the stack differs from `negate`. -/
def openBranch (executing negate : Bool) : Action Unit := do
  let taken ←
    if executing then do
      let condition ← pop
      pure (ScriptNumber.isTruthy condition != negate)
    else pure false
  modify fun s ↦ { s with control := .branch taken :: s.control }

def turnBranch : Action Unit := fun s ↦
  match s.control with
  | .branch taken :: rest => .ok () { s with control := .alternative (!taken) :: rest }
  | .alternative _ :: _ => .error .repeatedElse s
  | _ => .error .unexpectedElse s

def closeBranch : Action Unit := fun s ↦
  match s.control with
  | .branch _ :: rest | .alternative _ :: rest => .ok () { s with control := rest }
  | _ => .error .unexpectedEndIf s

def openLoop (index : Nat) : Action Unit :=
  modify fun s ↦ { s with control := .loop (index + 1) :: s.control }

def leave : Action Unit := modify fun s ↦ { s with control := s.control.tail }

def spanLength (program : List Instruction) (first last : Nat) : Nat :=
  total Instruction.encodedLength ((program.take (last + 1)).drop first)

/-- Closes the innermost loop, or jumps back to its body and charges for the bytes in between. -/
def closeLoop (p : Policy) (index : Nat) (executing : Bool) : Action Unit := do
  match (← get).control with
  | .loop start :: _ =>
    if executing then do
      let condition ← pop
      if ScriptNumber.isTruthy condition then leave
      else modify fun s ↦
        { s with
          meter := s.meter.countRepeated p (spanLength s.program start index)
          pointer := start }
    else leave
  | _ => throw .unexpectedUntil

def verifyTop (op : Opcode) : Action Unit := do
  let item ← pop
  require (ScriptNumber.isTruthy item) op

end Action

def FlowOp.perform (executing : Bool) : FlowOp → Action Unit
  | branch => openBranch executing false
  | branchNot => openBranch executing true
  | otherwise => turnBranch
  | endBranch => closeBranch
  | verify => verifyTop (.flow .verify)
  | halt => throw .calledReturn

def LoopOp.perform (p : Policy) (index : Nat) (executing : Bool) : LoopOp → Action Unit
  | begin => openLoop index
  | «until» => closeLoop p index executing

end ScriptMachine
