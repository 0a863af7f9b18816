import ScriptMachine.Machine.Action

/-!
# Stack opcodes

Moves and copies of items. Moves are free; a copy is charged like any push.
-/

namespace ScriptMachine

open ScriptMachine.Action

/-- Takes off the stack how far below its top an item lies. -/
def Action.popStackIndex (p : Policy) : Action Nat := do
  let v ← popNumber p
  let depth := (← get).stack.length
  if 0 ≤ v ∧ v < depth then return v.toNat
  else throw (.invalidStackIndex (ScriptNumber.clamp v) depth)

def StackOp.perform (p : Policy) : StackOp → Action Unit
  | .toAlt => do
    let item ← pop
    pushAlt item
  | .fromAlt => do
    let item ← popAlt
    push p item
  | .drop2 => rearrange fun
    | _ :: _ :: rest => some rest
    | _ => none
  | .dup2 => do
    let (a, b) ← inspect fun
      | b :: a :: _ => some (a, b)
      | _ => none
    push p a
    push p b
  | .dup3 => do
    let (a, b, c) ← inspect fun
      | c :: b :: a :: _ => some (a, b, c)
      | _ => none
    push p a
    push p b
    push p c
  | .over2 => do
    let (a, b) ← inspect fun
      | _ :: _ :: b :: a :: _ => some (a, b)
      | _ => none
    push p a
    push p b
  | .rot2 => rearrange fun
    | f :: e :: d :: c :: b :: a :: rest => some (b :: a :: f :: e :: d :: c :: rest)
    | _ => none
  | .swap2 => rearrange fun
    | d :: c :: b :: a :: rest => some (b :: a :: d :: c :: rest)
    | _ => none
  | .ifDup => do
    let top ← inspect List.head?
    if ScriptNumber.isTruthy top then push p top
  | .depth => do
    let s ← get
    pushNumber p s.stack.length
  | .drop => do
    let _ ← pop
  | .dup => do
    let top ← inspect List.head?
    push p top
  | .nip => rearrange fun
    | b :: _ :: rest => some (b :: rest)
    | _ => none
  | .over => do
    let a ← inspect fun
      | _ :: a :: _ => some a
      | _ => none
    push p a
  | .pick => do
    let n ← popStackIndex p
    let item ← inspect (·[n]?)
    push p item
  | .roll => do
    let n ← popStackIndex p
    rearrange fun stack ↦ stack[n]?.map (· :: stack.eraseIdx n)
  | .rot => rearrange fun
    | c :: b :: a :: rest => some (a :: c :: b :: rest)
    | _ => none
  | .swap => rearrange fun
    | b :: a :: rest => some (a :: b :: rest)
    | _ => none
  | .tuck => do
    let top ← inspect fun
      | b :: _ :: _ => some b
      | _ => none
    meter (·.countPush p top.length)
    rearrange fun
      | b :: a :: rest => some (b :: a :: b :: rest)
      | _ => none

end ScriptMachine
