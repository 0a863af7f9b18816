import ScriptMachine.Machine.Action

/-!
# Opcodes on byte strings

Joining, cutting and converting items, and combining two of them byte by byte.
-/

namespace ScriptMachine

open ScriptMachine.Action

def SpliceOp.perform (p : Policy) : SpliceOp → Action Unit
  | cat => do
    let b ← pop
    let a ← pop
    push p (a ++ b)
  | split => do
    let position ← popNumber p
    let data ← pop
    if 0 ≤ position ∧ position ≤ data.length then
      push p (data.take position.toNat)
      push p (data.drop position.toNat)
    else throw (.invalidSplitIndex (ScriptNumber.clamp position) data.length)
  | numToBin => do
    let size ← popNumber p
    let item ← pop
    if size < 0 then throw .negativeNumber
    let size := min size.toNat Amount.top
    if p.limits.itemLength < size then throw (.itemTooLong size p.limits.itemLength)
    match ScriptNumber.pad (ScriptNumber.value item) size with
    | .ok padded => push p padded
    | .error fault => throw (.number fault)
  | binToNum => do
    let item ← pop
    let minimized := ScriptNumber.minimize item
    if p.limits.numberLength < minimized.length then
      throw (.numberOverflow p.limits.numberLength)
    push p minimized
  | size => do
    let top ← inspect List.head?
    pushNumber p top.length
  | reverse => do
    let item ← pop
    push p item.reverse

def BitwiseOp.combine : BitwiseOp → UInt8 → UInt8 → UInt8
  | and, x, y => x &&& y
  | or, x, y => x ||| y
  | xor, x, y => x ^^^ y

def BitwiseOp.perform (p : Policy) (op : BitwiseOp) : Action Unit := do
  let b ← pop
  let a ← pop
  if a.length ≠ b.length then throw .mismatchedLengths
  push p (List.zipWith op.combine a b)

def Action.compareItems : Action Bool := do
  let b ← pop
  let a ← pop
  return a == b

end ScriptMachine
