import ScriptMachine.Machine.Action

/-!
# Opcodes on numbers

Arithmetic is exact. It is charged for the lengths of its operands, and fails where the result is
longer than numbers may be.
-/

namespace ScriptMachine

open ScriptMachine.Action

def boolNumber (b : Bool) : Int := if b then 1 else 0

def UnaryOp.compute : UnaryOp → Int → Int
  | increment, v => v + 1
  | decrement, v => v - 1
  | negate, v => -v
  | abs, v => v.natAbs
  | not, v => boolNumber (v == 0)
  | isNonzero, v => boolNumber (v != 0)

def UnaryOp.perform (p : Policy) (op : UnaryOp) : Action Unit := do
  let (v, length) ← popSized p
  meter (·.countArithmetic p length)
  pushNumber p (op.compute v)

/-- The bytes of arithmetic that operands of these lengths are charged as. -/
def BinaryOp.workload : BinaryOp → Nat → Nat → Nat
  | mul, a, b | div, a, b | mod, a, b => Amount.mul a b
  | _, a, b => Nat.max a b

/-- What a binary opcode computes; quotients go toward zero. -/
def BinaryOp.compute : BinaryOp → Int → Int → Int
  | add, a, b => a + b
  | sub, a, b => a - b
  | mul, a, b => a * b
  | div, a, b => a.tdiv b
  | mod, a, b => a.tmod b
  | boolAnd, a, b => boolNumber (a != 0 && b != 0)
  | boolOr, a, b => boolNumber (a != 0 || b != 0)
  | equal, a, b | equalVerify, a, b => boolNumber (a == b)
  | notEqual, a, b => boolNumber (a != b)
  | less, a, b => boolNumber (decide (a < b))
  | greater, a, b => boolNumber (decide (b < a))
  | lessOrEqual, a, b => boolNumber (decide (a ≤ b))
  | greaterOrEqual, a, b => boolNumber (decide (b ≤ a))
  | min, a, b => if a ≤ b then a else b
  | max, a, b => if a ≤ b then b else a

def BinaryOp.divides : BinaryOp → Bool
  | div | mod => true
  | _ => false

def BinaryOp.perform (p : Policy) (op : BinaryOp) : Action Unit := do
  let (b, bLength) ← popSized p
  let (a, aLength) ← popSized p
  meter (·.countArithmetic p (op.workload aLength bLength))
  if op.divides && b == 0 then throw .divisionByZero
  else if op = .equalVerify then require (a == b) (.binary op)
  else pushNumber p (op.compute a b)

def Action.within (p : Policy) : Action Unit := do
  let (upper, upperLength) ← popSized p
  let (lower, lowerLength) ← popSized p
  let (v, length) ← popSized p
  meter (·.countArithmetic p (max (max length lowerLength) upperLength))
  pushBool p (decide (lower ≤ v ∧ v < upper))

end ScriptMachine
