import ScriptMachine.Digest.Family
import ScriptMachine.Machine.Context
import ScriptMachine.Machine.State
import ScriptMachine.Signature.Checker

/-!
# Actions

Opcodes are made of actions on the state. An action that fails leaves the state as far as it got:
what it took off the stack is gone, and what it was charged stays charged.
-/

namespace ScriptMachine

/-- What evaluations are run by: the rules, the answers about signatures, and the digests. -/
structure Machine where
  policy : Policy := .ofEdition .y2025
  checker : SignatureChecker := .standard
  digests : DigestFamily := .standard

abbrev Action := EStateM Fault State

namespace Action

def pop : Action Bytes := fun s ↦
  match s.stack with
  | [] => .error .emptyStack s
  | top :: rest => .ok top { s with stack := rest }

def popAlt : Action Bytes := fun s ↦
  match s.alt with
  | [] => .error .emptyAltStack s
  | top :: rest => .ok top { s with alt := rest }

/-- Takes `count` items off the stack; the top item comes first. -/
def popMany (count : Nat) : Action (List Bytes) := fun s ↦
  if s.stack.length < count then .error .emptyStack s
  else .ok (s.stack.take count) { s with stack := s.stack.drop count }

def inspect {α : Type} (f : List Bytes → Option α) : Action α := fun s ↦
  match f s.stack with
  | none => .error .emptyStack s
  | some a => .ok a s

/-- Replaces the stack, at no charge. -/
def rearrange (f : List Bytes → Option (List Bytes)) : Action Unit := fun s ↦
  match f s.stack with
  | none => .error .emptyStack s
  | some stack => .ok () { s with stack := stack }

def meter (f : Meter → Meter) : Action Unit := fun s ↦ .ok () { s with meter := f s.meter }

def pushAlt (item : Bytes) : Action Unit := fun s ↦ .ok () { s with alt := item :: s.alt }

/-- Puts an item on the stack, and charges for its bytes. -/
def push (p : Policy) (item : Bytes) : Action Unit := fun s ↦
  if p.limits.itemLength < item.length then
    .error (.itemTooLong item.length p.limits.itemLength) s
  else
    .ok () { s with stack := item :: s.stack, meter := s.meter.countPush p item.length }

def boolItem (b : Bool) : Bytes := if b then [1] else []

def pushBool (p : Policy) (b : Bool) : Action Unit := push p (boolItem b)

def pushNumber (p : Policy) (v : Int) : Action Unit :=
  let item := ScriptNumber.encode v
  if p.limits.numberLength < item.length then throw (.numberOverflow p.limits.numberLength)
  else push p item

def readNumber (limit : Nat) (item : Bytes) : Action Int :=
  match ScriptNumber.decode item limit true with
  | .ok v => pure v
  | .error fault => throw (.number fault)

def popSized (p : Policy) : Action (Int × Nat) := do
  let item ← pop
  let v ← readNumber p.limits.numberLength item
  return (v, item.length)

def popNumber (p : Policy) : Action Int := do
  let (v, _) ← popSized p
  return v

def require (condition : Bool) (op : Opcode) : Action Unit :=
  if condition then pure () else throw (.failedVerify op)

end Action

end ScriptMachine
