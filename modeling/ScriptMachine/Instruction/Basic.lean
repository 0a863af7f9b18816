import ScriptMachine.Bytes
import ScriptMachine.Opcode.Naming
import ScriptMachine.Total

/-!
# Instructions

Bytecode is a sequence of opcodes, some of which are followed by bytes to push. A push that the end
of the bytecode cuts off is an instruction too, and keeps the bytes that are there.
-/

namespace ScriptMachine

/-- What is known of a push that the end of the bytecode cuts off. Where its length is cut off, only
the last two fields are known; otherwise only the first two. -/
structure Cut where
  data : Bytes := []
  declared : Option Nat := none
  lengthBytes : Option Bytes := none
  width : Option Nat := none
  deriving DecidableEq, Repr

namespace Cut

def inLength (present : Bytes) (width : Nat) : Cut :=
  { lengthBytes := some present, width := some width }

def inData (present : Bytes) (declared : Nat) : Cut :=
  { data := present, declared := some declared }

/-- The number of bytes to push. Where it is not known, no more are missing. -/
def length (cut : Cut) : Nat := cut.declared.getD cut.data.length

end Cut

/-- An instruction. Opcodes are bytes, since bytecode may hold any. -/
inductive Instruction
  | operation (opcode : UInt8)
  | push (opcode : UInt8) (data : Bytes)
  | truncated (opcode : UInt8) (cut : Cut)
  deriving DecidableEq, Repr

namespace Instruction

def opcode : Instruction → UInt8
  | operation opcode | push opcode _ | truncated opcode _ => opcode

def isTruncated : Instruction → Bool
  | truncated _ _ => true
  | _ => false

/-- The number of bytes that give the length after a push opcode; other opcodes have none. -/
def lengthWidth? (opcode : UInt8) : Option Nat :=
  if opcode ≤ Opcode.maxDirectPush then some 0
  else if opcode = 0x4c then some 1
  else if opcode = 0x4d then some 2
  else if opcode = 0x4e then some 4
  else none

def lengthField (opcode : UInt8) (length : Nat) : Bytes :=
  Bytes.ofNatLE ((lengthWidth? opcode).getD 0) length

def encode : Instruction → Bytes
  | operation opcode => [opcode]
  | push opcode data => opcode :: (lengthField opcode data.length ++ data)
  | truncated opcode cut =>
    match cut.lengthBytes with
    | some present => opcode :: present
    | none => opcode :: (lengthField opcode cut.length ++ cut.data)

def encodedLength : Instruction → Nat
  | operation _ => 1
  | push opcode data => 1 + (lengthWidth? opcode).getD 0 + data.length
  | truncated opcode cut =>
    match cut.lengthBytes with
    | some present => 1 + present.length
    | none => 1 + (lengthWidth? opcode).getD 0 + cut.data.length

theorem length_encode (i : Instruction) : i.encode.length = i.encodedLength := by
  rcases i with _ | _ | ⟨_, _, _, _ | _, _⟩ <;> simp [encode, encodedLength, lengthField] <;> omega

def readPayload (opcode : UInt8) (length : Nat) (rest : Bytes) : Instruction × Bytes :=
  if rest.length < length then (truncated opcode (.inData rest length), [])
  else (push opcode (rest.take length), rest.drop length)

def readNext (opcode : UInt8) (rest : Bytes) : Instruction × Bytes :=
  match lengthWidth? opcode with
  | none => (operation opcode, rest)
  | some 0 => readPayload opcode opcode.toNat rest
  | some width =>
    if rest.length < width then (truncated opcode (.inLength rest width), [])
    else readPayload opcode (Bytes.toNatLE (rest.take width)) (rest.drop width)

theorem length_readPayload_le (opcode : UInt8) (length : Nat) (rest : Bytes) :
    (readPayload opcode length rest).2.length ≤ rest.length := by
  unfold readPayload
  split <;> simp

theorem length_readNext_le (opcode : UInt8) (rest : Bytes) :
    (readNext opcode rest).2.length ≤ rest.length := by
  unfold readNext
  split
  · exact Nat.le_refl _
  · exact length_readPayload_le _ _ _
  · split
    · simp
    · refine Nat.le_trans (length_readPayload_le _ _ _) ?_
      simp

def parse : Bytes → List Instruction
  | [] => []
  | opcode :: rest => (readNext opcode rest).1 :: parse (readNext opcode rest).2
termination_by bytecode => bytecode.length
decreasing_by exact Nat.lt_succ_of_le (length_readNext_le opcode rest)

def serialize (instructions : List Instruction) : Bytes := instructions.flatMap encode

@[simp] theorem length_serialize (instructions : List Instruction) :
    (serialize instructions).length = total encodedLength instructions := by
  induction instructions with
  | nil => rfl
  | cons i rest ih =>
    rw [serialize] at ih
    simp [serialize, length_encode, ih]

def isPushOnly (instructions : List Instruction) : Bool :=
  instructions.all fun i ↦ decide (i.opcode ≤ Opcode.maxPush)

end Instruction

end ScriptMachine
