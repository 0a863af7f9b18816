import ScriptMachine.Digest.Family
import ScriptMachine.Hex
import ScriptMachine.Transaction.Wire

/-!
# Signing messages

A signature of a transaction commits to a message that depends on the signature's type. The type
says whether all, none or one of the outputs are covered, whether other inputs are, and whether the
spent outputs are.
-/

namespace ScriptMachine.Signing

inductive Fault
  | inputOutOfRange (index inputs : Nat)
  | sourceCountMismatch (expected actual : Nat)
  | invalidType (byte : UInt8)
  deriving DecidableEq, Repr

def Fault.message : Fault → String
  | inputOutOfRange index inputs =>
    s!"input index {index} is out of range for a transaction with {inputs} inputs"
  | sourceCountMismatch expected actual => s!"expected {expected} source outputs, got {actual}"
  | invalidType byte =>
    "invalid signing serialization type 0x" ++ String.ofList (Hex.byte byte)

inductive Coverage
  | all
  | none
  /-- The output with the index of the input. -/
  | single
  deriving DecidableEq, Repr

/-- The type of a signature. Covering the spent outputs and letting anyone add inputs exclude each
other. -/
structure SignatureType where
  coverage : Coverage
  /-- The spent outputs are covered. -/
  utxos : Bool
  /-- The other inputs are not covered. -/
  anyoneCanPay : Bool
  compatible : (utxos && anyoneCanPay) = false
  deriving DecidableEq, Repr

namespace SignatureType

def coverageByte : Coverage → UInt8
  | .all => 1
  | .none => 2
  | .single => 3

def coverage? (base : UInt8) : Option Coverage :=
  if base = 1 then some .all
  else if base = 2 then some .none
  else if base = 3 then some .single
  else Option.none

/-- The type byte. The bit `0x40` is always set. -/
def byte (t : SignatureType) : UInt8 :=
  coverageByte t.coverage ||| 0x40 ||| (if t.utxos then 0x20 else 0) |||
    (if t.anyoneCanPay then 0x80 else 0)

def ofByte (b : UInt8) : Except Fault SignatureType :=
  let utxos := b &&& 0x20 != 0
  let anyoneCanPay := b &&& 0x80 != 0
  match coverage? (b &&& 0x1f) with
  | Option.none => .error (.invalidType b)
  | some coverage =>
    if h : (utxos && anyoneCanPay) = false then
      if b &&& 0x40 != 0 then .ok ⟨coverage, utxos, anyoneCanPay, h⟩
      else .error (.invalidType b)
    else .error (.invalidType b)

end SignatureType

/-- The digest that stands for a part that is not covered. -/
def uncovered : Bytes := List.replicate 32 0

variable (d : DigestFamily)

def outpointsDigest (tx : Transaction) (t : SignatureType) : Bytes :=
  if t.anyoneCanPay then uncovered
  else d.hash256 (tx.inputs.flatMap fun i ↦ i.outpoint.encode)

def utxosDigest (sources : List Output) (t : SignatureType) : Bytes :=
  if t.utxos then d.hash256 (sources.flatMap Output.encode) else []

def sequencesDigest (tx : Transaction) (t : SignatureType) : Bytes :=
  if t.anyoneCanPay ∨ t.coverage ≠ .all then uncovered
  else d.hash256 (tx.inputs.flatMap fun i ↦ Wire.word32 i.sequence)

def outputsDigest (tx : Transaction) (index : Nat) (t : SignatureType) : Bytes :=
  match t.coverage with
  | .all => d.hash256 (tx.outputs.flatMap Output.encode)
  | .none => uncovered
  | .single =>
    match tx.outputs[index]? with
    | some output => d.hash256 output.encode
    | Option.none => uncovered

/-- The message that a signature of type `t` for input `index` commits to. -/
def message (tx : Transaction) (sources : List Output) (index : Nat) (covered : Bytes)
    (t : SignatureType) : Except Fault Bytes :=
  match tx.inputs[index]? with
  | Option.none => .error (.inputOutOfRange index tx.inputs.length)
  | some input =>
    if sources.length ≠ tx.inputs.length then
      .error (.sourceCountMismatch tx.inputs.length sources.length)
    else
      .ok (Wire.word32 tx.version ++ outpointsDigest d tx t ++ utxosDigest d sources t ++
        sequencesDigest d tx t ++ input.outpoint.encode ++ Wire.byteString covered ++
        Wire.word64 (sources.getD index {}).value ++ Wire.word32 input.sequence ++
        outputsDigest d tx index t ++ Wire.word32 tx.lockTime ++ Wire.word32 t.byte.toUInt32)

def digest (tx : Transaction) (sources : List Output) (index : Nat) (covered : Bytes)
    (t : SignatureType) : Except Fault Bytes :=
  (message d tx sources index covered t).map d.hash256

end ScriptMachine.Signing
