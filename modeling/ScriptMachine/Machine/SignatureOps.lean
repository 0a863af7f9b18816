import ScriptMachine.Machine.Action

/-!
# Digests and signature checks

An empty signature stands for "not signed" and makes a check come out false. Any other signature
must be well formed and must verify; one that does not ends the evaluation.
-/

namespace ScriptMachine

open ScriptMachine.Action

def HashOp.isDouble : HashOp → Bool
  | hash160 | hash256 => true
  | _ => false

def HashOp.perform (m : Machine) (op : HashOp) : Action Unit := do
  let data ← pop
  meter (·.countHash m.policy (Digest.iterations data.length op.isDouble))
  push m.policy (m.digests.compute op data)

def maxMultisigKeys : Nat := 20

/-- The length is one that signatures have: sixty-four bytes, or what an ECDSA signature may
take. -/
def hasSignatureLength (body : Bytes) : Bool :=
  body.length == Signature.Schnorr.length || decide (8 ≤ body.length ∧ body.length ≤ 72)

def splitSignature? (signature : Bytes) : Option (Bytes × Signing.SignatureType) :=
  match signature.getLast? with
  | none => none
  | some type =>
    match Signing.SignatureType.ofByte type with
    | .error _ => none
    | .ok t =>
      if hasSignatureLength signature.dropLast then some (signature.dropLast, t) else none

def Machine.signingMessage (m : Machine) (ctx : Context) (active : Bytes)
    (t : Signing.SignatureType) : Except Signing.Fault Bytes :=
  Signing.message m.digests ctx.transaction ctx.sources ctx.inputIndex active t

namespace Action

variable (m : Machine) (ctx : Context)

/-- Verifies a signature, which is not empty, of the spending transaction. -/
def verifySignature (signature key : Bytes) : Action Bool := do
  match splitSignature? signature with
  | none => throw .invalidSignature
  | some (body, t) =>
    if !m.checker.validKey key then throw .invalidPublicKey
    let s ← get
    match m.signingMessage ctx s.activeBytecode t with
    | .error fault => throw (.signing fault)
    | .ok message => do
      meter (·.countHash m.policy (Digest.iterations message.length true))
      return m.checker.verify (m.digests.hash256 message) body key

def checkTransaction : Action Bool := do
  let key ← pop
  let signature ← pop
  if signature.isEmpty then return false
  let verified ← verifySignature m ctx signature key
  meter (·.countSignatureChecks m.policy 1)
  if verified then return true else throw .nonNullSignatureFailure

def checkData : Action Bool := do
  let key ← pop
  let message ← pop
  let signature ← pop
  if signature.isEmpty then return false
  if !hasSignatureLength signature then throw .invalidSignature
  if !m.checker.validKey key then throw .invalidPublicKey
  meter (·.countHash m.policy (Digest.iterations message.length false))
  meter (·.countSignatureChecks m.policy 1)
  if m.checker.verify (m.digests.compute .sha256 message) signature key then return true
  else throw .nonNullSignatureFailure

def popCount (p : Policy) (limit : Nat) : Action Nat := do
  let v ← popNumber p
  if 0 ≤ v ∧ v ≤ limit then return v.toNat else throw .invalidMultisigCount

/-- Matches signatures to keys in order. Both lists have their last element first. A key that does
not match a signature is passed over for good. -/
def matchSignatures : (signatures keys : List Bytes) → Action Bool
  | [], _ => pure true
  | _ :: _, [] => pure false
  | signature :: signatures, key :: keys => do
    if signature.length = Signature.Schnorr.length + 1 then throw .schnorrInLegacyMultisig
    let verified ←
      if signature.isEmpty then pure false else verifySignature m ctx signature key
    let remaining := if verified then signatures else signature :: signatures
    if keys.length < remaining.length then return false
    matchSignatures remaining keys

def checkLegacyMultisig (signatures keys : List Bytes) : Action Bool := do
  let anySigned := signatures.any (!·.isEmpty)
  if anySigned then meter (·.countSignatureChecks m.policy keys.length)
  let matched ← matchSignatures m ctx signatures keys
  if !matched && anySigned then throw .nonNullSignatureFailure
  return matched

/-- Checks each signature under the key that its bit selects. `index` is that of the first key. -/
def checkSelected (bits : Nat) : (index : Nat) → (signatures keys : List Bytes) → Action Unit
  | _, _, [] => pure ()
  | index, signatures, key :: keys =>
    if bits.testBit index then
      match signatures with
      | [] => throw .invalidBitfield
      | signature :: signatures => do
        if signature.length ≠ Signature.Schnorr.length + 1 then throw .invalidSignature
        let verified ← verifySignature m ctx signature key
        if !verified then throw .nonNullSignatureFailure
        checkSelected bits (index + 1) signatures keys
    else checkSelected bits (index + 1) signatures keys

def countBits (bits count : Nat) : Nat := ((List.range count).filter bits.testBit).length

/-- Checks Schnorr signatures under the keys that a bit field selects. Both lists have their first
element first. -/
def checkSchnorrMultisig (bitfield : Bytes) (signatures keys : List Bytes) : Action Bool := do
  let bits := Bytes.toNatLE bitfield
  if bitfield.length ≠ (keys.length + 7) / 8 then throw .invalidBitfield
  if bits >>> keys.length ≠ 0 ∨ countBits bits keys.length ≠ signatures.length then
    throw .invalidBitfield
  checkSelected m ctx bits 0 signatures keys
  meter (·.countSignatureChecks m.policy signatures.length)
  return true

/-- Checks several signatures of the spending transaction; the lowest item selects the mode. -/
def checkMulti : Action Bool := do
  let keyCount ← popCount m.policy maxMultisigKeys
  let keys ← popMany keyCount
  let signatureCount ← popCount m.policy keyCount
  let signatures ← popMany signatureCount
  let mode ← pop
  if mode.isEmpty then checkLegacyMultisig m ctx signatures keys
  else checkSchnorrMultisig m ctx mode signatures.reverse keys.reverse

end Action

def CheckOp.run (m : Machine) (ctx : Context) : CheckOp → Action Bool
  | transaction => checkTransaction m ctx
  | multi => checkMulti m ctx
  | data => checkData m

def CheckOp.perform (m : Machine) (ctx : Context) (op : CheckOp) (verify : Bool) : Action Unit := do
  let valid ← op.run m ctx
  if verify then require valid (.check op verify) else pushBool m.policy valid

end ScriptMachine
