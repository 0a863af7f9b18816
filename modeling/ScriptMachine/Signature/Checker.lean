import ScriptMachine.Digest.Basic
import ScriptMachine.Signature.Ecdsa
import ScriptMachine.Signature.Schnorr

/-!
# Checking signatures

Evaluation asks three questions about keys and signatures. A checker answers them; the usual one
answers them on the curve, and others serve to reason about evaluation alone.
-/

namespace ScriptMachine

/-- Answers to the questions that signature checks ask. A digest has thirty-two bytes. -/
structure SignatureChecker where
  ecdsa : (digest signature key : Bytes) → Bool
  schnorr : (digest signature key : Bytes) → Bool
  validKey : (key : Bytes) → Bool

namespace SignatureChecker

/-- The answers on a curve, where `hash` gives the challenges of Schnorr signatures. -/
def ofCurve (hash : Bytes → Bytes) (c : Curve) : SignatureChecker where
  ecdsa := Signature.Ecdsa.verify c
  schnorr := Signature.Schnorr.verify hash c
  validKey key := (c.readKey? key).isSome

def standard : SignatureChecker := ofCurve Digest.sha256 Curve.secp256k1

/-- Verifies a signature of either kind; sixty-four bytes are a Schnorr signature. -/
def verify (checker : SignatureChecker) (digest signature key : Bytes) : Bool :=
  if signature.length = Signature.Schnorr.length then checker.schnorr digest signature key
  else checker.ecdsa digest signature key

end SignatureChecker

end ScriptMachine
