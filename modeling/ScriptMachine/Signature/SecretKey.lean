import ScriptMachine.Signature.Ecdsa
import ScriptMachine.Signature.Schnorr

/-!
# Secret keys

A secret key is a number from one up to the order of the curve, thirty-two bytes when written.
-/

namespace ScriptMachine

structure SecretKey (c : Curve) where
  value : Nat
  pos : 0 < value
  lt_order : value < c.n

namespace SecretKey

variable {c : Curve}

def ofBytes? (c : Curve) (bytes : Bytes) : Option (SecretKey c) :=
  let value := Bytes.toNatBE bytes
  if h : 0 < value ∧ value < c.n then some ⟨value, h.1, h.2⟩ else none

def publicKey (key : SecretKey c) (compressed : Bool) : Bytes :=
  (c.smul c.base key.value).write compressed

def signEcdsa? (key : SecretKey c) (digest : Bytes) : Option Bytes :=
  Signature.Ecdsa.sign? c key.value digest

def signSchnorr? (key : SecretKey c) (hash : Bytes → Bytes) (digest : Bytes) : Option Bytes :=
  Signature.Schnorr.sign? hash c key.value digest

end SecretKey

end ScriptMachine
