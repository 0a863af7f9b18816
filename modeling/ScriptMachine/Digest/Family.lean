import ScriptMachine.Digest.Basic
import ScriptMachine.Opcode.Basic

/-!
# Families of digests

Evaluation computes digests of five kinds. A family says how; the standard one follows the
algorithms, and others serve to reason about evaluation for whatever digests there are.
-/

namespace ScriptMachine

def HashOp.digestLength : HashOp → Nat
  | ripemd160 | sha1 | hash160 => 20
  | sha256 | hash256 => 32

/-- Digests of each kind, which may be any functions whose results have the length of that kind. -/
structure DigestFamily where
  compute : HashOp → Bytes → Bytes
  length_compute : ∀ op message, (compute op message).length = op.digestLength

namespace DigestFamily

attribute [simp] length_compute

def standard : DigestFamily where
  compute
    | .ripemd160 => Digest.ripemd160
    | .sha1 => Digest.sha1
    | .sha256 => Digest.sha256
    | .hash160 => Digest.hash160
    | .hash256 => Digest.hash256
  length_compute
    | .ripemd160, message => Digest.Ripemd160.length_hash message
    | .sha1, message => Digest.Sha1.length_hash message
    | .sha256, message => Digest.Sha256.length_hash message
    | .hash160, message => Digest.Ripemd160.length_hash (Digest.sha256 message)
    | .hash256, message => Digest.Sha256.length_hash (Digest.sha256 message)

/-- The digest of signing messages and of the parts of a transaction in them. -/
def hash256 (d : DigestFamily) : Bytes → Bytes := d.compute .hash256

@[simp] theorem length_hash256 (d : DigestFamily) (message : Bytes) :
    (d.hash256 message).length = 32 :=
  d.length_compute .hash256 message

end DigestFamily

end ScriptMachine
