import ScriptMachine.Digest.Ripemd160
import ScriptMachine.Digest.Sha1
import ScriptMachine.Digest.Sha256

/-!
# Digests

The single and double digests that scripts and signing messages use, and the number of blocks that
digesting a message takes.
-/

namespace ScriptMachine.Digest

def sha256 (message : Bytes) : Bytes := Sha256.hash message

def sha1 (message : Bytes) : Bytes := Sha1.hash message

def ripemd160 (message : Bytes) : Bytes := Ripemd160.hash message

def hash160 (message : Bytes) : Bytes := ripemd160 (sha256 message)

def hash256 (message : Bytes) : Bytes := sha256 (sha256 message)

/-- The blocks digested for a message of `length` bytes; a second round over the digest of the first
takes one more. Lengths are 64-bit. -/
def iterations (length : Nat) (twoRounds : Bool) : Nat :=
  1 + (length + 8) % UInt64.size / 64 + if twoRounds then 1 else 0

def hmac256 (key message : Bytes) : Bytes :=
  let short := if key.length > 64 then sha256 key else key
  let block := short ++ List.replicate (64 - short.length) 0
  sha256 (block.map (· ^^^ 0x5c) ++ sha256 (block.map (· ^^^ 0x36) ++ message))

end ScriptMachine.Digest
