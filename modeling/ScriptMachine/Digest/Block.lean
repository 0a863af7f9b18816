import ScriptMachine.Bytes

/-!
# Messages as blocks of words

The digests of this library cut a padded message into blocks of sixteen 32-bit words. They differ in
the byte order of words and of the message length.
-/

namespace ScriptMachine.Digest

def rotl (x n : UInt32) : UInt32 := (x <<< n) ||| (x >>> (32 - n))

def rotr (x n : UInt32) : UInt32 := (x >>> n) ||| (x <<< (32 - n))

def wordsBE : Bytes → List UInt32
  | a :: b :: c :: d :: rest =>
    ((a.toUInt32 <<< 24) ||| (b.toUInt32 <<< 16) ||| (c.toUInt32 <<< 8) ||| d.toUInt32) ::
      wordsBE rest
  | _ => []

def wordsLE : Bytes → List UInt32
  | a :: b :: c :: d :: rest =>
    ((d.toUInt32 <<< 24) ||| (c.toUInt32 <<< 16) ||| (b.toUInt32 <<< 8) ||| a.toUInt32) ::
      wordsLE rest
  | _ => []

def bytesBE (w : UInt32) : Bytes :=
  [(w >>> 24).toUInt8, (w >>> 16).toUInt8, (w >>> 8).toUInt8, w.toUInt8]

def bytesLE (w : UInt32) : Bytes :=
  [w.toUInt8, (w >>> 8).toUInt8, (w >>> 16).toUInt8, (w >>> 24).toUInt8]

/-- The number of zero bytes that complete the last block of a message of `length` bytes. -/
def zeroCount (length : Nat) : Nat := (119 - length % 64) % 64

/-- The message, a one bit, zeros, and the message length in the eight bytes `lengthBytes`. -/
def pad (message lengthBytes : Bytes) : Bytes :=
  message ++ 0x80 :: List.replicate (zeroCount message.length) 0 ++ lengthBytes

def blocks (padded : Bytes) : List Bytes := Bytes.pieces 64 (padded.length / 64) padded

/-- Extends sixteen words by `count` more, each computed by `next` from the sixteen before it. -/
def extendWords (next : List UInt32 → UInt32) : (count : Nat) → List UInt32 → List UInt32
  | 0, window => window
  | _ + 1, [] => []
  | count + 1, first :: rest =>
    first :: extendWords next count (rest ++ [next (first :: rest)])

end ScriptMachine.Digest
