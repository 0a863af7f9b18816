import ScriptMachine.Digest.Block

/-!
# SHA-1

Eighty rounds over a chain of five words, in four stages that differ in mixing function and
constant.
-/

namespace ScriptMachine.Digest.Sha1

structure Chain where
  a : UInt32
  b : UInt32
  c : UInt32
  d : UInt32
  e : UInt32
  deriving DecidableEq, Repr

def initial : Chain := ⟨0x67452301, 0xefcdab89, 0x98badcfe, 0x10325476, 0xc3d2e1f0⟩

def nextWord : List UInt32 → UInt32
  | [w0, _, w2, _, _, _, _, _, w8, _, _, _, _, w13, _, _] => rotl (w13 ^^^ w8 ^^^ w2 ^^^ w0) 1
  | _ => 0

def mix (j : Nat) (b c d : UInt32) : UInt32 :=
  if j < 20 then (b &&& c) ||| (~~~b &&& d)
  else if j < 40 then b ^^^ c ^^^ d
  else if j < 60 then (b &&& c) ||| (b &&& d) ||| (c &&& d)
  else b ^^^ c ^^^ d

def constant (j : Nat) : UInt32 :=
  if j < 20 then 0x5a827999 else if j < 40 then 0x6ed9eba1
  else if j < 60 then 0x8f1bbcdc else 0xca62c1d6

def Chain.rounds : Chain → (j : Nat) → List UInt32 → Chain
  | s, _, [] => s
  | s, j, w :: ws =>
    Chain.rounds ⟨rotl s.a 5 + mix j s.b s.c s.d + s.e + constant j + w, s.a, rotl s.b 30, s.c, s.d⟩
      (j + 1) ws

def Chain.absorb (s : Chain) (block : Bytes) : Chain :=
  let t := s.rounds 0 (extendWords nextWord 64 (wordsBE block))
  ⟨s.a + t.a, s.b + t.b, s.c + t.c, s.d + t.d, s.e + t.e⟩

def hash (message : Bytes) : Bytes :=
  let s := (blocks (pad message (Bytes.ofNatBE 8 (8 * message.length)))).foldl Chain.absorb initial
  [s.a, s.b, s.c, s.d, s.e].flatMap bytesBE

@[simp] theorem length_hash (message : Bytes) : (hash message).length = 20 := rfl

end ScriptMachine.Digest.Sha1
