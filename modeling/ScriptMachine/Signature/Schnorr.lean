import ScriptMachine.Curve.PublicKey

/-!
# Schnorr signatures

A signature is the first coordinate of a point whose second coordinate is a square, and a scalar, of
thirty-two bytes each. The digest behind nonces and challenges is an argument.
-/

namespace ScriptMachine.Signature.Schnorr

def length : Nat := 64

/-- Set apart from other uses of the same secret and digest. -/
def nonceTag : Bytes := "Schnorr+SHA256  ".toUTF8.toList

variable (hash : Bytes → Bytes)

def challenge (c : Curve) (r : Bytes) (q : Point) (digest : Bytes) : Nat :=
  Bytes.toNatBE (hash (r ++ q.write true ++ digest)) % c.n

def firstCoordinate : Point → Bytes
  | .infinity => List.replicate 32 0
  | .affine x _ => Bytes.ofNatBE 32 x

def sign? (c : Curve) (secret : Nat) (digest : Bytes) : Option Bytes :=
  let k := Bytes.toNatBE (hash (Bytes.ofNatBE 32 secret ++ digest ++ nonceTag)) % c.n
  if k = 0 then none
  else
    let q := c.smul c.base k
    let k := if c.hasSquareY q then k else c.n - k
    let r := firstCoordinate q
    let e := challenge hash c r (c.smul c.base secret) digest
    some (r ++ Bytes.ofNatBE 32 ((k + e * secret) % c.n))

/-- The point that a scalar and a challenge claim to come from. -/
def commitment (c : Curve) (q : Point) (s e : Nat) : Point :=
  c.add (c.smul c.base s) (c.neg (c.smul q e))

def verify (c : Curve) (digest signature key : Bytes) : Bool :=
  match c.readKey? key with
  | none => false
  | some q =>
    let r := signature.take 32
    let s := Bytes.toNatBE (signature.drop 32)
    if signature.length = length ∧ s < c.n ∧ Bytes.toNatBE r < c.p then
      match commitment c q s (challenge hash c r q digest) with
      | .infinity => false
      | .affine x y => c.hasSquareY (.affine x y) && Bytes.ofNatBE 32 x == r
    else false

end ScriptMachine.Signature.Schnorr
