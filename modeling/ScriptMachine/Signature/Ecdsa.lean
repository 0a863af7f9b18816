import ScriptMachine.Curve.PublicKey
import ScriptMachine.Digest.Basic
import ScriptMachine.Signature.Der

/-!
# ECDSA

Signatures over a digest of thirty-two bytes, in DER, with the lower of the two values that `s` can
have. Nonces are derived from the key and the digest.
-/

namespace ScriptMachine.Signature.Ecdsa

/-- The generator that nonces come from: a key and a value, each updated from the other. -/
structure NonceSource where
  key : Bytes
  value : Bytes

namespace NonceSource

def update (g : NonceSource) (separator : UInt8) (seed : Bytes) : NonceSource :=
  let key := Digest.hmac256 g.key (g.value ++ separator :: seed)
  ⟨key, Digest.hmac256 key g.value⟩

def ofSeed (seed : Bytes) : NonceSource :=
  ((NonceSource.mk (List.replicate 32 0) (List.replicate 32 1)).update 0 seed).update 1 seed

def nonce? (bound : Nat) : (attempts : Nat) → NonceSource → Option Nat
  | 0, _ => none
  | attempts + 1, g =>
    let value := Digest.hmac256 g.key g.value
    let k := Bytes.toNatBE value
    if k ≠ 0 ∧ k < bound then some k
    else nonce? bound attempts (update { g with value := value } 0 [])

end NonceSource

/-- How often a nonce is drawn before signing gives up. A draw is out of range with a probability
below `2 ^ -127`. -/
def attempts : Nat := 128

def lower (n s : Nat) : Nat := if s > n / 2 then n - s else s

def sign? (c : Curve) (secret : Nat) (digest : Bytes) : Option Bytes := do
  let k ← NonceSource.nonce? c.n attempts (.ofSeed (Bytes.ofNatBE 32 secret ++ digest))
  match c.smul c.base k with
  | .infinity => none
  | .affine x _ =>
    let r := x % c.n
    let s := Modular.inv c.n k * (Bytes.toNatBE digest + r * secret) % c.n
    if r = 0 ∨ s = 0 then none else some (Der.encode r (lower c.n s))

def accepts (c : Curve) (q : Point) (digest : Bytes) (r s : Nat) : Bool :=
  let w := Modular.inv c.n s
  let u := Bytes.toNatBE digest * w % c.n
  let v := r * w % c.n
  match c.add (c.smul c.base u) (c.smul q v) with
  | .infinity => false
  | .affine x _ => x % c.n == r

def verify (c : Curve) (digest signature key : Bytes) : Bool :=
  match c.readKey? key, Der.decode? signature with
  | some q, some (r, s) =>
    decide (0 < r ∧ r < c.n ∧ 0 < s ∧ s ≤ c.n / 2) && accepts c q digest r s
  | _, _ => false

end ScriptMachine.Signature.Ecdsa
