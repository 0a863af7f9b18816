import ScriptMachine.Curve.Modular

/-!
# Points of an elliptic curve

Affine points of a curve `y² = x³ + b` over a prime field, with the chord and tangent law.
-/

namespace ScriptMachine

/-- A curve `y² = x³ + b` over the field of `p` elements, with a base point of order `n`. -/
structure Curve where
  p : Nat
  b : Nat
  n : Nat
  baseX : Nat
  baseY : Nat
  deriving DecidableEq, Repr

inductive Point
  | infinity
  | affine (x y : Nat)
  deriving DecidableEq, Repr

namespace Curve

def secp256k1 : Curve where
  p := 0xfffffffffffffffffffffffffffffffffffffffffffffffffffffffefffffc2f
  b := 7
  n := 0xfffffffffffffffffffffffffffffffebaaedce6af48a03bbfd25e8cd0364141
  baseX := 0x79be667ef9dcbbac55a06295ce870b07029bfcdb2dce28d959f2815b16f81798
  baseY := 0x483ada7726a3c4655da4fbfc0e1108a8fd17b448a68554199c47d08ffb10d4b8

variable (c : Curve)

def base : Point := .affine c.baseX c.baseY

def cubic (x : Nat) : Nat := (x * x % c.p * x + c.b) % c.p

/-- The coordinates are residues that satisfy the equation. -/
def isOn : Point → Bool
  | .infinity => true
  | .affine x y => decide (x < c.p) && decide (y < c.p) && y * y % c.p == c.cubic x

def neg : Point → Point
  | .infinity => .infinity
  | .affine x y => .affine x (Modular.sub c.p 0 y)

/-- The third point of the line through `(x₁, y₁)` with this slope, mirrored. -/
def chord (slope x₁ y₁ x₂ : Nat) : Point :=
  let x := Modular.sub c.p (slope * slope % c.p) (x₁ + x₂)
  .affine x (Modular.sub c.p (slope * Modular.sub c.p x₁ x % c.p) y₁)

def add : Point → Point → Point
  | .infinity, q => q
  | q, .infinity => q
  | .affine x₁ y₁, .affine x₂ y₂ =>
    if x₁ = x₂ then
      if (y₁ + y₂) % c.p = 0 then .infinity
      else c.chord (3 * x₁ * x₁ * Modular.inv c.p (2 * y₁ % c.p) % c.p) x₁ y₁ x₂
    else
      c.chord (Modular.sub c.p y₂ y₁ * Modular.inv c.p (Modular.sub c.p x₂ x₁) % c.p) x₁ y₁ x₂

def smul (q : Point) : Nat → Point
  | 0 => .infinity
  | k + 1 =>
    let half := smul q ((k + 1) / 2)
    if (k + 1) % 2 = 0 then c.add half half else c.add (c.add half half) q
termination_by k => k
decreasing_by omega

def hasSquareY : Point → Bool
  | .infinity => false
  | .affine _ y => (Modular.sqrt? c.p y).isSome

end Curve

end ScriptMachine
