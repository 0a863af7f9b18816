/-!
# Arithmetic modulo a number

Residues are naturals below the modulus. Division goes through Euclid's algorithm. Square roots go
through powers, which is right for a prime modulus that leaves remainder three modulo four.
-/

namespace ScriptMachine.Modular

def sub (m a b : Nat) : Nat := (a + (m - b % m)) % m

def pow (m base : Nat) : Nat → Nat
  | 0 => 1 % m
  | e + 1 =>
    let half := pow m base ((e + 1) / 2)
    if (e + 1) % 2 = 0 then half * half % m else half * half % m * base % m
termination_by e => e
decreasing_by omega

/-- Divides `r₀` by `r₁`, then the divisor by the remainder, and so on to the end. The coefficients
are kept such that each remainder is, up to a multiple of the modulus, its coefficient times the
residue that is inverted. Returns that of the last remainder. -/
def coefficient (r₀ r₁ : Nat) (t₀ t₁ : Int) : Int :=
  if _h : r₁ = 0 then t₀ else coefficient r₁ (r₀ % r₁) t₁ (t₀ - (r₀ / r₁ : Nat) * t₁)
termination_by r₁
decreasing_by exact Nat.mod_lt _ (Nat.pos_of_ne_zero _h)

def inv (m a : Nat) : Nat := (coefficient m (a % m) 0 1 % m).toNat

def sqrt? (m a : Nat) : Option Nat :=
  let r := pow m a ((m + 1) / 4)
  if r * r % m = a then some r else none

end ScriptMachine.Modular
