import Mathlib.NumberTheory.LegendreSymbol.Basic
import ScriptMachine.Curve.Modular

/-!
# Residues as elements of a field

Arithmetic on residues is that of `ZMod m`. Modulo a prime, Euclid's algorithm gives the inverse of
the field. Modulo a prime that leaves three when divided by four, the power that is taken for a
square root is one exactly for the squares, and of a residue other than zero and its negative
exactly one is a square.
-/

namespace ScriptMachine.Modular

variable {m p a b r : Nat}

theorem sub_lt (hm : 0 < m) (a b : Nat) : sub m a b < m := Nat.mod_lt _ hm

@[simp]
theorem cast_sub [NeZero m] (a b : Nat) : ((sub m a b : Nat) : ZMod m) = a - b := by
  have hle : b % m ≤ m := (Nat.mod_lt b (NeZero.pos m)).le
  rw [sub, ZMod.natCast_mod, Nat.cast_add, Nat.cast_sub hle, ZMod.natCast_self, ZMod.natCast_mod]
  ring

theorem pow_eq (m a e : Nat) : pow m a e = a ^ e % m := by
  fun_induction pow m a e with
  | case1 => rw [pow_zero]
  | case2 e half heven ih =>
    have hsplit : a ^ (e + 1) = a ^ ((e + 1) / 2) * a ^ ((e + 1) / 2) := by
      rw [← pow_add]
      congr 1
      omega
    conv_rhs => rw [hsplit, Nat.mul_mod, ← ih]
  | case3 e half hodd ih =>
    have hsplit : a ^ (e + 1) = a ^ ((e + 1) / 2) * a ^ ((e + 1) / 2) * a := by
      rw [← pow_add, ← pow_succ]
      congr 1
      omega
    conv_rhs => rw [hsplit, ← Nat.mod_mul_mod, Nat.mul_mod (a ^ _), ← ih]

theorem pow_lt (hm : 0 < m) (a e : Nat) : pow m a e < m := by
  rw [pow_eq]
  exact Nat.mod_lt _ hm

@[simp]
theorem cast_pow (m a e : Nat) : ((pow m a e : Nat) : ZMod m) = (a : ZMod m) ^ e := by
  rw [pow_eq, ZMod.natCast_mod, Nat.cast_pow]

/-! ## Inverses -/

/-- The last remainder is the greatest common divisor, and its coefficient tells how often the
residue goes into it. -/
theorem coefficient_mul {r₀ r₁ : Nat} {t₀ t₁ : Int} {z : ZMod m} (h₀ : t₀ * z = r₀)
    (h₁ : t₁ * z = r₁) : (coefficient r₀ r₁ t₀ t₁ : ZMod m) * z = (r₀.gcd r₁ : Nat) := by
  fun_induction coefficient r₀ r₁ t₀ t₁ with
  | case1 r₀ t₀ t₁ => rwa [Nat.gcd_zero_right]
  | case2 r₀ r₁ t₀ t₁ hr ih =>
    have hdivision : (r₀ : ZMod m) = r₁ * (r₀ / r₁ : Nat) + (r₀ % r₁ : Nat) := by
      exact_mod_cast congrArg (Nat.cast (R := ZMod m)) (Nat.div_add_mod r₀ r₁).symm
    rw [Nat.gcd_comm r₀ r₁, Nat.gcd_rec r₁ r₀, Nat.gcd_comm]
    apply ih h₁
    rw [Int.cast_sub, Int.cast_mul, Int.cast_natCast]
    linear_combination h₀ - (r₀ / r₁ : Nat) * h₁ + hdivision

theorem cast_inv (hp : p.Prime) (a : Nat) :
    haveI := Fact.mk hp
    ((inv p a : Nat) : ZMod p) = (a : ZMod p)⁻¹ := by
  have := Fact.mk hp
  have hcast : ((inv p a : Nat) : ZMod p) = (coefficient p (a % p) 0 1 : ZMod p) := by
    have hnonneg : 0 ≤ coefficient p (a % p) 0 1 % p :=
      Int.emod_nonneg _ (by exact_mod_cast hp.ne_zero)
    rw [inv, ← Int.cast_natCast, Int.toNat_of_nonneg hnonneg, ZMod.intCast_mod]
  rw [hcast]
  by_cases ha : p ∣ a
  · rw [Nat.mod_eq_zero_of_dvd ha, (ZMod.natCast_eq_zero_iff a p).mpr ha, inv_zero]
    simp [coefficient]
  · have hcoprime : p.gcd (a % p) = 1 := by
      rw [Nat.gcd_comm, ← Nat.gcd_rec]
      exact (Nat.Prime.coprime_iff_not_dvd hp).mpr ha
    have hproduct : (coefficient p (a % p) 0 1 : ZMod p) * a = (p.gcd (a % p) : Nat) := by
      apply coefficient_mul
      · simp
      · simp
    rw [hcoprime, Nat.cast_one] at hproduct
    exact eq_inv_of_mul_eq_one_left hproduct

/-! ## Square roots -/

theorem sqrt?_eq_some (h : sqrt? m a = some r) : r * r % m = a ∧ r = pow m a ((m + 1) / 4) := by
  simp only [sqrt?] at h
  split_ifs at h with hroot
  cases h
  exact ⟨hroot, rfl⟩

/-- A square of the field has a root that is found. -/
theorem isSome_sqrt?_iff (hp : p.Prime) (hmod : p % 4 = 3) (ha : a < p) :
    (sqrt? p a).isSome ↔ IsSquare (a : ZMod p) := by
  have := Fact.mk hp
  constructor
  · intro h
    obtain ⟨r, hr⟩ := Option.isSome_iff_exists.mp h
    refine ⟨r, ?_⟩
    rw [← (sqrt?_eq_some hr).1, ZMod.natCast_mod, Nat.cast_mul]
  · intro hsquare
    have hpower : (a : ZMod p) ^ ((p + 1) / 4) * (a : ZMod p) ^ ((p + 1) / 4) = a := by
      rcases eq_or_ne (a : ZMod p) 0 with hzero | hne
      · rw [hzero, zero_pow (by omega), zero_mul]
      · have heuler := (ZMod.euler_criterion p hne).mp hsquare
        calc (a : ZMod p) ^ ((p + 1) / 4) * (a : ZMod p) ^ ((p + 1) / 4)
          _ = (a : ZMod p) ^ (p / 2) * a := by
            rw [← pow_add, ← pow_succ]
            congr 1
            omega
          _ = a := by rw [heuler, one_mul]
    have hroot : pow p a ((p + 1) / 4) * pow p a ((p + 1) / 4) % p = a := by
      apply (Nat.mod_eq_of_lt ha).subst (motive := fun n ↦ _ = n)
      apply (ZMod.natCast_eq_natCast_iff' _ _ _).mp
      simpa using hpower
    simp [sqrt?, hroot]

/-- Minus one is no square, so a square and its negative are not both squares. -/
theorem eq_zero_of_isSquare_neg [Fact p.Prime] (hmod : p % 4 = 3) {z : ZMod p} (h : IsSquare z)
    (hneg : IsSquare (-z)) : z = 0 := by
  by_contra hne
  have hminus : IsSquare (-1 : ZMod p) := by
    have hquotient := hneg.div h
    rwa [neg_div, div_self hne] at hquotient
  exact ZMod.exists_sq_eq_neg_one_iff.mp hminus hmod

theorem isSquare_neg_of_not_isSquare [Fact p.Prime] (hmod : p % 4 = 3) {z : ZMod p}
    (h : ¬ IsSquare z) : IsSquare (-z) := by
  have hz : z ≠ 0 := by
    rintro rfl
    exact h (IsSquare.zero)
  have hminus : (-1 : ZMod p) ^ (p / 2) = -1 := by
    apply Odd.neg_one_pow
    rw [Nat.odd_iff]
    omega
  apply (ZMod.euler_criterion p (neg_ne_zero.mpr hz)).mpr
  have hpower : z ^ (p / 2) = -1 :=
    (ZMod.pow_div_two_eq_neg_one_or_one p hz).resolve_left fun hone ↦
      h ((ZMod.euler_criterion p hz).mpr hone)
  rw [neg_pow, hminus, hpower]
  ring

end ScriptMachine.Modular
