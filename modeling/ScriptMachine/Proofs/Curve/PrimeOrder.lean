import ScriptMachine.Proofs.Curve.BaseOrder

/-!
# Curves with a base point of prime order

What keys and signatures need of a curve, and what follows for its points. Multiples of the base
point are told apart by their factors up to the order. Among two mirror images one has a second
coordinate that is a square, and that one is determined by the first coordinate.
-/

namespace ScriptMachine.Curve

/-- A curve over a prime field in which minus one is no square, without singular points, and with a
base point of prime order. -/
structure PrimeOrder (c : Curve) : Prop where
  prime_p : c.p.Prime
  p_mod_four : c.p % 4 = 3
  smooth : ¬ c.p ∣ 6 * c.b
  prime_n : c.n.Prime
  isOn_base : c.isOn c.base = true
  smul_base : c.smul c.base c.n = .infinity

theorem primeOrder_secp256k1 : secp256k1.PrimeOrder where
  prime_p := prime_p_secp256k1
  p_mod_four := by decide +kernel
  smooth := by decide +kernel
  prime_n := prime_n_secp256k1
  isOn_base := by decide +kernel
  smul_base := smul_base_secp256k1

namespace PrimeOrder

variable {c : Curve} {q : Point} (hc : c.PrimeOrder)

include hc

theorem exists_denotes [Fact c.p.Prime] (hq : c.isOn q = true) : ∃ P, c.Denotes q P :=
  (exists_denotes_iff hc.smooth).mpr hq

theorem exists_base [Fact c.p.Prime] :
    ∃ G : c.weierstrass.Point, c.Denotes c.base G ∧ addOrderOf G = c.n := by
  obtain ⟨G, hG⟩ := hc.exists_denotes hc.isOn_base
  refine ⟨G, hG, ?_⟩
  have := Fact.mk hc.prime_n
  apply addOrderOf_eq_prime
  · exact (hG.smul c.n).eq_infinity_iff.mp hc.smul_base
  · exact mt hG.eq_infinity_iff.mpr nofun

theorem isOn_smul (hq : c.isOn q = true) (k : Nat) : c.isOn (c.smul q k) = true := by
  have := Fact.mk hc.prime_p
  obtain ⟨P, hP⟩ := hc.exists_denotes hq
  exact (exists_denotes_iff hc.smooth).mp ⟨_, hP.smul k⟩

theorem smul_base_ne_infinity {k : Nat} (hpos : 0 < k) (hlt : k < c.n) :
    c.smul c.base k ≠ .infinity := by
  have := Fact.mk hc.prime_p
  obtain ⟨G, hG, horder⟩ := hc.exists_base
  rw [ne_eq, (hG.smul k).eq_infinity_iff, ← addOrderOf_dvd_iff_nsmul_eq_zero, horder]
  exact Nat.not_dvd_of_pos_of_lt hpos hlt

theorem smul_base_sub {k : Nat} (hle : k ≤ c.n) :
    c.smul c.base (c.n - k) = c.neg (c.smul c.base k) := by
  have := Fact.mk hc.prime_p
  obtain ⟨G, hG, horder⟩ := hc.exists_base
  have hneg : (c.n - k) • G = -(k • G) := by
    rw [sub_nsmul G hle, ← horder, addOrderOf_nsmul_eq_zero, zero_add]
  apply (hG.smul (c.n - k)).left_unique
  rw [hneg]
  exact (hG.smul k).neg

/-! ## Square second coordinates -/

theorem hasSquareY_iff {x y : Nat} (hy : y < c.p) :
    c.hasSquareY (.affine x y) = true ↔ IsSquare (y : ZMod c.p) :=
  Modular.isSome_sqrt?_iff hc.prime_p hc.p_mod_four hy

theorem hasSquareY_neg {x y : Nat} (hy : y < c.p) (h : ¬ c.hasSquareY (.affine x y) = true) :
    c.hasSquareY (c.neg (.affine x y)) = true := by
  have := Fact.mk hc.prime_p
  rw [hc.hasSquareY_iff hy] at h
  rw [neg, hc.hasSquareY_iff (Modular.sub_lt hc.prime_p.pos 0 y), Modular.cast_sub, Nat.cast_zero,
    zero_sub]
  exact Modular.isSquare_neg_of_not_isSquare hc.p_mod_four h

theorem eq_of_hasSquareY {x y y' : Nat} (hon : c.isOn (.affine x y) = true)
    (hon' : c.isOn (.affine x y') = true) (h : c.hasSquareY (.affine x y) = true)
    (h' : c.hasSquareY (.affine x y') = true) : y = y' := by
  have := Fact.mk hc.prime_p
  obtain ⟨-, hy, hequation⟩ := isOn_affine_iff.mp hon
  obtain ⟨-, hy', hequation'⟩ := isOn_affine_iff.mp hon'
  rw [hc.hasSquareY_iff hy] at h
  rw [hc.hasSquareY_iff hy'] at h'
  apply eq_of_cast_eq hy hy'
  rcases WeierstrassCurve.Affine.Y_eq_of_X_eq hequation hequation' rfl with heq | hneg
  · exact heq
  · rw [negY_weierstrass] at hneg
    have hzero : (y' : ZMod c.p) = 0 :=
      Modular.eq_zero_of_isSquare_neg hc.p_mod_four h' (hneg ▸ h)
    rw [hneg, hzero, neg_zero]

end PrimeOrder

end ScriptMachine.Curve
