import Mathlib.Tactic.FieldSimp
import ScriptMachine.Proofs.Curve.GroupLaw
import ScriptMachine.Proofs.Curve.Primality

/-!
# The order of the base point

Multiples of the base point are computed without division: the coordinates have powers of one
denominator, which only grows by factors. Where the denominator at the end is not zero, none of the
factors was, so no step on the way met the special cases of the group law. For the curve in use this
shows that the multiple before the order is the mirror image of the base point.
-/

namespace ScriptMachine.Curve

/-- The point `(x / z², y / z³)`. -/
structure Triple where
  x : Nat
  y : Nat
  z : Nat

namespace Triple

variable (c : Curve)

def double (t : Triple) : Triple :=
  let square := t.y * t.y % c.p
  let product := 4 * t.x * square % c.p
  let slope := 3 * t.x * t.x % c.p
  let x := Modular.sub c.p (slope * slope) (2 * product)
  ⟨x, Modular.sub c.p (slope * Modular.sub c.p product x) (8 * square * square),
    2 * t.y * t.z % c.p⟩

def addBase (t : Triple) : Triple :=
  let square := t.z * t.z % c.p
  let run := Modular.sub c.p (c.baseX * square) t.x
  let rise := Modular.sub c.p (c.baseY * square * t.z) t.y
  let product := run * run % c.p
  let x := Modular.sub c.p (rise * rise) (run * product + 2 * t.x * product)
  ⟨x, Modular.sub c.p (rise * Modular.sub c.p (t.x * product) x) (t.y * run * product),
    t.z * run % c.p⟩

/-- The multiple of the base point, by doubling. -/
def multiple (k : Nat) : Triple :=
  if k ≤ 1 then ⟨c.baseX, c.baseY, 1⟩
  else
    let twice := (multiple (k / 2)).double c
    if k % 2 = 0 then twice else twice.addBase c
termination_by k

variable {c} [Fact c.p.Prime] {t : Triple}

/-- A triple stands for a point of the group. -/
structure Represents (c : Curve) [Fact c.p.Prime] (t : Triple) (P : c.weierstrass.Point) :
    Prop where
  z_ne_zero : (t.z : ZMod c.p) ≠ 0
  exists_eq : ∃ h : c.weierstrass.Nonsingular (t.x / t.z ^ 2 : ZMod c.p) (t.y / t.z ^ 3),
    P = .some _ _ h

theorem Represents.of_eq {x y : ZMod c.p} {h : c.weierstrass.Nonsingular x y}
    (hz : (t.z : ZMod c.p) ≠ 0) (hx : (t.x / t.z ^ 2 : ZMod c.p) = x)
    (hy : (t.y / t.z ^ 3 : ZMod c.p) = y) : Represents c t (.some x y h) := by
  subst hx hy
  exact ⟨hz, h, rfl⟩

/-! ## Doubling and adding -/

theorem cast_z_double (t : Triple) :
    ((t.double c).z : ZMod c.p) = 2 * t.y * t.z := by
  simp [double]

theorem cast_x_double (t : Triple) :
    ((t.double c).x : ZMod c.p) = 9 * t.x ^ 4 - 8 * t.x * t.y ^ 2 := by
  simp only [double, Modular.cast_sub]
  push_cast [ZMod.natCast_mod]
  ring

theorem cast_y_double (t : Triple) :
    ((t.double c).y : ZMod c.p) =
      3 * t.x ^ 2 * (4 * t.x * t.y ^ 2 - (t.double c).x) - 8 * t.y ^ 4 := by
  simp only [double, Modular.cast_sub]
  push_cast [ZMod.natCast_mod, Modular.cast_sub]
  ring

theorem Represents.double {P : c.weierstrass.Point} (h : Represents c t P)
    (hz : ((t.double c).z : ZMod c.p) ≠ 0) : Represents c (t.double c) (P + P) := by
  obtain ⟨hz₁, hon, rfl⟩ := h
  have hfactors := hz
  rw [cast_z_double] at hfactors
  have htwo : (2 : ZMod c.p) ≠ 0 := left_ne_zero_of_mul (left_ne_zero_of_mul hfactors)
  have hy₁ : (t.y : ZMod c.p) ≠ 0 := right_ne_zero_of_mul (left_ne_zero_of_mul hfactors)
  have hne : (t.y / t.z ^ 3 : ZMod c.p) ≠
      c.weierstrass.negY (t.x / t.z ^ 2) (t.y / t.z ^ 3) := by
    rw [negY_weierstrass, ne_eq, eq_neg_iff_add_eq_zero, ← two_mul]
    exact mul_ne_zero htwo (div_ne_zero hy₁ (pow_ne_zero 3 hz₁))
  have hslope : c.weierstrass.slope (t.x / t.z ^ 2 : ZMod c.p) (t.x / t.z ^ 2) (t.y / t.z ^ 3)
      (t.y / t.z ^ 3) = 3 * t.x ^ 2 / (2 * t.y * t.z) := by
    rw [WeierstrassCurve.Affine.slope_of_Y_ne rfl hne, negY_weierstrass]
    simp only [weierstrass]
    rw [sub_neg_eq_add, ← two_mul]
    field_simp
    ring
  rw [WeierstrassCurve.Affine.Point.add_self_of_Y_ne hne]
  apply Represents.of_eq hz
  · rw [cast_z_double, cast_x_double, hslope, addX_weierstrass]
    field_simp
    ring
  · rw [cast_z_double, cast_y_double, cast_x_double, hslope, addY_weierstrass]
    field_simp
    ring

theorem cast_z_addBase (t : Triple) :
    ((t.addBase c).z : ZMod c.p) = t.z * (c.baseX * t.z ^ 2 - t.x) := by
  simp only [addBase, ZMod.natCast_mod, Nat.cast_mul, Modular.cast_sub]
  ring

theorem cast_x_addBase (t : Triple) :
    ((t.addBase c).x : ZMod c.p) =
      (c.baseY * t.z ^ 3 - t.y) ^ 2 - (c.baseX * t.z ^ 2 - t.x) ^ 3 -
        2 * t.x * (c.baseX * t.z ^ 2 - t.x) ^ 2 := by
  simp only [addBase, Modular.cast_sub]
  push_cast [ZMod.natCast_mod, Modular.cast_sub]
  ring

theorem cast_y_addBase (t : Triple) :
    ((t.addBase c).y : ZMod c.p) =
      (c.baseY * t.z ^ 3 - t.y) * (t.x * (c.baseX * t.z ^ 2 - t.x) ^ 2 - (t.addBase c).x) -
        t.y * (c.baseX * t.z ^ 2 - t.x) ^ 3 := by
  simp only [addBase, Modular.cast_sub]
  push_cast [ZMod.natCast_mod, Modular.cast_sub]
  ring

theorem Represents.addBase {P : c.weierstrass.Point}
    {hbase : c.weierstrass.Nonsingular c.baseX c.baseY} (h : Represents c t P)
    (hz : ((t.addBase c).z : ZMod c.p) ≠ 0) :
    Represents c (t.addBase c) (P + .some _ _ hbase) := by
  obtain ⟨hz₁, hon, rfl⟩ := h
  obtain ⟨run, hrun⟩ : ∃ run : ZMod c.p, run = c.baseX * t.z ^ 2 - t.x := ⟨_, rfl⟩
  have hrun_ne : run ≠ 0 := by
    rw [cast_z_addBase, ← hrun] at hz
    exact right_ne_zero_of_mul hz
  have hbaseX : (c.baseX : ZMod c.p) = (run + t.x) / t.z ^ 2 := by
    rw [hrun, sub_add_cancel, mul_div_cancel_right₀ _ (pow_ne_zero 2 hz₁)]
  have hdifference : (t.x / t.z ^ 2 - c.baseX : ZMod c.p) = -(run / t.z ^ 2) := by
    rw [hbaseX]
    ring
  have hne : (t.x / t.z ^ 2 : ZMod c.p) ≠ c.baseX := by
    rw [← sub_ne_zero, hdifference]
    exact neg_ne_zero.mpr (div_ne_zero hrun_ne (pow_ne_zero 2 hz₁))
  have hslope : c.weierstrass.slope (t.x / t.z ^ 2 : ZMod c.p) c.baseX (t.y / t.z ^ 3) c.baseY =
      (c.baseY * t.z ^ 3 - t.y) / (t.z * run) := by
    rw [WeierstrassCurve.Affine.slope_of_X_ne hne, hdifference]
    field_simp
    ring
  rw [WeierstrassCurve.Affine.Point.add_of_X_ne hne]
  apply Represents.of_eq hz
  · rw [cast_z_addBase, cast_x_addBase, hslope, addX_weierstrass, ← hrun, hbaseX]
    field_simp
    ring
  · rw [cast_z_addBase, cast_y_addBase, cast_x_addBase, hslope, addY_weierstrass, ← hrun, hbaseX]
    field_simp
    ring

/-! ## Multiples -/

/-- The denominator is a multiple of all that went before it, so it tells that no step failed. -/
theorem represents_multiple (hbase : c.weierstrass.Nonsingular c.baseX c.baseY) {k : Nat}
    (hk : 0 < k) (hz : ((multiple c k).z : ZMod c.p) ≠ 0) :
    Represents c (multiple c k) (k • .some _ _ hbase) := by
  fun_induction multiple c k with
  | case1 k hle =>
    obtain rfl : k = 1 := by omega
    rw [one_nsmul]
    apply Represents.of_eq hz <;> simp
  | case2 k hlt twice heven ih =>
    have hhalf : ((multiple c (k / 2)).z : ZMod c.p) ≠ 0 := by
      rw [cast_z_double] at hz
      exact right_ne_zero_of_mul hz
    have hsplit : k = k / 2 + k / 2 := by omega
    rw [hsplit, add_nsmul]
    exact (ih (by omega) hhalf).double hz
  | case3 k hlt twice hodd ih =>
    have htwice : (twice.z : ZMod c.p) ≠ 0 := by
      rw [cast_z_addBase] at hz
      exact left_ne_zero_of_mul hz
    have hhalf : ((multiple c (k / 2)).z : ZMod c.p) ≠ 0 := by
      rw [cast_z_double] at htwice
      exact right_ne_zero_of_mul htwice
    have hsplit : k = k / 2 + k / 2 + 1 := by omega
    rw [hsplit, succ_nsmul, add_nsmul]
    exact ((ih (by omega) hhalf).double htwice).addBase hz

/-- A triple whose quotients are known. -/
theorem Represents.denotes {P : c.weierstrass.Point} (h : Represents c t P) {x y : Nat}
    (hx : x < c.p) (hy : y < c.p) (hx' : x * t.z ^ 2 % c.p = t.x) (hy' : y * t.z ^ 3 % c.p = t.y) :
    c.Denotes (.affine x y) P := by
  obtain ⟨hz, hon, rfl⟩ := h
  apply Denotes.of_cast hx hy
  · rw [eq_div_iff (pow_ne_zero 2 hz), ← hx', ZMod.natCast_mod, Nat.cast_mul, Nat.cast_pow]
  · rw [eq_div_iff (pow_ne_zero 3 hz), ← hy', ZMod.natCast_mod, Nat.cast_mul, Nat.cast_pow]

/-- The coordinates are those of the triple. -/
def IsAt (c : Curve) (t : Triple) (x y : Nat) : Prop :=
  ¬ c.p ∣ t.z ∧ x < c.p ∧ y < c.p ∧ x * t.z ^ 2 % c.p = t.x ∧ y * t.z ^ 3 % c.p = t.y

instance (c : Curve) (t : Triple) (x y : Nat) : Decidable (IsAt c t x y) :=
  inferInstanceAs (Decidable (_ ∧ _))

end Triple

/-- Multiples of the base point are found without division. -/
theorem smul_base_eq_of_isAt {c : Curve} (hp : c.p.Prime) (hsmooth : ¬ c.p ∣ 6 * c.b)
    (hbase : c.isOn c.base = true) {k x y : Nat} (hk : 0 < k)
    (h : (Triple.multiple c k).IsAt c x y) : c.smul c.base k = .affine x y := by
  have := Fact.mk hp
  obtain ⟨hx, hy, hequation⟩ := isOn_affine_iff.mp hbase
  have hon := nonsingular_of_equation hsmooth hequation
  obtain ⟨hz, hcoordinates⟩ := h
  rw [← ZMod.natCast_eq_zero_iff] at hz
  have hmultiple := Triple.represents_multiple hon hk hz
  apply ((Denotes.affine hx hy hon).smul k).left_unique
  exact hmultiple.denotes hcoordinates.1 hcoordinates.2.1 hcoordinates.2.2.1 hcoordinates.2.2.2

/-- The multiple before the order is the mirror image of the base point. -/
theorem smul_base_secp256k1 : secp256k1.smul secp256k1.base secp256k1.n = .infinity := by
  have := Fact.mk prime_p_secp256k1
  have hsmooth : ¬ secp256k1.p ∣ 6 * secp256k1.b := by decide +kernel
  have hbase : secp256k1.isOn secp256k1.base = true := by decide +kernel
  have hlast : secp256k1.smul secp256k1.base (secp256k1.n - 1) = secp256k1.neg secp256k1.base :=
    smul_base_eq_of_isAt prime_p_secp256k1 hsmooth hbase (by decide) (by decide +kernel)
  obtain ⟨G, hG⟩ := (exists_denotes_iff hsmooth).mpr hbase
  have hneg : (secp256k1.n - 1) • G = -G := by
    apply (hG.smul (secp256k1.n - 1)).right_unique
    rw [hlast]
    exact hG.neg
  have hzero : secp256k1.n • G = 0 := by
    have hsplit : secp256k1.n = secp256k1.n - 1 + 1 := by decide
    rw [hsplit, succ_nsmul, hneg, neg_add_cancel]
  exact (hG.smul _).eq_infinity_iff.mpr hzero

end ScriptMachine.Curve
