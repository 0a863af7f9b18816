import Mathlib.AlgebraicGeometry.EllipticCurve.Affine.Point
import Mathlib.Tactic.LinearCombination
import ScriptMachine.Curve.Point
import ScriptMachine.Proofs.Curve.Residue

/-!
# The group of a curve

Points given by residues stand for the points of a Weierstrass curve over a prime field. The chord
and tangent law on residues is the addition of that group, and doubling computes multiples in it.
-/

namespace ScriptMachine.Curve

variable {c : Curve} {q q' : Point}

/-- The curve over the field of its coordinates. -/
def weierstrass (c : Curve) : WeierstrassCurve.Affine (ZMod c.p) := ⟨0, 0, 0, 0, c.b⟩

/-- A point given by residues stands for a point of the group. -/
inductive Denotes (c : Curve) : Point → c.weierstrass.Point → Prop
  | infinity : Denotes c .infinity .zero
  | affine {x y : Nat} (hx : x < c.p) (hy : y < c.p) (h : c.weierstrass.Nonsingular x y) :
      Denotes c (.affine x y) (.some x y h)

theorem Denotes.of_cast {x y : Nat} {x' y' : ZMod c.p} (hx : x < c.p) (hy : y < c.p)
    (h : c.weierstrass.Nonsingular x' y') (hx' : (x : ZMod c.p) = x') (hy' : (y : ZMod c.p) = y') :
    c.Denotes (.affine x y) (.some x' y' h) := by
  subst hx' hy'
  exact .affine hx hy h

theorem eq_of_cast_eq {p a b : Nat} (ha : a < p) (hb : b < p) (h : (a : ZMod p) = b) : a = b := by
  rwa [ZMod.natCast_eq_natCast_iff', Nat.mod_eq_of_lt ha, Nat.mod_eq_of_lt hb] at h

/-- Residues are determined by the elements of the field, and so points by those of the group. -/
theorem Denotes.left_unique {P : c.weierstrass.Point} (h : c.Denotes q P) (h' : c.Denotes q' P) :
    q = q' := by
  generalize hP : P = P' at h'
  cases h with
  | infinity =>
    cases h' with
    | infinity => rfl
    | affine => cases hP
  | affine hx hy hon =>
    cases h' with
    | infinity => cases hP
    | affine hx' hy' =>
      simp only [WeierstrassCurve.Affine.Point.some.injEq] at hP
      rw [eq_of_cast_eq hx hx' hP.1, eq_of_cast_eq hy hy' hP.2]

theorem Denotes.right_unique {P P' : c.weierstrass.Point} (h : c.Denotes q P)
    (h' : c.Denotes q P') : P = P' := by
  cases h <;> cases h' <;> rfl

theorem Denotes.eq_infinity_iff {P : c.weierstrass.Point} (h : c.Denotes q P) :
    q = .infinity ↔ P = 0 := by
  cases h with
  | infinity => exact ⟨fun _ ↦ rfl, fun _ ↦ rfl⟩
  | affine hx hy hon =>
    have hne := WeierstrassCurve.Affine.Point.some_ne_zero hon
    exact ⟨nofun, fun h ↦ absurd h hne⟩

/-! ## Equations -/

theorem negY_weierstrass (x y : ZMod c.p) : c.weierstrass.negY x y = -y := by
  simp [weierstrass, WeierstrassCurve.Affine.negY]

theorem addX_weierstrass (x₁ x₂ slope : ZMod c.p) :
    c.weierstrass.addX x₁ x₂ slope = slope ^ 2 - (x₁ + x₂) := by
  simp [weierstrass, WeierstrassCurve.Affine.addX, sub_sub]

theorem addY_weierstrass (x₁ x₂ y₁ slope : ZMod c.p) :
    c.weierstrass.addY x₁ x₂ y₁ slope = slope * (x₁ - (slope ^ 2 - (x₁ + x₂))) - y₁ := by
  rw [WeierstrassCurve.Affine.addY, negY_weierstrass, WeierstrassCurve.Affine.negAddY,
    addX_weierstrass]
  ring

theorem equation_weierstrass_iff (x y : ZMod c.p) :
    c.weierstrass.Equation x y ↔ y ^ 2 = x ^ 3 + c.b := by
  simp [weierstrass, WeierstrassCurve.Affine.equation_iff]

section Field

variable [Fact c.p.Prime]

@[simp]
theorem cast_cubic (x : Nat) : ((c.cubic x : Nat) : ZMod c.p) = (x : ZMod c.p) ^ 3 + c.b := by
  simp only [cubic, ZMod.natCast_mod, Nat.cast_add, Nat.cast_mul]
  ring

theorem isOn_affine_iff {x y : Nat} :
    c.isOn (.affine x y) = true ↔ x < c.p ∧ y < c.p ∧ c.weierstrass.Equation x y := by
  have hcubic : c.cubic x % c.p = c.cubic x := Nat.mod_mod _ _
  have hequation : y * y % c.p = c.cubic x ↔ (y : ZMod c.p) ^ 2 = (x : ZMod c.p) ^ 3 + c.b := by
    rw [← hcubic, ← ZMod.natCast_eq_natCast_iff', cast_cubic, Nat.cast_mul, sq]
  rw [equation_weierstrass_iff, ← hequation]
  simp [isOn, and_assoc]

/-- Where the discriminant is not zero, no point is singular. -/
theorem nonsingular_of_equation (hsmooth : ¬ c.p ∣ 6 * c.b) {x y : ZMod c.p}
    (h : c.weierstrass.Equation x y) : c.weierstrass.Nonsingular x y := by
  apply (WeierstrassCurve.Affine.equation_iff_nonsingular_of_Δ_ne_zero _).mp h
  intro hzero
  have hpower : ((6 * c.b : Nat) : ZMod c.p) ^ 4 = -(3 * c.b ^ 2) * c.weierstrass.Δ := by
    simp only [WeierstrassCurve.Δ, WeierstrassCurve.b₂, WeierstrassCurve.b₄, WeierstrassCurve.b₆,
      WeierstrassCurve.b₈, weierstrass]
    push_cast
    ring
  rw [hzero, mul_zero] at hpower
  exact hsmooth ((ZMod.natCast_eq_zero_iff _ _).mp (eq_zero_of_pow_eq_zero hpower))

theorem exists_denotes_iff (hsmooth : ¬ c.p ∣ 6 * c.b) :
    (∃ P, c.Denotes q P) ↔ c.isOn q = true := by
  constructor
  · rintro ⟨P, hP⟩
    cases hP with
    | infinity => rfl
    | affine hx hy hon => exact isOn_affine_iff.mpr ⟨hx, hy, hon.1⟩
  · intro h
    cases q with
    | infinity => exact ⟨_, .infinity⟩
    | affine x y =>
      obtain ⟨hx, hy, hon⟩ := isOn_affine_iff.mp h
      exact ⟨_, .affine hx hy (nonsingular_of_equation hsmooth hon)⟩

/-! ## Sums and multiples -/

theorem Denotes.neg {P : c.weierstrass.Point} (h : c.Denotes q P) : c.Denotes (c.neg q) (-P) := by
  cases h with
  | infinity => exact .infinity
  | affine hx hy hon =>
    apply Denotes.of_cast hx (Modular.sub_lt (NeZero.pos _) _ _) _ rfl
    rw [Modular.cast_sub, negY_weierstrass, Nat.cast_zero, zero_sub]

/-- The point on a line through two points is the sum where the slope is that of the group. -/
theorem denotes_chord {x₁ y₁ x₂ slope : Nat} {y₂ : ZMod c.p}
    (hslope : (slope : ZMod c.p) = c.weierstrass.slope x₁ x₂ y₁ y₂)
    (h : c.weierstrass.Nonsingular
      (c.weierstrass.addX x₁ x₂ (c.weierstrass.slope x₁ x₂ y₁ y₂))
      (c.weierstrass.addY x₁ x₂ y₁ (c.weierstrass.slope x₁ x₂ y₁ y₂))) :
    c.Denotes (c.chord slope x₁ y₁ x₂) (.some _ _ h) := by
  have hp := NeZero.pos c.p
  have hx : ((Modular.sub c.p (slope * slope % c.p) (x₁ + x₂) : Nat) : ZMod c.p) =
      (slope : ZMod c.p) ^ 2 - (x₁ + x₂) := by
    rw [Modular.cast_sub, ZMod.natCast_mod]
    push_cast
    ring
  apply Denotes.of_cast (Modular.sub_lt hp _ _) (Modular.sub_lt hp _ _)
  · rw [hx, hslope, addX_weierstrass]
  · rw [Modular.cast_sub, ZMod.natCast_mod, Nat.cast_mul, Modular.cast_sub, hx, hslope,
      addY_weierstrass]

theorem Denotes.add {P P' : c.weierstrass.Point} (h : c.Denotes q P) (h' : c.Denotes q' P') :
    c.Denotes (c.add q q') (P + P') := by
  cases h with
  | infinity =>
    rw [← WeierstrassCurve.Affine.Point.zero_def, zero_add]
    exact h'
  | @affine x₁ y₁ hx₁ hy₁ hon₁ =>
    cases h' with
    | infinity => exact .affine hx₁ hy₁ hon₁
    | @affine x₂ y₂ hx₂ hy₂ hon₂ =>
      by_cases hx : x₁ = x₂
      · subst hx
        have hopposite : (y₁ + y₂) % c.p = 0 ↔
            (y₁ : ZMod c.p) = c.weierstrass.negY x₁ y₂ := by
          rw [negY_weierstrass, eq_neg_iff_add_eq_zero, ← Nat.cast_add,
            ZMod.natCast_eq_zero_iff, Nat.dvd_iff_mod_eq_zero]
        by_cases hy : (y₁ + y₂) % c.p = 0
        · have hsum : c.add (.affine x₁ y₁) (.affine x₁ y₂) = .infinity := by
            simp [Curve.add, hy]
          rw [hsum, WeierstrassCurve.Affine.Point.add_of_Y_eq rfl (hopposite.mp hy)]
          exact .infinity
        · have hne := mt hopposite.mpr hy
          rw [Curve.add, if_pos rfl, if_neg hy, WeierstrassCurve.Affine.Point.add_of_Y_ne hne]
          apply denotes_chord
          rw [WeierstrassCurve.Affine.slope_of_Y_ne rfl hne, negY_weierstrass, ZMod.natCast_mod,
            Nat.cast_mul, Modular.cast_inv Fact.out, ZMod.natCast_mod]
          simp only [weierstrass]
          push_cast
          rw [div_eq_mul_inv]
          ring
      · have hne : (x₁ : ZMod c.p) ≠ x₂ := fun heq ↦ hx (eq_of_cast_eq hx₁ hx₂ heq)
        rw [Curve.add, if_neg hx, WeierstrassCurve.Affine.Point.add_of_X_ne hne]
        apply denotes_chord
        rw [WeierstrassCurve.Affine.slope_of_X_ne hne, ZMod.natCast_mod, Nat.cast_mul,
          Modular.cast_inv Fact.out, Modular.cast_sub, Modular.cast_sub, ← neg_sub,
          ← neg_sub (x₁ : ZMod c.p), neg_mul, inv_neg, mul_neg, neg_neg, div_eq_mul_inv]

theorem Denotes.smul {P : c.weierstrass.Point} (h : c.Denotes q P) (k : Nat) :
    c.Denotes (c.smul q k) (k • P) := by
  fun_induction Curve.smul c q k with
  | case1 =>
    rw [zero_nsmul]
    exact .infinity
  | case2 k half heven ih =>
    have hsplit : (k + 1) • P = ((k + 1) / 2) • P + ((k + 1) / 2) • P := by
      rw [← add_nsmul]
      congr 1
      omega
    rw [hsplit]
    exact ih.add ih
  | case3 k half hodd ih =>
    have hsplit : (k + 1) • P = ((k + 1) / 2) • P + ((k + 1) / 2) • P + P := by
      rw [← add_nsmul, ← succ_nsmul]
      congr 1
      omega
    rw [hsplit]
    exact (ih.add ih).add h

end Field

end ScriptMachine.Curve
