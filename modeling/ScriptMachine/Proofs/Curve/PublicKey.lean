import ScriptMachine.Bytes.Lemmas
import ScriptMachine.Curve.PublicKey
import ScriptMachine.Proofs.Curve.PrimeOrder

/-!
# Public keys are read back

A point of the curve is recovered from either of its written forms. In the short form, its second
coordinate is the one of two roots that has the given parity, as the roots add up to an odd number.
-/

namespace ScriptMachine.Curve.PrimeOrder

variable {c : Curve} {q : Point} (hc : c.PrimeOrder)

include hc

theorem exists_sqrt?_cubic {x y : Nat} (hon : c.isOn (.affine x y) = true) :
    ∃ r, Modular.sqrt? c.p (c.cubic x) = some r ∧ (r = y ∨ 0 < y ∧ r = c.p - y) := by
  have := Fact.mk hc.prime_p
  obtain ⟨-, hy, hequation⟩ := isOn_affine_iff.mp hon
  rw [equation_weierstrass_iff, ← cast_cubic] at hequation
  have hsquare : IsSquare (c.cubic x : ZMod c.p) := ⟨y, by rw [← sq, hequation]⟩
  have hcubic : c.cubic x < c.p := Nat.mod_lt _ hc.prime_p.pos
  obtain ⟨r, hr⟩ := Option.isSome_iff_exists.mp
    ((Modular.isSome_sqrt?_iff hc.prime_p hc.p_mod_four hcubic).mpr hsquare)
  refine ⟨r, hr, ?_⟩
  obtain ⟨hroot, hpower⟩ := Modular.sqrt?_eq_some hr
  have hlt : r < c.p := by
    rw [hpower]
    exact Modular.pow_lt hc.prime_p.pos _ _
  have hsquares : (r : ZMod c.p) ^ 2 = (y : ZMod c.p) ^ 2 := by
    rw [hequation, ← hroot, ZMod.natCast_mod, Nat.cast_mul, sq]
  rcases sq_eq_sq_iff_eq_or_eq_neg.mp hsquares with heq | hneg
  · exact .inl (eq_of_cast_eq hlt hy heq)
  · rcases Nat.eq_zero_or_pos y with rfl | hpos
    · left
      apply eq_of_cast_eq hlt hy
      rw [hneg, Nat.cast_zero, neg_zero]
    · refine .inr ⟨hpos, eq_of_cast_eq hlt (by omega) ?_⟩
      rw [hneg, Nat.cast_sub hy.le, ZMod.natCast_self, zero_sub]

/-- A point is lifted from its first coordinate and the parity of the second one. -/
theorem lift?_eq {x y : Nat} (hon : c.isOn (.affine x y) = true) :
    c.lift? x (y % 2) = some (.affine x y) := by
  have := Fact.mk hc.prime_p
  obtain ⟨hx, hy, -⟩ := isOn_affine_iff.mp hon
  have hodd : c.p % 2 = 1 := by
    have := hc.p_mod_four
    omega
  obtain ⟨r, hr, rfl | ⟨hpos, rfl⟩⟩ := hc.exists_sqrt?_cubic hon
  · simp [lift?, hx, hr]
  · have hparity : ¬ (c.p - y) % 2 = y % 2 := by omega
    have hmirror : Modular.sub c.p 0 (c.p - y) = y := by
      apply eq_of_cast_eq (Modular.sub_lt hc.prime_p.pos _ _) hy
      rw [Modular.cast_sub, Nat.cast_sub hy.le, ZMod.natCast_self]
      ring
    simp [lift?, hx, hr, hparity, hmirror]

theorem isOn_of_lift? {x parity : Nat} (h : c.lift? x parity = some q) : c.isOn q = true := by
  have := Fact.mk hc.prime_p
  unfold lift? at h
  split_ifs at h with hx
  obtain ⟨r, hr, rfl⟩ := Option.map_eq_some_iff.mp h
  obtain ⟨hroot, hpower⟩ := Modular.sqrt?_eq_some hr
  have hlt : r < c.p := by
    rw [hpower]
    exact Modular.pow_lt hc.prime_p.pos _ _
  have hequation : (r : ZMod c.p) ^ 2 = (x : ZMod c.p) ^ 3 + c.b := by
    rw [← cast_cubic, ← hroot, ZMod.natCast_mod, Nat.cast_mul, sq]
  rw [isOn_affine_iff, equation_weierstrass_iff]
  split_ifs with hparity
  · exact ⟨hx, hlt, hequation⟩
  · refine ⟨hx, Modular.sub_lt hc.prime_p.pos _ _, ?_⟩
    rw [Modular.cast_sub, Nat.cast_zero, zero_sub, neg_sq, hequation]

theorem isOn_of_readKey? {key : Bytes} (h : c.readKey? key = some q) : c.isOn q = true := by
  unfold readKey? at h
  split at h
  · cases h
  · rename_i tag rest
    dsimp only at h
    split_ifs at h with htag hlong hon hshort heven hodd
    · cases h
      exact hon
    · exact hc.isOn_of_lift? h
    · exact hc.isOn_of_lift? h

/-- Both written forms of a point other than infinity are read back. -/
theorem readKey?_write (hwidth : c.p ≤ 256 ^ 32) (hon : c.isOn q = true) (hq : q ≠ .infinity)
    (compressed : Bool) : c.readKey? (q.write compressed) = some q := by
  have := Fact.mk hc.prime_p
  cases q with
  | infinity => exact absurd rfl hq
  | affine x y =>
    obtain ⟨hx, hy, -⟩ := isOn_affine_iff.mp hon
    have hreadX := Bytes.toNatBE_ofNatBE (hx.trans_le hwidth)
    have hreadY := Bytes.toNatBE_ofNatBE (hy.trans_le hwidth)
    cases compressed with
    | false =>
      have htake : (Bytes.ofNatBE 32 x ++ Bytes.ofNatBE 32 y).take 32 = Bytes.ofNatBE 32 x :=
        List.take_left' (Bytes.length_ofNatBE 32 x)
      have hdrop : (Bytes.ofNatBE 32 x ++ Bytes.ofNatBE 32 y).drop 32 = Bytes.ofNatBE 32 y :=
        List.drop_left' (Bytes.length_ofNatBE 32 x)
      simp [Point.write, readKey?, htake, hdrop, hreadX, hreadY, hon]
    | true =>
      have hlift := hc.lift?_eq hon
      rcases Nat.mod_two_eq_zero_or_one y with hparity | hparity
      · rw [hparity] at hlift
        simp [Point.write, readKey?, hparity, hreadX, hlift]
      · rw [hparity] at hlift
        simp [Point.write, readKey?, hparity, hreadX, hlift]

end ScriptMachine.Curve.PrimeOrder
