import Mathlib.NumberTheory.LucasPrimality
import ScriptMachine.Curve.Point
import ScriptMachine.Proofs.Curve.Residue

/-!
# The primes of the curve

Lucas's test shows that a number is prime by an element of order one less, for which the factors of
that order have to be known to be prime. A list of such facts, each of which may use those after it,
is checked by evaluation. Two lists show that the coordinates of the curve in use are in a field,
and that its order is prime.
-/

namespace ScriptMachine.Primality

/-- A base for Lucas's test, and the prime factors of the order with their exponents. -/
structure Certificate where
  number : Nat
  base : Nat
  factors : List (Nat × Nat)

/-- Lucas's test. Factors are among the `known` primes, or found to be prime by trial division. -/
def Certificate.holds (known : List Nat) (t : Certificate) : Bool :=
  2 ≤ t.number && (t.factors.map fun f ↦ f.1 ^ f.2).prod == t.number - 1 &&
    Modular.pow t.number t.base (t.number - 1) == 1 &&
    t.factors.all fun f ↦ (known.contains f.1 || 2 ≤ f.1 && f.1.minFac == f.1) &&
      Modular.pow t.number t.base ((t.number - 1) / f.1) != 1

/-- Each certificate holds if the numbers of those after it are prime. -/
def certifies : List Certificate → Bool
  | [] => true
  | t :: rest => t.holds (rest.map Certificate.number) && certifies rest

theorem pow_eq_one_iff {m : Nat} (hm : 2 ≤ m) (a e : Nat) :
    (a : ZMod m) ^ e = 1 ↔ Modular.pow m a e = 1 := by
  rw [Modular.pow_eq, ← Nat.cast_pow, ← Nat.cast_one, ZMod.natCast_eq_natCast_iff',
    Nat.mod_eq_of_lt hm]

theorem Certificate.prime_of_holds {known : List Nat} {t : Certificate}
    (hknown : ∀ q ∈ known, q.Prime) (h : t.holds known = true) : t.number.Prime := by
  simp only [holds, Bool.and_eq_true, Bool.or_eq_true, decide_eq_true_eq, beq_iff_eq, bne_iff_ne,
    List.all_eq_true, List.contains_iff_mem] at h
  obtain ⟨⟨⟨htwo, hproduct⟩, hone⟩, hfactors⟩ := h
  apply lucas_primality t.number t.base
  · exact (pow_eq_one_iff htwo _ _).mpr hone
  · intro q hq hdvd
    rw [← hproduct, hq.prime.dvd_prod_iff] at hdvd
    obtain ⟨power, hpower, hdvd⟩ := hdvd
    obtain ⟨f, hf, rfl⟩ := List.mem_map.mp hpower
    obtain ⟨hprime, hne⟩ := hfactors f hf
    have hfactor : f.1.Prime := by
      rcases hprime with hmem | htrial
      · exact hknown f.1 hmem
      · exact Nat.prime_def_minFac.mpr htrial
    have heq : q = f.1 := (Nat.prime_dvd_prime_iff_eq hq hfactor).mp (hq.dvd_of_dvd_pow hdvd)
    rw [heq]
    exact mt (pow_eq_one_iff htwo _ _).mp hne

theorem prime_of_certifies {ts : List Certificate} (h : certifies ts = true) :
    ∀ t ∈ ts, t.number.Prime := by
  induction ts with
  | nil => simp
  | cons t rest ih =>
    rw [certifies, Bool.and_eq_true] at h
    have hrest := ih h.2
    refine List.forall_mem_cons.mpr ⟨?_, hrest⟩
    apply Certificate.prime_of_holds _ h.1
    simpa using hrest

/-- The order of the field, and the primes that its certificate needs. -/
def fieldCertificates : List Certificate :=
  [⟨Curve.secp256k1.p, 3, [(2, 1), (3, 1), (7, 1), (13441, 1),
      (205115282021455665897114700593932402728804164701536103180137503955397371, 1)]⟩,
    ⟨205115282021455665897114700593932402728804164701536103180137503955397371, 10,
      [(2, 1), (3, 1), (5, 1), (29, 2), (31, 1), (7723, 1), (132896956044521568488119, 1),
        (255515944373312847190720520512484175977, 1)]⟩,
    ⟨255515944373312847190720520512484175977, 3,
      [(2, 3), (7, 2), (11, 1), (1627, 1), (2657, 1), (4423, 1), (41201, 1), (96557, 1),
        (7240687, 1), (107590001, 1)]⟩,
    ⟨132896956044521568488119, 6, [(2, 1), (3, 1), (22149492674086928081353, 1)]⟩,
    ⟨22149492674086928081353, 5, [(2, 3), (3, 1), (5323, 1), (173378833005251801, 1)]⟩,
    ⟨173378833005251801, 6, [(2, 3), (5, 2), (2621, 1), (24809, 1), (13331831, 1)]⟩,
    ⟨107590001, 3, [(2, 4), (5, 4), (7, 1), (29, 1), (53, 1)]⟩,
    ⟨13331831, 13, [(2, 1), (5, 1), (971, 1), (1373, 1)]⟩]

/-- The order of the base point, and the primes that its certificate needs. -/
def orderCertificates : List Certificate :=
  [⟨Curve.secp256k1.n, 7, [(2, 6), (3, 1), (149, 1), (631, 1), (107361793816595537, 1),
      (174723607534414371449, 1), (341948486974166000522343609283189, 1)]⟩,
    ⟨341948486974166000522343609283189, 2,
      [(2, 2), (3, 3), (109, 1), (29047611873442575647497758179, 1)]⟩,
    ⟨29047611873442575647497758179, 2,
      [(2, 1), (293, 1), (305873, 1), (545358713, 1), (297159362677, 1)]⟩,
    ⟨297159362677, 2, [(2, 2), (3, 2), (11, 1), (461, 1), (1627771, 1)]⟩,
    ⟨545358713, 5, [(2, 3), (41, 1), (59, 1), (28181, 1)]⟩,
    ⟨174723607534414371449, 3, [(2, 3), (17, 1), (59, 1), (4051, 1), (120233, 1), (44706919, 1)]⟩,
    ⟨107361793816595537, 3, [(2, 4), (16699, 1), (85831, 1), (4681609, 1)]⟩,
    ⟨44706919, 6, [(2, 1), (3, 1), (797, 1), (9349, 1)]⟩]

end ScriptMachine.Primality

namespace ScriptMachine.Curve

theorem prime_p_secp256k1 : secp256k1.p.Prime := by
  have hcertifies : Primality.certifies Primality.fieldCertificates = true := by decide +kernel
  exact Primality.prime_of_certifies hcertifies _ List.mem_cons_self

theorem prime_n_secp256k1 : secp256k1.n.Prime := by
  have hcertifies : Primality.certifies Primality.orderCertificates = true := by decide +kernel
  exact Primality.prime_of_certifies hcertifies _ List.mem_cons_self

end ScriptMachine.Curve
