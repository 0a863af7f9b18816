import ScriptMachine.Proofs.Curve.PublicKey
import ScriptMachine.Signature.Checker
import ScriptMachine.Signature.SecretKey

/-!
# Schnorr signatures

A verifier recovers the point that the signer started from, or its mirror image, as the secret
cancels out. So signatures verify. The first half of a signature determines the point, and the point
determines the scalar in the second half, so no second half other than the signer's verifies.
-/

namespace ScriptMachine.Signature.Schnorr

variable {c : Curve} {q : Point} {hash : Bytes → Bytes} {digest signature key : Bytes}

/-- A signature is accepted for a point whose second coordinate is a square. -/
theorem verify_eq_true_iff :
    verify hash c digest signature key = true ↔ ∃ q x y, c.readKey? key = some q ∧
      signature.length = length ∧ Bytes.toNatBE (signature.drop 32) < c.n ∧
      Bytes.toNatBE (signature.take 32) < c.p ∧
      commitment c q (Bytes.toNatBE (signature.drop 32))
        (challenge hash c (signature.take 32) q digest) = .affine x y ∧
      c.hasSquareY (.affine x y) = true ∧ Bytes.ofNatBE 32 x = signature.take 32 := by
  unfold verify
  cases hkey : c.readKey? key with
  | none => simp
  | some q =>
    dsimp only
    split_ifs with hbounds
    · cases hcommitment : commitment c q (Bytes.toNatBE (signature.drop 32))
        (challenge hash c (signature.take 32) q digest) with
      | infinity => simp [hcommitment]
      | affine x y => simp [hcommitment, hbounds]
    · simp only [Option.some.injEq, false_iff]
      rintro ⟨_, _, _, rfl, hlength, hs, hr, -⟩
      exact hbounds ⟨hlength, hs, hr⟩

section Commitments

variable (hc : c.PrimeOrder)

include hc

theorem isOn_commitment (hq : c.isOn q = true) (s e : Nat) :
    c.isOn (commitment c q s e) = true := by
  have := Fact.mk hc.prime_p
  obtain ⟨G, hG, -⟩ := hc.exists_base
  obtain ⟨P, hP⟩ := hc.exists_denotes hq
  exact (Curve.exists_denotes_iff hc.smooth).mp ⟨_, (hG.smul s).add (hP.smul e).neg⟩

theorem commitment_injOn (hq : c.isOn q = true) {s s' e : Nat} (hs : s < c.n) (hs' : s' < c.n)
    (h : commitment c q s e = commitment c q s' e) : s = s' := by
  have := Fact.mk hc.prime_p
  obtain ⟨G, hG, horder⟩ := hc.exists_base
  obtain ⟨P, hP⟩ := hc.exists_denotes hq
  have hpoints : s • G + -(e • P) = s' • G + -(e • P) := by
    apply ((hG.smul s).add (hP.smul e).neg).right_unique
    change c.Denotes (commitment c q s e) _
    rw [h]
    exact (hG.smul s').add (hP.smul e).neg
  have hmultiples := add_right_cancel hpoints
  rw [nsmul_eq_nsmul_iff_modEq, horder] at hmultiples
  exact hmultiples.eq_of_lt_of_lt hs hs'

/-- The part of the scalar that depends on the secret cancels out. -/
theorem commitment_response (secret k e : Nat) :
    commitment c (c.smul c.base secret) ((k + e * secret) % c.n) e = c.smul c.base k := by
  have := Fact.mk hc.prime_p
  obtain ⟨G, hG, horder⟩ := hc.exists_base
  have hcancel : ((k + e * secret) % c.n) • G + -(e • secret • G) = k • G := by
    rw [← horder, mod_addOrderOf_nsmul, add_nsmul, mul_nsmul', add_neg_cancel_right]
  apply Curve.Denotes.left_unique _ (hG.smul k)
  rw [← hcancel]
  exact (hG.smul _).add ((hG.smul secret).smul e).neg

/-- The multiple that the signer turns to keeps the first coordinate. -/
theorem exists_smul_base_eq {k x y : Nat} (hk : k < c.n) (hq : c.smul c.base k = .affine x y) :
    ∃ y', c.smul c.base (if c.hasSquareY (.affine x y) then k else c.n - k) = .affine x y' ∧
      c.hasSquareY (.affine x y') = true := by
  have := Fact.mk hc.prime_p
  split_ifs with hsquare
  · exact ⟨y, hq, hsquare⟩
  · have hon := hc.isOn_smul hc.isOn_base k
    rw [hq] at hon
    have hy := (Curve.isOn_affine_iff.mp hon).2.1
    refine ⟨Modular.sub c.p 0 y, ?_, hc.hasSquareY_neg hy hsquare⟩
    rw [hc.smul_base_sub hk.le, hq, Curve.neg]

/-- What a signature is made of. -/
theorem exists_of_sign? {secret : Nat} (h : sign? hash c secret digest = some signature) :
    ∃ k x y, c.smul c.base k = .affine x y ∧ c.hasSquareY (.affine x y) = true ∧
      let e := challenge hash c (Bytes.ofNatBE 32 x) (c.smul c.base secret) digest
      signature = Bytes.ofNatBE 32 x ++ Bytes.ofNatBE 32 ((k + e * secret) % c.n) := by
  unfold sign? at h
  dsimp only at h
  generalize hk : Bytes.toNatBE (hash (Bytes.ofNatBE 32 secret ++ digest ++ nonceTag)) % c.n = k
    at h
  by_cases hzero : k = 0
  · rw [if_pos hzero] at h
    cases h
  · have hkn : k < c.n := hk ▸ Nat.mod_lt _ hc.prime_n.pos
    rw [if_neg hzero] at h
    cases hq : c.smul c.base k with
    | infinity => exact absurd hq (hc.smul_base_ne_infinity (Nat.pos_of_ne_zero hzero) hkn)
    | affine x y =>
      obtain ⟨y', hturned, hsquare⟩ := exists_smul_base_eq hc hkn hq
      rw [hq] at h
      cases h
      exact ⟨_, x, y', hturned, hsquare, rfl⟩

variable (hp : c.p ≤ 256 ^ 32)

include hp

theorem verify_response (hn : c.n ≤ 256 ^ 32) {secret k x y e : Nat} (hpos : 0 < secret)
    (hlt : secret < c.n) (hq : c.smul c.base k = .affine x y)
    (hsquare : c.hasSquareY (.affine x y) = true)
    (he : challenge hash c (Bytes.ofNatBE 32 x) (c.smul c.base secret) digest = e)
    (compressed : Bool) :
    verify hash c digest (Bytes.ofNatBE 32 x ++ Bytes.ofNatBE 32 ((k + e * secret) % c.n))
      ((c.smul c.base secret).write compressed) = true := by
  have := Fact.mk hc.prime_p
  have hkey := hc.readKey?_write hp (hc.isOn_smul hc.isOn_base secret)
    (hc.smul_base_ne_infinity hpos hlt) compressed
  have hx : x < c.p := by
    have hon := hc.isOn_smul hc.isOn_base k
    rw [hq] at hon
    exact (Curve.isOn_affine_iff.mp hon).1
  have hs : (k + e * secret) % c.n < c.n := Nat.mod_lt _ hc.prime_n.pos
  have htake : (Bytes.ofNatBE 32 x ++ Bytes.ofNatBE 32 ((k + e * secret) % c.n)).take 32 =
      Bytes.ofNatBE 32 x := List.take_left' (Bytes.length_ofNatBE 32 x)
  have hdrop : (Bytes.ofNatBE 32 x ++ Bytes.ofNatBE 32 ((k + e * secret) % c.n)).drop 32 =
      Bytes.ofNatBE 32 ((k + e * secret) % c.n) := List.drop_left' (Bytes.length_ofNatBE 32 x)
  have hscalar := Bytes.toNatBE_ofNatBE (hs.trans_le hn)
  refine verify_eq_true_iff.mpr ⟨_, x, y, hkey, ?_, ?_, ?_, ?_, hsquare, htake.symm⟩
  · simp [length]
  · rwa [hdrop, hscalar]
  · rwa [htake, Bytes.toNatBE_ofNatBE (hx.trans_le hp)]
  · rw [htake, hdrop, he, hscalar, commitment_response hc, hq]

/-- What verifies is determined by its first half. -/
theorem eq_of_verify {σ τ : Bytes} (hr : σ.take 32 = τ.take 32)
    (hσ : verify hash c digest σ key = true) (hτ : verify hash c digest τ key = true) : σ = τ := by
  obtain ⟨q, x, y, hkey, hlength, hs, -, hcommitment, hsquare, hx⟩ := verify_eq_true_iff.mp hσ
  obtain ⟨q', x', y', hkey', hlength', hs', -, hcommitment', hsquare', hx'⟩ :=
    verify_eq_true_iff.mp hτ
  have := Fact.mk hc.prime_p
  obtain rfl : q = q' := Option.some.inj (hkey.symm.trans hkey')
  have hq := hc.isOn_of_readKey? hkey
  have hon := isOn_commitment hc hq (Bytes.toNatBE (σ.drop 32))
    (challenge hash c (σ.take 32) q digest)
  have hon' := isOn_commitment hc hq (Bytes.toNatBE (τ.drop 32))
    (challenge hash c (τ.take 32) q digest)
  rw [hcommitment] at hon
  rw [hcommitment'] at hon'
  have hwritten : Bytes.ofNatBE 32 x = Bytes.ofNatBE 32 x' := by rw [hx, hx', hr]
  obtain rfl : x = x' := by
    have hlt := (Curve.isOn_affine_iff.mp hon).1.trans_le hp
    have hlt' := (Curve.isOn_affine_iff.mp hon').1.trans_le hp
    rw [← Bytes.toNatBE_ofNatBE hlt, hwritten, Bytes.toNatBE_ofNatBE hlt']
  obtain rfl := hc.eq_of_hasSquareY hon hon' hsquare hsquare'
  have hscalars : Bytes.toNatBE (σ.drop 32) = Bytes.toNatBE (τ.drop 32) := by
    apply commitment_injOn hc hq hs hs'
    rw [hcommitment, hr, hcommitment']
  have hdrop : σ.drop 32 = τ.drop 32 := by
    apply (Bytes.toNatBE_inj _).mp hscalars
    rw [List.length_drop, List.length_drop, hlength, hlength']
  rw [← List.take_append_drop 32 σ, hr, hdrop, List.take_append_drop]

end Commitments

open Curve (secp256k1)

/-- Every signature that a secret key makes is accepted under its public key in both forms. -/
theorem signatures_verify (key : SecretKey secp256k1)
    (h : key.signSchnorr? hash digest = some signature) :
    signature.length = length ∧ ∀ compressed, (SignatureChecker.ofCurve hash secp256k1).schnorr
      digest signature (key.publicKey compressed) = true := by
  have hc := Curve.primeOrder_secp256k1
  obtain ⟨k, x, y, hq, hsquare, rfl⟩ := exists_of_sign? hc h
  refine ⟨by simp [length], fun compressed ↦ ?_⟩
  exact verify_response hc (by decide) (by decide) key.pos key.lt_order hq hsquare rfl compressed

/-- The second coordinate of the first multiple is no square here, so the signer turns to the other
one. The digest is beyond the order. -/
theorem signatures_verify_turned :
    let key : SecretKey secp256k1 :=
      ⟨0x0101010101010101010101010101010101010101010101010101010101010101, by decide, by decide⟩
    let digest := Bytes.ofNatBE 32 (secp256k1.n + 1)
    let signature :=
      Bytes.ofNatBE 32 0xbc417d49e160958b796d4e50d0f515376fe21636d4d61306658c7bb6254b15af ++
        Bytes.ofNatBE 32 0xdc59fc8ec42e30ee6795f00192c9622e5c53f90aa7534b9a0ec07d5a252a8408
    key.signSchnorr? Digest.sha256 digest = some signature ∧ signature.length = 64 ∧
      SignatureChecker.standard.schnorr digest signature (key.publicKey true) = true ∧
      SignatureChecker.standard.schnorr digest signature (key.publicKey false) = true := by
  intro key digest signature
  have hc := Curve.primeOrder_secp256k1
  have hnonce : Bytes.toNatBE (Digest.sha256 (Bytes.ofNatBE 32 key.value ++ digest ++ nonceTag)) %
      secp256k1.n = 0xe70a0a944bd9aac013c21d351ea86ce88cdee2f1cb8d9bbfe20f919a1feb25e4 := by
    decide +kernel
  have hmultiple : secp256k1.smul secp256k1.base
        0xe70a0a944bd9aac013c21d351ea86ce88cdee2f1cb8d9bbfe20f919a1feb25e4 =
      .affine 0xbc417d49e160958b796d4e50d0f515376fe21636d4d61306658c7bb6254b15af
        0x641e143a355ef3cafabe50c841687efed7ad946f3d9816ad7ad56dad3dcfdf08 :=
    Curve.smul_base_eq_of_isAt hc.prime_p hc.smooth hc.isOn_base (by decide) (by decide +kernel)
  have hpoint : secp256k1.smul secp256k1.base key.value =
      .affine 0x1b84c5567b126440995d3ed5aaba0565d71e1834604819ff9c17f5e9d5dd078f
        0x70beaf8f588b541507fed6a642c5ab42dfdf8120a7f639de5122d47a69a8e8d1 :=
    Curve.smul_base_eq_of_isAt hc.prime_p hc.smooth hc.isOn_base key.pos (by decide +kernel)
  have hsign : key.signSchnorr? Digest.sha256 digest = some signature := by
    unfold SecretKey.signSchnorr? sign?
    simp only [hnonce, hmultiple, hpoint]
    decide +kernel
  obtain ⟨hlength, hverify⟩ := signatures_verify key hsign
  exact ⟨hsign, hlength, hverify true, hverify false⟩

/-- What is accepted is determined by its first half, and does not depend on the form of the key. -/
theorem accepted_signature_is_unique (hash : Bytes → Bytes) :
    let checker := SignatureChecker.ofCurve hash secp256k1
    (∀ digest key σ τ, σ.take 32 = τ.take 32 → checker.schnorr digest σ key = true →
      checker.schnorr digest τ key = true → σ = τ) ∧
    ∀ digest signature key key' q, secp256k1.readKey? key = some q →
      secp256k1.readKey? key' = some q →
        checker.schnorr digest signature key = checker.schnorr digest signature key' := by
  intro checker
  constructor
  · intro digest key σ τ hr hσ hτ
    exact eq_of_verify Curve.primeOrder_secp256k1 (by decide) hr hσ hτ
  · intro digest signature key key' q hkey hkey'
    change verify hash secp256k1 digest signature key = verify hash secp256k1 digest signature key'
    rw [verify, hkey, verify, hkey']

/-- The secret and the nonce are one. Another last byte is not accepted, and the long form of the
key, which is the base point, does as well as the short one. -/
theorem accepted_signature_is_unique_base :
    let digest := List.replicate 32 0
    let r := Bytes.ofNatBE 32 secp256k1.baseX
    let s := Bytes.ofNatBE 31 0xedcc4d94b38b5fd086e448d54d35ba03881ce470d8935b473a1c3cbe18044e
    SignatureChecker.standard.schnorr digest (r ++ s ++ [0x32]) (secp256k1.base.write true) = true ∧
    SignatureChecker.standard.schnorr digest (r ++ s ++ [0x32]) (secp256k1.base.write false) =
      true ∧
    ∀ b ≠ 0x32, SignatureChecker.standard.schnorr digest (r ++ s ++ [b])
      (secp256k1.base.write true) = false := by
  intro digest r s
  have hc := Curve.primeOrder_secp256k1
  have hone : secp256k1.smul secp256k1.base 1 = secp256k1.base := by decide +kernel
  have hchallenge : challenge Digest.sha256 secp256k1 r (secp256k1.smul secp256k1.base 1) digest =
      0xedcc4d94b38b5fd086e448d54d35ba03881ce470d8935b473a1c3cbe18044e31 := by
    rw [hone]
    decide +kernel
  have hshort : SignatureChecker.standard.schnorr digest (r ++ s ++ [0x32])
      (secp256k1.base.write true) = true := by
    have hverify := verify_response hc (by decide) (by decide) Nat.one_pos (by decide) hone
      (by decide +kernel) hchallenge true
    rw [hone] at hverify
    exact hverify
  have hread : ∀ compressed, secp256k1.readKey? (secp256k1.base.write compressed) =
      some secp256k1.base :=
    hc.readKey?_write (by decide) hc.isOn_base nofun
  have hfirst : ∀ b, (r ++ s ++ [b]).take 32 = r := fun b ↦ by
    rw [List.append_assoc]
    exact List.take_left' (Bytes.length_ofNatBE 32 _)
  refine ⟨hshort, ?_, fun b hb ↦ ?_⟩
  · rw [← hshort]
    exact (accepted_signature_is_unique Digest.sha256).2 _ _ _ _ _ (hread false) (hread true)
  · by_contra haccepted
    rw [Bool.not_eq_false] at haccepted
    have heq := (accepted_signature_is_unique Digest.sha256).1 digest _ _ _
      ((hfirst b).trans (hfirst 0x32).symm) haccepted hshort
    exact hb (by simpa using heq)

end ScriptMachine.Signature.Schnorr
