import ScriptMachine.Bytes.Lemmas
import ScriptMachine.Proofs.Machine.SignatureCheck

/-!
# Schnorr checks of several signatures

A bit field selects the keys that sign, and the signatures stand in the order of these keys. The
field must have as many bits set as there are signatures, so that the walk over the keys takes one
signature for each selected key and does not run out of them.
-/

namespace ScriptMachine

open List

/-! ## Bit fields -/

namespace Bytes

/-- Bit `i` of a byte string, which is in byte `i / 8`. -/
def bit (bytes : Bytes) (i : Nat) : Bool := (bytes.getD (i / 8) 0).toNat.testBit (i % 8)

theorem testBit_toNatLE (bytes : Bytes) (i : Nat) : (toNatLE bytes).testBit i = bytes.bit i := by
  unfold bit
  induction bytes generalizing i with
  | nil => simp [toNatLE]
  | cons b bytes ih =>
    rw [toNatLE, Nat.add_comm, Nat.testBit_two_pow_mul_add (i := 8) _ b.toNat_lt]
    split
    next hi => rw [Nat.div_eq_of_lt hi, Nat.mod_eq_of_lt hi, getD_cons_zero]
    next hi =>
      have hdiv : i / 8 = (i - 8) / 8 + 1 := by omega
      have hmod : i % 8 = (i - 8) % 8 := by omega
      rw [ih, hdiv, hmod, getD_cons_succ]

theorem shiftRight_toNatLE_eq_zero_iff {bytes : Bytes} {n : Nat} :
    toNatLE bytes >>> n = 0 ↔ ∀ i, bytes.bit i = true → i < n := by
  constructor
  · intro h i hi
    by_contra hn
    have hbit : (toNatLE bytes >>> n).testBit (i - n) = true := by
      rw [Nat.testBit_shiftRight, Nat.add_sub_cancel' (Nat.le_of_not_lt hn), testBit_toNatLE, hi]
    simp [h] at hbit
  · intro h
    apply Nat.zero_of_testBit_eq_false
    intro j
    rw [Nat.testBit_shiftRight, testBit_toNatLE]
    by_contra hj
    exact absurd (h (n + j) (Bool.eq_true_of_not_eq_false hj)) (by omega)

/-- The field has room for a bit for each key, and selects this many of them. -/
structure Selects (bitfield : Bytes) (keys count : Nat) : Prop where
  length : bitfield.length = keys ⌈/⌉ 8
  lt_of_bit : ∀ i, bitfield.bit i = true → i < keys
  card : ((Finset.range keys).filter fun i ↦ bitfield.bit i = true).card = count

theorem countBits_toNatLE (bitfield : Bytes) (keys : Nat) :
    Action.countBits (toNatLE bitfield) keys =
      ((Finset.range keys).filter fun i ↦ bitfield.bit i = true).card := by
  have hbits : (toNatLE bitfield).testBit = bitfield.bit := funext bitfield.testBit_toNatLE
  simp [Action.countBits, hbits, Finset.card, Multiset.range]

theorem selects_iff {bitfield : Bytes} {keys count : Nat} :
    bitfield.Selects keys count ↔ bitfield.length = (keys + 7) / 8 ∧
      ¬ (toNatLE bitfield >>> keys ≠ 0 ∨ Action.countBits (toNatLE bitfield) keys ≠ count) := by
  rw [not_or, not_not, not_not, shiftRight_toNatLE_eq_zero_iff, countBits_toNatLE]
  exact ⟨fun h ↦ ⟨h.length.trans (Nat.ceilDiv_eq_add_pred_div keys 8), h.lt_of_bit, h.card⟩,
    fun h ↦ ⟨h.1.trans (Nat.ceilDiv_eq_add_pred_div keys 8).symm, h.2.1, h.2.2⟩⟩

/-- Three bytes are enough for the bits of as many keys as a check may have. -/
theorem toNatLE_lt_of_keys {bitfield : Bytes} {keys : Nat} (hkeys : keys ≤ maxMultisigKeys)
    (hlength : bitfield.length = keys ⌈/⌉ 8) : toNatLE bitfield < 2 ^ 32 := by
  have hthree : bitfield.length ≤ 3 := by
    rw [hlength, Nat.ceilDiv_eq_add_pred_div]
    unfold maxMultisigKeys at hkeys
    omega
  calc
    toNatLE bitfield < 256 ^ bitfield.length := toNatLE_lt bitfield
    _ ≤ 256 ^ 3 := Nat.pow_le_pow_right (by decide) hthree
    _ < 2 ^ 32 := by norm_num

end Bytes

/-! ## The walk -/

variable (m : Machine) (ctx : Context) in
/-- The signature has the length of Schnorr signatures with their type, the key is valid, and the
signature signs the spending transaction under it. -/
def SignsSchnorr (active signature key : Bytes) : Prop :=
  signature.length = 65 ∧ m.checker.validKey key = true ∧ Signs m ctx active signature key

namespace Action

variable {m : Machine} {ctx : Context} {bits index : Nat} {signature key : Bytes}
  {signatures keys : List Bytes} {s : State}

theorem checkSelected_of_not_testBit (h : bits.testBit index = false) :
    checkSelected m ctx bits index signatures (key :: keys) =
      checkSelected m ctx bits (index + 1) signatures keys := by
  rw [checkSelected.eq_def]
  simp [h]

theorem checkSelected_of_testBit (h : bits.testBit index = true) :
    checkSelected m ctx bits index (signature :: signatures) (key :: keys) = (do
      if signature.length ≠ Signature.Schnorr.length + 1 then throw .invalidSignature
      let verified ← verifySignature m ctx signature key
      if !verified then throw .nonNullSignatureFailure
      checkSelected m ctx bits (index + 1) signatures keys) := by
  rw [checkSelected.eq_def]
  simp only [h, if_true]

theorem checkSelected_of_signs (hbit : bits.testBit index = true)
    (h : SignsSchnorr m ctx s.activeBytecode signature key) :
    ∃ meter, checkSelected m ctx bits index (signature :: signatures) (key :: keys) s =
      checkSelected m ctx bits (index + 1) signatures keys { s with meter := meter } := by
  obtain ⟨(hlength : signature.length = Signature.Schnorr.length + 1), hkey, hsigns⟩ := h
  obtain ⟨verified, meter, hverified, hresult⟩ :=
    verifySignature_of_isVerifiable (hsigns.isVerifiable hkey)
  obtain rfl := hverified.mpr hsigns
  refine ⟨meter, ?_⟩
  rw [checkSelected_of_testBit hbit, if_neg (not_not_intro hlength)]
  exact bind_of_ok hresult

theorem checkSelected_of_not_signs (hbit : bits.testBit index = true)
    (h : ¬ SignsSchnorr m ctx s.activeBytecode signature key) :
    ∃ fault u, fault ≠ .invalidBitfield ∧
      checkSelected m ctx bits index (signature :: signatures) (key :: keys) s =
        .error fault u := by
  rw [checkSelected_of_testBit hbit]
  by_cases hlength : signature.length = Signature.Schnorr.length + 1
  · rw [if_neg (not_not_intro hlength)]
    by_cases hverifiable : IsVerifiable m ctx s.activeBytecode signature key
    · obtain ⟨verified, meter, hverified, hresult⟩ := verifySignature_of_isVerifiable hverifiable
      have hrefused : verified = false := by
        apply Bool.eq_false_of_not_eq_true
        exact fun haccepted ↦ h ⟨hlength, hverifiable.1, hverified.mp haccepted⟩
      subst hrefused
      exact ⟨.nonNullSignatureFailure, _, by simp, bind_of_ok hresult⟩
    · obtain ⟨fault, hfault, hresult⟩ := verifySignature_of_not_isVerifiable hverifiable
      exact ⟨fault, s, hfault, bind_of_error hresult⟩
  · rw [if_pos hlength]
    exact ⟨.invalidSignature, s, by simp, rfl⟩

/-- The keys that bits select; `index` is that of the first key. -/
def selectedKeys (bits index : Nat) (keys : List Bytes) : List Bytes :=
  ((keys.zipIdx index).filter fun entry ↦ bits.testBit entry.2).map Prod.fst

theorem selectedKeys_of_not_testBit (h : bits.testBit index = false) :
    selectedKeys bits index (key :: keys) = selectedKeys bits (index + 1) keys := by
  simp [selectedKeys, zipIdx_cons, h]

theorem selectedKeys_of_testBit (h : bits.testBit index = true) :
    selectedKeys bits index (key :: keys) = key :: selectedKeys bits (index + 1) keys := by
  simp [selectedKeys, zipIdx_cons, h]

/-- The walk succeeds if each signature signs under its key, and otherwise fails for a reason that
is not the bit field. -/
theorem checkSelected_cases (hcount : (selectedKeys bits index keys).length = signatures.length) :
    (Forall₂ (SignsSchnorr m ctx s.activeBytecode) signatures (selectedKeys bits index keys) →
      ∃ meter, checkSelected m ctx bits index signatures keys s =
        .ok () { s with meter := meter }) ∧
    (¬ Forall₂ (SignsSchnorr m ctx s.activeBytecode) signatures (selectedKeys bits index keys) →
      ∃ fault u, fault ≠ .invalidBitfield ∧
        checkSelected m ctx bits index signatures keys s = .error fault u) := by
  induction keys generalizing index signatures s with
  | nil =>
    obtain rfl := eq_nil_of_length_eq_zero hcount.symm
    exact ⟨fun _ ↦ ⟨s.meter, rfl⟩, fun h ↦ absurd .nil h⟩
  | cons key keys ih =>
    cases hbit : bits.testBit index with
    | false =>
      rw [selectedKeys_of_not_testBit hbit] at hcount ⊢
      rw [checkSelected_of_not_testBit hbit]
      exact ih hcount
    | true =>
      rw [selectedKeys_of_testBit hbit] at hcount ⊢
      cases signatures with
      | nil => cases hcount
      | cons signature signatures =>
        rw [forall₂_cons]
        by_cases hsigns : SignsSchnorr m ctx s.activeBytecode signature key
        · obtain ⟨meter, hturn⟩ := checkSelected_of_signs hbit hsigns
          rw [hturn, and_iff_right hsigns]
          exact ih (s := { s with meter := meter }) (Nat.succ.inj hcount)
        · exact ⟨fun h ↦ absurd h.1 hsigns, fun _ ↦ checkSelected_of_not_signs hbit hsigns⟩

/-! ## Signatures that run out -/

section Outside

variable (m ctx) (outside : Action Unit)

/-- The walk with any outcome at all where no signature is left for a selected key. -/
def checkSelectedOr (bits : Nat) : (index : Nat) → (signatures keys : List Bytes) → Action Unit
  | _, _, [] => pure ()
  | index, signatures, key :: keys =>
    if bits.testBit index then
      match signatures with
      | [] => outside
      | signature :: signatures => do
        if signature.length ≠ Signature.Schnorr.length + 1 then throw .invalidSignature
        let verified ← verifySignature m ctx signature key
        if !verified then throw .nonNullSignatureFailure
        checkSelectedOr bits (index + 1) signatures keys
    else checkSelectedOr bits (index + 1) signatures keys

def checkSchnorrMultisigOr (bitfield : Bytes) (signatures keys : List Bytes) : Action Bool := do
  let bits := Bytes.toNatLE bitfield
  if bitfield.length ≠ (keys.length + 7) / 8 then throw .invalidBitfield
  if bits >>> keys.length ≠ 0 ∨ countBits bits keys.length ≠ signatures.length then
    throw .invalidBitfield
  checkSelectedOr m ctx outside bits 0 signatures keys
  meter (·.countSignatureChecks m.policy signatures.length)
  return true

theorem checkSelectedOr_eq (hcount : (selectedKeys bits index keys).length = signatures.length) :
    checkSelectedOr m ctx outside bits index signatures keys =
      checkSelected m ctx bits index signatures keys := by
  induction keys generalizing index signatures with
  | nil => rw [checkSelectedOr, checkSelected]
  | cons key keys ih =>
    cases hbit : bits.testBit index with
    | false =>
      rw [selectedKeys_of_not_testBit hbit] at hcount
      rw [checkSelected_of_not_testBit hbit, ← ih hcount, checkSelectedOr.eq_def]
      simp [hbit]
    | true =>
      rw [selectedKeys_of_testBit hbit] at hcount
      cases signatures with
      | nil => cases hcount
      | cons signature signatures =>
        rw [checkSelected_of_testBit hbit, ← ih (Nat.succ.inj hcount), checkSelectedOr.eq_def]
        simp only [hbit, if_true]

end Outside

/-! ## Positions of the selected keys -/

theorem selectedKeys_zero (bits : Nat) (keys : List Bytes) :
    selectedKeys bits 0 keys =
      ((finRange keys.length).filter fun i : Fin keys.length ↦ bits.testBit i).map keys.get := by
  have hentries : keys.zipIdx = (finRange keys.length).map fun i ↦ (keys.get i, i.val) := by
    apply ext_getElem <;> simp
  rw [selectedKeys, hentries, filter_map, map_map]
  rfl

theorem length_selectedKeys_zero (bits : Nat) (keys : List Bytes) :
    (selectedKeys bits 0 keys).length = countBits bits keys.length := by
  rw [selectedKeys_zero, countBits, ← map_coe_finRange_eq_range, filter_map, length_map, length_map]
  rfl

/-- The set bits are enumerated in order in just one way. -/
theorem filter_finRange_eq_ofFn_iff {n k : Nat} {p : Fin n → Bool} {f : Fin k → Fin n} :
    (finRange n).filter p = ofFn f ↔ StrictMono f ∧ ∀ i, p i = true ↔ ∃ j, f j = i := by
  have hsorted := (pairwise_lt_finRange n).filter p
  have hmem (i : Fin n) : i ∈ (finRange n).filter p ↔ p i = true := by simp
  constructor
  · intro h
    refine ⟨pairwise_ofFn.mp (h ▸ hsorted), fun i ↦ ?_⟩
    rw [← hmem, h, mem_ofFn]
  · rintro ⟨hmono, h⟩
    refine hsorted.eq_of_mem_iff (pairwise_ofFn.mpr hmono) fun i ↦ ?_
    rw [hmem, h, mem_ofFn]

theorem forall₂_selectedKeys_iff {R : Bytes → Bytes → Prop} :
    Forall₂ R signatures (selectedKeys bits 0 keys) ↔
      ∃ select : Fin signatures.length → Fin keys.length, StrictMono select ∧
        (∀ i : Fin keys.length, bits.testBit i = true ↔ ∃ j, select j = i) ∧
        ∀ j, R (signatures.get j) (keys.get (select j)) := by
  rw [selectedKeys_zero, forall₂_map_right_iff, forall₂_iff_exists_ofFn]
  simp only [filter_finRange_eq_ofFn_iff, and_assoc]

/-! ## The verdict -/

theorem checkSchnorrMultisig_of_not_selects {bitfield : Bytes}
    (h : ¬ bitfield.Selects keys.length signatures.length) :
    checkSchnorrMultisig m ctx bitfield signatures keys s = .error .invalidBitfield s := by
  rw [Bytes.selects_iff, not_and_not_right] at h
  unfold checkSchnorrMultisig
  by_cases hlength : bitfield.length = (keys.length + 7) / 8
  · rw [if_neg (not_not_intro hlength), if_pos (h hlength)]
    rfl
  · rw [if_pos hlength]
    rfl

theorem checkSchnorrMultisig_of_selects {bitfield : Bytes}
    (h : bitfield.Selects keys.length signatures.length) :
    checkSchnorrMultisig m ctx bitfield signatures keys = (do
      checkSelected m ctx (Bytes.toNatLE bitfield) 0 signatures keys
      meter (·.countSignatureChecks m.policy signatures.length)
      return true) := by
  obtain ⟨hlength, hbits⟩ := Bytes.selects_iff.mp h
  unfold checkSchnorrMultisig
  rw [if_neg (not_not_intro hlength), if_neg hbits]

theorem length_selectedKeys_of_selects {bitfield : Bytes}
    (h : bitfield.Selects keys.length signatures.length) :
    (selectedKeys (Bytes.toNatLE bitfield) 0 keys).length = signatures.length := by
  rw [length_selectedKeys_zero, Bytes.countBits_toNatLE, h.card]

/-- Signatures never run out, as a field that would let them is refused before the walk. -/
theorem checkSchnorrMultisigOr_eq (outside : Action Unit) (bitfield : Bytes) :
    checkSchnorrMultisigOr m ctx outside bitfield signatures keys =
      checkSchnorrMultisig m ctx bitfield signatures keys := by
  rw [checkSchnorrMultisigOr, checkSchnorrMultisig]
  by_cases h : bitfield.Selects keys.length signatures.length
  · simp only [checkSelectedOr_eq m ctx outside (length_selectedKeys_of_selects h)]
  · rw [Bytes.selects_iff, not_and_not_right] at h
    by_cases hlength : bitfield.length = (keys.length + 7) / 8
    · simp only [if_pos (h hlength)]
      rfl
    · simp only [ne_eq, hlength, not_false_eq_true, if_true]
      rfl

theorem checkSchnorrMultisig_cases {bitfield : Bytes}
    (h : bitfield.Selects keys.length signatures.length) :
    (Forall₂ (SignsSchnorr m ctx s.activeBytecode) signatures
        (selectedKeys (Bytes.toNatLE bitfield) 0 keys) →
      ∃ u, checkSchnorrMultisig m ctx bitfield signatures keys s = .ok true u) ∧
    (¬ Forall₂ (SignsSchnorr m ctx s.activeBytecode) signatures
        (selectedKeys (Bytes.toNatLE bitfield) 0 keys) →
      ∃ fault u, fault ≠ .invalidBitfield ∧
        checkSchnorrMultisig m ctx bitfield signatures keys s = .error fault u) := by
  obtain ⟨hsigned, hrefused⟩ :=
    checkSelected_cases (m := m) (s := s) (length_selectedKeys_of_selects h)
  rw [checkSchnorrMultisig_of_selects h]
  refine ⟨fun hall ↦ ?_, fun hnot ↦ ?_⟩
  · obtain ⟨meter, hwalk⟩ := hsigned hall
    exact ⟨_, bind_of_ok hwalk⟩
  · obtain ⟨fault, u, hfault, hwalk⟩ := hrefused hnot
    exact ⟨fault, u, hfault, bind_of_error hwalk⟩

/-- The check succeeds exactly when the bit field selects as many keys as there are signatures, and
each signature signs under the key that it stands for in the order of the selected keys. It never
comes out false. It blames the field only if that does not select as many keys as there are
signatures, and the walk over the keys never runs out of signatures, so that it does not matter what
would happen then. The bits for as many keys as are allowed fit a word of 32 bits. -/
theorem schnorr_multisig_follows_bitfield (m : Machine) (ctx : Context) (s : State)
    (bitfield : Bytes) (signatures keys : List Bytes) :
    let check := checkSchnorrMultisig m ctx bitfield signatures keys s
    ((∃ u, check = .ok true u) ↔
      bitfield.Selects keys.length signatures.length ∧
      ∃ select : Fin signatures.length → Fin keys.length, StrictMono select ∧
        (∀ i : Fin keys.length, bitfield.bit i = true ↔ ∃ j, select j = i) ∧
        ∀ j, SignsSchnorr m ctx s.activeBytecode (signatures.get j) (keys.get (select j))) ∧
      (∀ u, check ≠ .ok false u) ∧
      ((∃ u, check = .error .invalidBitfield u) ↔
        ¬ bitfield.Selects keys.length signatures.length) ∧
      (keys.length ≤ maxMultisigKeys → bitfield.length = keys.length ⌈/⌉ 8 →
        Bytes.toNatLE bitfield < 2 ^ 32) ∧
      ∀ outside, checkSchnorrMultisigOr m ctx outside bitfield signatures keys s = check := by
  intro check
  have houtside (outside : Action Unit) :
      checkSchnorrMultisigOr m ctx outside bitfield signatures keys s = check :=
    congrFun (checkSchnorrMultisigOr_eq outside bitfield) s
  simp only [← Bytes.testBit_toNatLE]
  rw [← forall₂_selectedKeys_iff]
  by_cases hselects : bitfield.Selects keys.length signatures.length
  · obtain ⟨hsigned, hrefused⟩ := checkSchnorrMultisig_cases (m := m) (s := s) hselects
    by_cases hall : Forall₂ (SignsSchnorr m ctx s.activeBytecode) signatures
        (selectedKeys (Bytes.toNatLE bitfield) 0 keys)
    · obtain ⟨u, hcheck⟩ := hsigned hall
      change check = _ at hcheck
      exact ⟨by simp [hcheck, hselects, hall], by simp [hcheck], by simp [hcheck, hselects],
        Bytes.toNatLE_lt_of_keys, houtside⟩
    · obtain ⟨fault, u, hfault, hcheck⟩ := hrefused hall
      change check = _ at hcheck
      exact ⟨by simp [hcheck, hall], by simp [hcheck], by simp [hcheck, hselects, hfault],
        Bytes.toNatLE_lt_of_keys, houtside⟩
  · have hcheck : check = .error .invalidBitfield s := checkSchnorrMultisig_of_not_selects hselects
    exact ⟨by simp [hcheck, hselects], by simp [hcheck], by simp [hcheck, hselects],
      Bytes.toNatLE_lt_of_keys, houtside⟩

/-- The first and the last of three keys sign; a fourth bit is one too many. -/
theorem schnorr_multisig_follows_bitfield_two_of_three :
    let checker : SignatureChecker :=
      { ecdsa := fun _ _ _ ↦ false
        schnorr := fun _ body key ↦ body.take 1 == key
        validKey := fun key ↦ key.length == 1 }
    let m : Machine := { checker := checker }
    let ctx := Context.singleInput [] []
    let s : State := { program := [] }
    let sign (n : UInt8) : Bytes := replicate 64 n ++ [0x41]
    let keys : List Bytes := [[1], [2], [3]]
    (∃ u, checkSchnorrMultisig m ctx [0b101] [sign 1, sign 3] keys s = .ok true u) ∧
      ∃ u, checkSchnorrMultisig m ctx [0b1001] [sign 1, sign 3] keys s =
        .error .invalidBitfield u := by
  intro checker m ctx s sign keys
  have hsigns (n : UInt8) : SignsSchnorr m ctx s.activeBytecode (sign n) [n] := by
    refine ⟨by simp [sign], rfl, replicate 64 n, ⟨.all, false, false, rfl⟩, _,
      ⟨rfl, 0x41, rfl, rfl⟩, rfl, ?_⟩
    simp [m, checker, SignatureChecker.verify, Signature.Schnorr.length]
  constructor
  · refine (schnorr_multisig_follows_bitfield m ctx s _ _ keys).1.mpr
      ⟨Bytes.selects_iff.mpr (by decide), ![0, 2], by decide, by decide, ?_⟩
    intro j
    fin_cases j
    · exact hsigns 1
    · exact hsigns 3
  · refine (schnorr_multisig_follows_bitfield m ctx s _ _ keys).2.2.1.mpr ?_
    rw [Bytes.selects_iff]
    decide

end Action

end ScriptMachine
