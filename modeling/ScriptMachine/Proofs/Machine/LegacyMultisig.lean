import ScriptMachine.Proofs.Machine.SignatureCheck

/-!
# Legacy checks of several signatures

Signatures are matched to keys in order, and the walk gives each signature the first key that it
meets and that the signature verifies under. Nothing is lost by that: in any other matching, the
signatures that follow use keys that come later still. So the walk finds a matching wherever there
is one.
-/

namespace ScriptMachine

open List

/-! ## Ordered matchings -/

section Matchings

variable {α β : Type} {R : α → β → Prop} {a : α} {b : β} {as : List α} {bs : List β}

theorem sublistForall₂_of_cons (h : SublistForall₂ R (a :: as) bs) : SublistForall₂ R as bs := by
  obtain ⟨l, hl, hsub⟩ := sublistForall₂_iff.mp h
  cases hl with
  | cons _ hrest => exact sublistForall₂_iff.mpr ⟨_, hrest, (sublist_cons_self _ _).trans hsub⟩

theorem length_le_of_sublistForall₂ (h : SublistForall₂ R as bs) : as.length ≤ bs.length := by
  obtain ⟨l, hl, hsub⟩ := sublistForall₂_iff.mp h
  rw [hl.length_eq]
  exact hsub.length_le

/-- Where the first two can be matched, it is safe to match them. -/
theorem sublistForall₂_cons_cons_of_rel (h : R a b) :
    SublistForall₂ R (a :: as) (b :: bs) ↔ SublistForall₂ R as bs := by
  refine ⟨fun hmatch ↦ ?_, .cons h⟩
  cases hmatch with
  | cons _ hrest => exact hrest
  | cons_right hrest => exact sublistForall₂_of_cons hrest

theorem sublistForall₂_cons_cons_of_not_rel (h : ¬ R a b) :
    SublistForall₂ R (a :: as) (b :: bs) ↔ SublistForall₂ R (a :: as) bs := by
  refine ⟨fun hmatch ↦ ?_, .cons_right⟩
  cases hmatch with
  | cons hrel _ => exact absurd hrel h
  | cons_right hrest => exact hrest

theorem sublistForall₂_reverse_iff :
    SublistForall₂ R as.reverse bs.reverse ↔ SublistForall₂ R as bs := by
  have hreverse {as : List α} {bs : List β} (h : SublistForall₂ R as bs) :
      SublistForall₂ R as.reverse bs.reverse := by
    obtain ⟨l, hl, hsub⟩ := sublistForall₂_iff.mp h
    exact sublistForall₂_iff.mpr ⟨l.reverse, forall₂_reverse_iff.mpr hl, hsub.reverse⟩
  exact ⟨fun h ↦ by simpa using hreverse h, hreverse⟩

theorem sublistForall₂_iff_exists_strictMono :
    SublistForall₂ R as bs ↔ ∃ f : Fin as.length → Fin bs.length, StrictMono f ∧
      ∀ i, R (as.get i) (bs.get (f i)) := by
  rw [sublistForall₂_iff]
  constructor
  · rintro ⟨l, hl, hsub⟩
    obtain ⟨positions, rfl, hpositions⟩ := sublist_eq_map_getElem hsub
    obtain ⟨f, rfl, hf⟩ := forall₂_iff_exists_ofFn.mp (forall₂_map_right_iff.mp hl)
    exact ⟨f, pairwise_ofFn.mp hpositions, hf⟩
  · rintro ⟨f, hmono, hf⟩
    refine ⟨(ofFn f).map bs.get, ?_, map_getElem_sublist (pairwise_ofFn.mpr hmono)⟩
    exact forall₂_map_right_iff.mpr (forall₂_iff_exists_ofFn.mpr ⟨f, rfl, hf⟩)

end Matchings

namespace Action

variable {m : Machine} {ctx : Context} {signature key : Bytes} {signatures keys : List Bytes}
  {s : State}

/-! ## The walk -/

variable (signatures keys) in
/-- One turn of the walk: the key is spent, and the signature too if it verifies. -/
theorem matchSignatures_cons (hlength : signature.length ≠ Signature.Schnorr.length + 1)
    (h : signature ≠ [] → IsVerifiable m ctx s.activeBytecode signature key) :
    ∃ verified meter, (verified = true ↔ Signs m ctx s.activeBytecode signature key) ∧
      matchSignatures m ctx (signature :: signatures) (key :: keys) s =
        (let remaining := if verified then signatures else signature :: signatures
        if keys.length < remaining.length then pure false
        else matchSignatures m ctx remaining keys) { s with meter := meter } := by
  rw [matchSignatures, if_neg hlength]
  by_cases hempty : signature = []
  · refine ⟨false, s.meter, ?_, by rw [hempty]; rfl⟩
    simpa using fun hsigns : Signs m ctx s.activeBytecode signature key ↦ hsigns.ne_nil hempty
  · obtain ⟨verified, meter, hverified, hresult⟩ := verifySignature_of_isVerifiable (h hempty)
    refine ⟨verified, meter, hverified, ?_⟩
    rw [if_neg (by simpa using hempty)]
    exact bind_of_ok hresult

/-- The walk finds out whether there is a matching. -/
theorem matchSignatures_eq_ok
    (hlength : ∀ signature ∈ signatures, signature.length ≠ Signature.Schnorr.length + 1)
    (h : ∀ signature ∈ signatures, signature ≠ [] → ∀ key ∈ keys,
      IsVerifiable m ctx s.activeBytecode signature key) :
    ∃ matched meter,
      (matched = true ↔ SublistForall₂ (Signs m ctx s.activeBytecode) signatures keys) ∧
      matchSignatures m ctx signatures keys s = .ok matched { s with meter := meter } := by
  induction keys generalizing signatures s with
  | nil =>
    cases signatures with
    | nil => exact ⟨true, s.meter, by simp [SublistForall₂.nil], rfl⟩
    | cons signature signatures =>
      refine ⟨false, s.meter, ?_, rfl⟩
      simpa using fun hmatch : SublistForall₂ _ (signature :: signatures) [] ↦
        Nat.not_succ_le_zero _ (length_le_of_sublistForall₂ hmatch)
  | cons key keys ih =>
    cases signatures with
    | nil => exact ⟨true, s.meter, by simp [SublistForall₂.nil], rfl⟩
    | cons signature signatures =>
      obtain ⟨verified, meter, hverified, hturn⟩ :=
        matchSignatures_cons signatures keys (hlength signature mem_cons_self)
          (fun hne ↦ h signature mem_cons_self hne key mem_cons_self)
      rw [hturn]
      dsimp only
      generalize hremaining : (if verified then signatures else signature :: signatures) = remaining
      have hsubset : ∀ other ∈ remaining, other ∈ signature :: signatures := by
        subst hremaining
        cases verified with
        | true => exact fun other ↦ mem_cons_of_mem signature
        | false => exact fun other ↦ id
      have hmatch : SublistForall₂ (Signs m ctx s.activeBytecode) (signature :: signatures)
          (key :: keys) ↔ SublistForall₂ (Signs m ctx s.activeBytecode) remaining keys := by
        subst hremaining
        cases verified with
        | true => exact sublistForall₂_cons_cons_of_rel (hverified.mp rfl)
        | false => exact sublistForall₂_cons_cons_of_not_rel (by simpa using hverified)
      rw [hmatch]
      by_cases hshort : keys.length < remaining.length
      · -- Fewer keys than signatures are left, so the walk need not go on.
        refine ⟨false, meter, ?_, by rw [if_pos hshort]; rfl⟩
        simpa using fun hrest : SublistForall₂ _ remaining keys ↦
          Nat.not_le_of_lt hshort (length_le_of_sublistForall₂ hrest)
      · rw [if_neg hshort]
        refine ih (s := { s with meter := meter }) ?_ ?_
        · exact fun other hother ↦ hlength other (hsubset other hother)
        · intro other hother hne key' hkey'
          exact h other (hsubset other hother) hne key' (mem_cons_of_mem key hkey')

/-- A charge before the walk changes the meter only, which no signature covers. -/
theorem exists_checkLegacyMultisig_eq (m : Machine) (ctx : Context) (signatures keys : List Bytes)
    (s : State) :
    ∃ meter, checkLegacyMultisig m ctx signatures keys s =
      (matchSignatures m ctx signatures keys >>= fun matched ↦
        if !matched && signatures.any (!·.isEmpty) then throw .nonNullSignatureFailure
        else pure matched) { s with meter := meter } := by
  unfold checkLegacyMultisig
  cases signatures.any (!·.isEmpty) with
  | false => exact ⟨s.meter, rfl⟩
  | true => exact ⟨s.meter.countSignatureChecks m.policy keys.length, rfl⟩

theorem checkLegacyMultisig_cases
    (hlength : ∀ signature ∈ signatures, signature.length ≠ Signature.Schnorr.length + 1)
    (h : ∀ signature ∈ signatures, signature ≠ [] → ∀ key ∈ keys,
      IsVerifiable m ctx s.activeBytecode signature key) :
    ∃ u,
      (SublistForall₂ (Signs m ctx s.activeBytecode) signatures keys →
        checkLegacyMultisig m ctx signatures keys s = .ok true u) ∧
      (¬ SublistForall₂ (Signs m ctx s.activeBytecode) signatures keys →
        checkLegacyMultisig m ctx signatures keys s =
          if signatures.any (!·.isEmpty) then .error .nonNullSignatureFailure u
          else .ok false u) := by
  obtain ⟨before, hcheck⟩ := exists_checkLegacyMultisig_eq m ctx signatures keys s
  obtain ⟨matched, meter, hmatched, hwalk⟩ :=
    matchSignatures_eq_ok (s := { s with meter := before }) hlength h
  rw [hcheck, bind_of_ok hwalk]
  refine ⟨{ s with meter := meter }, fun hmatch ↦ ?_, fun hnot ↦ ?_⟩
  · obtain rfl := hmatched.mpr hmatch
    rfl
  · obtain rfl : matched = false := Bool.eq_false_of_not_eq_true (mt hmatched.mp hnot)
    cases signatures.any (!·.isEmpty) <;> rfl

/-! ## Positions -/

variable (m ctx) in
/-- The walk by the numbers of signatures and keys that are left, on lists with their first element
first. Where there is no signature or key at a position, it ends with `outside`. -/
def walkByIndex (outside : Action Bool) (signatures keys : List Bytes) :
    (signaturesLeft keysLeft : Nat) → Action Bool
  | 0, _ => pure true
  | _ + 1, 0 => outside
  | i + 1, j + 1 =>
    match signatures[i]?, keys[j]? with
    | some signature, some key => do
      if signature.length = Signature.Schnorr.length + 1 then throw .schnorrInLegacyMultisig
      let verified ←
        if signature.isEmpty then pure false else verifySignature m ctx signature key
      let remaining := if verified then i else i + 1
      if j < remaining then return false
      walkByIndex outside signatures keys remaining j
    | _, _ => outside

variable (m ctx) in
/-- As many keys as signatures are left at least, so that no position is outside. -/
theorem walkByIndex_eq (outside : Action Bool) {i j : Nat} (hij : i ≤ j)
    (hi : i ≤ signatures.length) (hj : j ≤ keys.length) :
    walkByIndex m ctx outside signatures keys i j =
      matchSignatures m ctx (signatures.take i).reverse (keys.take j).reverse := by
  induction j generalizing i with
  | zero =>
    obtain rfl := Nat.le_zero.mp hij
    rfl
  | succ j ih =>
    cases i with
    | zero =>
      rw [walkByIndex, take_zero, reverse_nil, matchSignatures]
    | succ i =>
      have hleft (r : Nat) (hr : r ≤ i + 1) :
          (if j < r then pure false else walkByIndex m ctx outside signatures keys r j) =
          (if (keys.take j).reverse.length < (signatures.take r).reverse.length then pure false
          else matchSignatures m ctx (signatures.take r).reverse (keys.take j).reverse) := by
        have hkeys : (keys.take j).reverse.length = j := by rw [length_reverse, length_take]; omega
        have hsignatures : (signatures.take r).reverse.length = r := by
          rw [length_reverse, length_take]
          omega
        rw [hkeys, hsignatures]
        split
        · rfl
        · exact ih (by omega) (by omega) (by omega)
      have hrest (verified : Bool) :
          (let remaining := if verified then i else i + 1
          if j < remaining then pure false
          else walkByIndex m ctx outside signatures keys remaining j) =
          (let remaining :=
            if verified then (signatures.take i).reverse else (signatures.take (i + 1)).reverse
          if (keys.take j).reverse.length < remaining.length then pure false
          else matchSignatures m ctx remaining (keys.take j).reverse) := by
        cases verified with
        | true => exact hleft i (Nat.le_succ i)
        | false => exact hleft (i + 1) (Nat.le_refl _)
      have hlast {items : List Bytes} {k : Nat} (hk : k < items.length) :
          (items.take (k + 1)).reverse = items[k] :: (items.take k).reverse := by
        rw [take_succ_eq_append_getElem hk, reverse_concat']
      rw [hlast hi] at hrest
      rw [walkByIndex, hlast hi, hlast hj, matchSignatures, getElem?_eq_getElem hi,
        getElem?_eq_getElem hj]
      dsimp only
      simp only [hrest]

/-! ## The verdict -/

/-- Let there be no more signatures than keys, and messages to sign; let all keys be valid, and all
signatures that are not empty well formed and of other than sixty-five bytes. Then the check
succeeds exactly when the signatures can be matched to keys in order, so that none is empty and each
verifies under its key. Otherwise it comes out false if all signatures are empty, and fails if not.
The walk never looks for a signature or a key where there is none. -/
theorem legacy_multisig_decides_matching (m : Machine) (ctx : Context) (s : State)
    (signatures keys : List Bytes) (hcount : signatures.length ≤ keys.length)
    (hsignatures : ∀ signature ∈ signatures, signature ≠ [] →
      signature.length ≠ 65 ∧ ∃ body t, IsWritten signature body t)
    (hkeys : ∀ key ∈ keys, m.checker.validKey key = true)
    (hmessage : ∀ t, ∃ message, m.signingMessage ctx s.activeBytecode t = .ok message) :
    let check := checkLegacyMultisig m ctx signatures.reverse keys.reverse s
    let Matched := ∃ f : Fin signatures.length → Fin keys.length, StrictMono f ∧
      ∀ i, signatures.get i ≠ [] ∧
        Signs m ctx s.activeBytecode (signatures.get i) (keys.get (f i))
    ((∃ u, check = .ok true u) ↔ Matched) ∧
      (¬ Matched → (∀ signature ∈ signatures, signature = []) → ∃ u, check = .ok false u) ∧
      (¬ Matched → (∃ signature ∈ signatures, signature ≠ []) →
        ∃ u, check = .error .nonNullSignatureFailure u) ∧
      ∀ outside, walkByIndex m ctx outside signatures keys signatures.length keys.length =
        matchSignatures m ctx signatures.reverse keys.reverse := by
  intro check Matched
  have hlength : ∀ signature ∈ signatures.reverse,
      signature.length ≠ Signature.Schnorr.length + 1 := by
    intro signature hmem
    rcases eq_or_ne signature [] with rfl | hne
    · exact (by decide : 0 ≠ 65)
    · exact (hsignatures signature (mem_reverse.mp hmem) hne).1
  have hverifiable : ∀ signature ∈ signatures.reverse, signature ≠ [] → ∀ key ∈ keys.reverse,
      IsVerifiable m ctx s.activeBytecode signature key := by
    intro signature hmem hne key hkey
    obtain ⟨-, body, t, hwritten⟩ := hsignatures signature (mem_reverse.mp hmem) hne
    obtain ⟨message, hmessage⟩ := hmessage t
    exact ⟨hkeys key (mem_reverse.mp hkey), body, t, message, hwritten, hmessage⟩
  obtain ⟨u, hmatches, hfails⟩ := checkLegacyMultisig_cases hlength hverifiable
  have hspec : SublistForall₂ (Signs m ctx s.activeBytecode) signatures.reverse keys.reverse ↔
      Matched := by
    rw [sublistForall₂_reverse_iff, sublistForall₂_iff_exists_strictMono]
    refine exists_congr fun f ↦ and_congr_right fun _ ↦ forall_congr' fun i ↦ ?_
    exact (and_iff_right_of_imp Signs.ne_nil).symm
  rw [hspec] at hmatches hfails
  refine ⟨⟨?_, fun hmatch ↦ ⟨_, hmatches hmatch⟩⟩, fun hnot hempty ↦ ?_, fun hnot hsome ↦ ?_,
    fun outside ↦ ?_⟩
  · rintro ⟨u, hu⟩
    by_contra hnot
    have hfail := hu.symm.trans (hfails hnot)
    split at hfail <;> cases hfail
  · have hany : signatures.reverse.any (!·.isEmpty) = false := by simpa using hempty
    exact ⟨_, (hfails hnot).trans (by rw [hany]; rfl)⟩
  · have hany : signatures.reverse.any (!·.isEmpty) = true := by simpa using hsome
    exact ⟨_, (hfails hnot).trans (if_pos hany)⟩
  · have hwalk := walkByIndex_eq m ctx outside hcount (Nat.le_refl _) (Nat.le_refl _)
    rwa [take_length, take_length] at hwalk

/-- Two of three keys sign, in their order; and an empty signature cannot stand in for one. -/
theorem legacy_multisig_decides_matching_two_of_three :
    let checker : SignatureChecker :=
      { ecdsa := fun _ body key ↦ body.take 1 == key
        schnorr := fun _ _ _ ↦ false
        validKey := fun key ↦ key.length == 1 }
    let m : Machine := { checker := checker }
    let ctx := Context.singleInput [] []
    let s : State := { program := [] }
    let sign (n : UInt8) : Bytes := replicate 8 n ++ [0x41]
    let keys : List Bytes := [[1], [2], [3]]
    (∃ u, checkLegacyMultisig m ctx [sign 1, sign 3].reverse keys.reverse s = .ok true u) ∧
      ∃ u, checkLegacyMultisig m ctx [[], sign 3].reverse keys.reverse s =
        .error .nonNullSignatureFailure u := by
  intro checker m ctx s sign keys
  have hwritten (n : UInt8) : IsWritten (sign n) (replicate 8 n) ⟨.all, false, false, rfl⟩ :=
    ⟨rfl, 0x41, rfl, rfl⟩
  have hsign (n : UInt8) : (sign n).length ≠ 65 ∧ ∃ body t, IsWritten (sign n) body t :=
    ⟨by simp [sign], _, _, hwritten n⟩
  have hkeys : ∀ key ∈ keys, m.checker.validKey key = true := by decide
  have hmessage (t) : ∃ message, m.signingMessage ctx s.activeBytecode t = .ok message := ⟨_, rfl⟩
  have hsigns (n : UInt8) : Signs m ctx s.activeBytecode (sign n) [n] :=
    ⟨_, _, _, hwritten n, rfl, by
      simp [m, checker, SignatureChecker.verify, Signature.Schnorr.length]⟩
  constructor
  · refine (legacy_multisig_decides_matching m ctx s _ keys (by decide) ?_ hkeys hmessage).1.mpr
      ⟨![0, 2], by decide, ?_⟩
    · simp [hsign]
    · intro i
      fin_cases i
      · exact ⟨(hsigns 1).ne_nil, hsigns 1⟩
      · exact ⟨(hsigns 3).ne_nil, hsigns 3⟩
  · refine (legacy_multisig_decides_matching m ctx s _ keys (by decide) ?_ hkeys hmessage).2.2.1
      ?_ ⟨sign 3, by simp, by simp [sign]⟩
    · simp [hsign]
    · rintro ⟨f, -, hf⟩
      exact (hf ⟨0, by decide⟩).1 rfl

end Action

end ScriptMachine
