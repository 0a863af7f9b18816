import ScriptMachine.Proofs.Machine.Effect

/-!
# Signatures of the spending transaction

What it means that a signature signs the spending transaction does not depend on the meter, while
verifying it changes nothing else of the state. So a check of several signatures can be held against
what it means for each of them, whatever was verified before.
-/

namespace ScriptMachine

/-- A signature is written as its body, which has a length of signatures, and a byte for its
type. -/
def IsWritten (signature body : Bytes) (t : Signing.SignatureType) : Prop :=
  hasSignatureLength body = true ∧
    ∃ type, Signing.SignatureType.ofByte type = .ok t ∧ signature = body ++ [type]

theorem splitSignature?_eq_some_iff {signature body : Bytes} {t : Signing.SignatureType} :
    splitSignature? signature = some (body, t) ↔ IsWritten signature body t := by
  constructor
  · intro h
    unfold splitSignature? at h
    split at h
    · cases h
    · rename_i type hlast
      obtain ⟨start, rfl⟩ := List.getLast?_eq_some_iff.mp hlast
      rw [List.dropLast_concat] at h
      split at h
      · cases h
      · rename_i t' htype
        split at h
        · rename_i hlength
          cases h
          exact ⟨hlength, type, htype, rfl⟩
        · cases h
  · rintro ⟨hlength, type, htype, rfl⟩
    simp [splitSignature?, htype, hlength]

variable (m : Machine) (ctx : Context)

/-- The signature is well formed, there is a message that it commits to, and under the key it
verifies for this message. -/
def Signs (active signature key : Bytes) : Prop :=
  ∃ body t message, IsWritten signature body t ∧ m.signingMessage ctx active t = .ok message ∧
    m.checker.verify (m.digests.hash256 message) body key = true

/-- The signature and the key are well formed, and there is a message to verify. -/
def IsVerifiable (active signature key : Bytes) : Prop :=
  m.checker.validKey key = true ∧
    ∃ body t message, IsWritten signature body t ∧ m.signingMessage ctx active t = .ok message

variable {m ctx} {signature key body message : Bytes} {t : Signing.SignatureType} {s : State}

theorem Signs.ne_nil {active : Bytes} (h : Signs m ctx active signature key) : signature ≠ [] := by
  obtain ⟨body, t, message, ⟨hlength, type, htype, rfl⟩, -⟩ := h
  simp

theorem Signs.isVerifiable {active : Bytes} (h : Signs m ctx active signature key)
    (hkey : m.checker.validKey key = true) : IsVerifiable m ctx active signature key := by
  obtain ⟨body, t, message, hwritten, hmessage, -⟩ := h
  exact ⟨hkey, body, t, message, hwritten, hmessage⟩

theorem IsWritten.signs_iff {active : Bytes} (hwritten : IsWritten signature body t)
    (hmessage : m.signingMessage ctx active t = .ok message) :
    Signs m ctx active signature key ↔
      m.checker.verify (m.digests.hash256 message) body key = true := by
  refine ⟨?_, fun h ↦ ⟨body, t, message, hwritten, hmessage, h⟩⟩
  rintro ⟨body', t', message', hwritten', hmessage', h⟩
  have hsplit := splitSignature?_eq_some_iff.mpr hwritten
  rw [splitSignature?_eq_some_iff.mpr hwritten'] at hsplit
  cases hsplit
  rw [hmessage] at hmessage'
  cases hmessage'
  exact h

/-! ## Verifying -/

namespace Action

theorem verifySignature_of_isWritten (hwritten : IsWritten signature body t)
    (hkey : m.checker.validKey key = true) :
    verifySignature m ctx signature key s =
      match m.signingMessage ctx s.activeBytecode t with
      | .error fault => .error (.signing fault) s
      | .ok message =>
        .ok (m.checker.verify (m.digests.hash256 message) body key) { s with
          meter := s.meter.countHash m.policy (Digest.iterations message.length true) } := by
  unfold verifySignature
  simp only [splitSignature?_eq_some_iff.mpr hwritten, hkey]
  change (match m.signingMessage ctx s.activeBytecode t with | .error _ => _ | .ok _ => _ :
    Action Bool) s = _
  cases m.signingMessage ctx s.activeBytecode t <;> rfl

theorem verifySignature_of_isVerifiable
    (h : IsVerifiable m ctx s.activeBytecode signature key) :
    ∃ verified meter, (verified = true ↔ Signs m ctx s.activeBytecode signature key) ∧
      verifySignature m ctx signature key s = .ok verified { s with meter := meter } := by
  obtain ⟨hkey, body, t, message, hwritten, hmessage⟩ := h
  have happly : verifySignature m ctx signature key s = _ :=
    verifySignature_of_isWritten hwritten hkey
  rw [hmessage] at happly
  exact ⟨_, _, (hwritten.signs_iff hmessage).symm, happly⟩

/-- What cannot be verified fails, and the fault is not one of a bit field. -/
theorem verifySignature_of_not_isVerifiable
    (h : ¬ IsVerifiable m ctx s.activeBytecode signature key) :
    ∃ fault, fault ≠ .invalidBitfield ∧
      verifySignature m ctx signature key s = .error fault s := by
  cases hsplit : splitSignature? signature with
  | none =>
    refine ⟨.invalidSignature, by simp, ?_⟩
    unfold verifySignature
    rw [hsplit]
    rfl
  | some split =>
    obtain ⟨body, t⟩ := split
    have hwritten := splitSignature?_eq_some_iff.mp hsplit
    cases hkey : m.checker.validKey key with
    | false =>
      refine ⟨.invalidPublicKey, by simp, ?_⟩
      unfold verifySignature
      rw [hsplit, hkey]
      rfl
    | true =>
      rw [verifySignature_of_isWritten hwritten hkey]
      cases hmessage : m.signingMessage ctx s.activeBytecode t with
      | error fault => exact ⟨.signing fault, by simp, rfl⟩
      | ok message => exact absurd ⟨hkey, body, t, message, hwritten, hmessage⟩ h

end Action

/-! ## Partners by position -/

theorem forall₂_iff_exists_ofFn {α β : Type} {R : α → β → Prop} {as : List α} {bs : List β} :
    List.Forall₂ R as bs ↔
      ∃ f : Fin as.length → β, bs = List.ofFn f ∧ ∀ i, R (as.get i) (f i) := by
  rw [List.forall₂_iff_get]
  constructor
  · rintro ⟨hlength, h⟩
    refine ⟨fun i ↦ bs.get (i.cast hlength), ?_, fun i ↦ h i i.isLt (hlength ▸ i.isLt)⟩
    apply List.ext_get (by simp [hlength])
    intro i hi hi'
    simp
  · rintro ⟨f, rfl, h⟩
    refine ⟨List.length_ofFn.symm, fun i hi hi' ↦ ?_⟩
    simpa using h ⟨i, hi⟩

end ScriptMachine
