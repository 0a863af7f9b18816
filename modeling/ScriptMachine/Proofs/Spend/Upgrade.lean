import ScriptMachine.Proofs.Spend.Relaxation

/-!
# The edition with loops extends the one before it

Loops take the bytes of two opcodes that fail wherever they stand, dead branches included. A success
without loops has therefore called neither of the two, and with loops it goes through the same
states. In the payload of a push the two bytes mean nothing, and may occur freely.
-/

namespace ScriptMachine

namespace Opcode

/-- What becomes of an opcode in the edition with loops. -/
def withLoops (op : Opcode) : Opcode :=
  if op = .reserved .verIf then .loop .begin
  else if op = .reserved .verNotIf then .loop .until
  else op

theorem byte_withLoops (op : Opcode) : op.withLoops.byte = op.byte := by
  unfold withLoops
  split_ifs with hif hnotif
  · rw [hif]
    rfl
  · rw [hnotif]
    rfl
  · rfl

/-- Only opcodes that always fail get another meaning. -/
theorem withLoops_of_not_fails {op : Opcode} (h : Machine.failsAlways op = none) :
    op.withLoops = op := by
  unfold withLoops
  split_ifs with hif hnotif
  · rw [hif] at h
    cases h
  · rw [hnotif] at h
    cases h
  · rfl

theorem ofByte?_y2026 {edition : Edition} (h : edition.hasLoops = false) (byte : UInt8) :
    ofByte? .y2026 byte = (ofByte? edition byte).map withLoops := by
  have htable : available .y2026 = table.map withLoops := rfl
  have hplain : available edition = table := by simp [available, h]
  unfold ofByte?
  rw [htable, hplain, List.find?_map]
  congr 2
  funext op
  simp only [Function.comp_apply, byte_withLoops]

end Opcode

/-- Under the same limits and costs, the edition with loops allows all that an edition without them
does, and meters it in the same way. -/
theorem Policy.relaxes_loops {p : Policy} (h : p.edition.hasLoops = false) :
    p.Relaxes Eq { p with edition := .y2026 } where
  limits_eq := rfl
  standard hstandard := hstandard
  opcode byte op hop hfails := by
    rw [Opcode.ofByte?_y2026 h, hop, Option.map_some, Opcode.withLoops_of_not_fails hfails]
  unknown byte hop := by
    rw [Opcode.ofByte?_y2026 h, hop, Option.map_none]
  start density := rfl
  instruction hm := by rw [hm]; rfl
  push bytes hm := by rw [hm]; rfl
  arithmetic bytes hm := by rw [hm]; rfl
  hash iterations hm := by rw [hm]; rfl
  signatureChecks count hm := by rw [hm]; rfl
  repeated bytes hm := by rw [hm]; rfl
  memory bytes hm := by rw [hm]
  budget hm hbudget := hm ▸ hbudget

theorem eq_of_forall₂ {α : Type} {R : α → α → Prop} (hR : ∀ a b, R a b → b = a) {l l' : List α}
    (h : List.Forall₂ R l l') : l' = l := by
  induction h with
  | nil => rfl
  | cons hab _ ih => rw [hR _ _ hab, ih]

theorem Agree.eq {s s' : State} (h : Agree Eq s s') : s' = s := by
  obtain ⟨meter, rfl, rfl⟩ := h
  rfl

theorem PhaseTrace.Agree.eq {t t' : PhaseTrace} (h : t.Agree Eq t') : t' = t := by
  obtain ⟨hphase, hbytecode, htrace⟩ := h
  have heq : t'.trace = t.trace := eq_of_forall₂ (fun _ _ hs ↦ hs.eq) htrace
  cases t
  cases t'
  simp only at hphase hbytecode heq
  rw [hphase, hbytecode, heq]

/-- Every spend that passes the rules of 2025 passes those of 2026, in the same phases and by the
same states, meters included. The same holds of bytecode on its own. Both are standard rules, or
both are not. -/
theorem Spend.upgrade_accepts (standard : Bool) (checker : SignatureChecker)
    (digests : DigestFamily) (ctx : Context) :
    let m : Machine := ⟨{ Policy.ofEdition .y2025 with standard := standard }, checker, digests⟩
    let m' : Machine := ⟨{ Policy.ofEdition .y2026 with standard := standard }, checker, digests⟩
    (∀ sp : Spend, sp.verdict m ctx = none →
      sp.verdict m' ctx = none ∧ sp.debug m' ctx = sp.debug m ctx) ∧
      ∀ bytecode, m.verdict ctx bytecode = none →
        m'.verdict ctx bytecode = none ∧
          m'.debug ctx (m'.start ctx bytecode) .final =
            m.debug ctx (m.start ctx bytecode) .final := by
  intro m m'
  have hloops : m.policy.edition.hasLoops = false := rfl
  have hrelaxes : m.Relaxes Eq m' :=
    { Policy.relaxes_loops hloops with checker_eq := rfl, digests_eq := rfl }
  constructor
  · intro sp hverdict
    obtain ⟨hverdict', hphases⟩ := sp.agree_debug hrelaxes hverdict
    exact ⟨hverdict', eq_of_forall₂ (fun _ _ ht ↦ ht.eq) hphases⟩
  · intro bytecode hverdict
    obtain ⟨hverdict', hstates⟩ := hrelaxes.agree_debug bytecode hverdict
    exact ⟨hverdict', eq_of_forall₂ (fun _ _ hs ↦ hs.eq) hstates⟩

/-- The bytes of loops are pushed, also in a branch that is not taken. Called there, they fail
without loops only. -/
theorem Spend.upgrade_accepts_payload :
    let m : Machine := { policy := .ofEdition .y2025 }
    let m' : Machine := { policy := .ofEdition .y2026 }
    let sp : Spend := ⟨[0x02, 0x65, 0x66], [0x00, 0x63, 0x01, 0x65, 0x75, 0x68, 0xa8]⟩
    let called : Bytes := [0x00, 0x63, 0x65, 0x66, 0x68, 0x51]
    sp.verdict m {} = none ∧ sp.verdict m' {} = none ∧ sp.debug m' {} = sp.debug m {} ∧
      m.verdict {} sp.unlocking = none ∧ m'.verdict {} sp.unlocking = none ∧
      m.verdict {} called ≠ none ∧ m'.verdict {} called = none := by
  intro m m' sp called
  have hspend : sp.verdict m {} = none := by decide +kernel
  have hbytecode : m.verdict {} sp.unlocking = none := by decide +kernel
  obtain ⟨hspends, hbytecodes⟩ := Spend.upgrade_accepts true .standard .standard {}
  obtain ⟨hspend', hdebug⟩ := hspends sp hspend
  exact ⟨hspend, hspend', hdebug, hbytecode, (hbytecodes _ hbytecode).1, by decide +kernel,
    by decide +kernel⟩

end ScriptMachine
