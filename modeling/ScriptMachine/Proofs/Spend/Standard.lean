import ScriptMachine.Proofs.Spend.Relaxation

/-!
# Standard rules only restrict

Standard rules charge more for digests, allow fewer of them and refuse some opcodes. What passes
them passes without them too, and all that differs on the way is what digests cost and how many are
allowed.
-/

namespace ScriptMachine

theorem Amount.add_le_add {a a' b b' : Nat} (ha : a ≤ a') (hb : b ≤ b') :
    Amount.add a b ≤ Amount.add a' b' := by
  unfold Amount.add
  omega

theorem Amount.mul_le_mul_left {a b b' : Nat} (h : b ≤ b') : Amount.mul a b ≤ Amount.mul a b' := by
  have hmul := Nat.mul_le_mul_left a h
  unfold Amount.mul
  omega

/-- The meter with another cost, another share of it for digests, and another number of digests
allowed. -/
def Meter.reprice (m : Meter) (cost hashing iterations : Nat) : Meter :=
  { m with
    cost := cost
    profile := { m.profile with hashing := hashing }
    budget := { m.budget with hashIterations := iterations } }

/-- The second meter has counted the same work, but digests have cost no more, and no fewer of them
are allowed. -/
def Meter.Cheaper (m m' : Meter) : Prop :=
  ∃ cost hashing iterations,
    (cost ≤ m.cost ∧ hashing ≤ m.profile.hashing ∧ m.budget.hashIterations ≤ iterations) ∧
      m' = m.reprice cost hashing iterations

namespace Meter.Cheaper

variable {m m' : Meter}

/-- Only digests may be charged for differently. -/
theorem charge (h : m.Cheaper m') (work : Work) {amount amount' : Nat} (hle : amount' ≤ amount)
    (heq : work ≠ .hashing → amount' = amount) :
    (m.charge work amount).Cheaper (m'.charge work amount') := by
  obtain ⟨cost, hashing, iterations, ⟨hcost, hhashing, hiterations⟩, rfl⟩ := h
  have hcost' : Amount.add cost amount' ≤ Amount.add m.cost amount := Amount.add_le_add hcost hle
  by_cases hwork : work = .hashing
  · subst hwork
    exact ⟨_, _, iterations, ⟨hcost', Amount.add_le_add hhashing hle, hiterations⟩, rfl⟩
  · obtain rfl := heq hwork
    cases work with
    | hashing => exact absurd rfl hwork
    | base | push | arithmetic | signatureChecks | repeated =>
      exact ⟨_, hashing, iterations, ⟨hcost', hhashing, hiterations⟩, rfl⟩

theorem withinBudget (h : m.Cheaper m') (hm : m.WithinBudget) : m'.WithinBudget := by
  obtain ⟨cost, hashing, iterations, ⟨hcost, -, hiterations⟩, rfl⟩ := h
  exact ⟨hcost.trans hm.cost, hm.hashIterations.trans hiterations, hm.signatureChecks⟩

end Meter.Cheaper

theorem Policy.relaxes_nonstandard {p : Policy}
    (hcost : p.nonstandard.hashIterationCost ≤ p.hashIterationCost)
    (hbudget : ∀ density, p.maxHashIterations density ≤ p.nonstandard.maxHashIterations density) :
    p.Relaxes Meter.Cheaper p.nonstandard where
  limits_eq := rfl
  standard hstandard := by cases hstandard
  opcode _ _ hop _ := hop
  unknown _ hop := hop
  start density := ⟨0, 0, _, ⟨le_rfl, le_rfl, hbudget density⟩, rfl⟩
  instruction := by
    rintro m _ ⟨cost, hashing, iterations, hle, rfl⟩
    refine Meter.Cheaper.charge ?_ .base le_rfl fun _ ↦ rfl
    exact ⟨cost, hashing, iterations, hle, rfl⟩
  push := by
    rintro m _ bytes ⟨cost, hashing, iterations, hle, rfl⟩
    refine Meter.Cheaper.charge ?_ .push le_rfl fun _ ↦ rfl
    exact ⟨cost, hashing, iterations, hle, rfl⟩
  arithmetic := by
    rintro m _ bytes ⟨cost, hashing, iterations, hle, rfl⟩
    refine Meter.Cheaper.charge ?_ .arithmetic le_rfl fun _ ↦ rfl
    exact ⟨cost, hashing, iterations, hle, rfl⟩
  hash := by
    rintro m _ count ⟨cost, hashing, iterations, hle, rfl⟩
    refine Meter.Cheaper.charge ?_ .hashing (Amount.mul_le_mul_left hcost) ?_
    · exact ⟨cost, hashing, iterations, hle, rfl⟩
    · exact fun hwork ↦ absurd rfl hwork
  signatureChecks := by
    rintro m _ count ⟨cost, hashing, iterations, hle, rfl⟩
    refine Meter.Cheaper.charge ?_ .signatureChecks le_rfl fun _ ↦ rfl
    exact ⟨cost, hashing, iterations, hle, rfl⟩
  repeated := by
    rintro m _ bytes ⟨cost, hashing, iterations, hle, rfl⟩
    refine Meter.Cheaper.charge ?_ .repeated le_rfl fun _ ↦ rfl
    exact ⟨cost, hashing, iterations, hle, rfl⟩
  memory := by
    rintro m _ bytes ⟨cost, hashing, iterations, hle, rfl⟩
    exact ⟨cost, hashing, iterations, hle, rfl⟩
  budget h := h.withinBudget

theorem Policy.relaxes_nonstandard_ofEdition (edition : Edition) :
    (ofEdition edition).Relaxes Meter.Cheaper (ofEdition edition).nonstandard := by
  apply relaxes_nonstandard
  · cases edition <;> decide
  · intro density
    cases edition with
    | y2023 => exact le_rfl
    | y2025 | y2026 => exact Nat.div_le_div_right (Amount.mul_le_mul_left (by decide))

/-- Every spend that passes the standard rules of an edition passes its other rules, in the same
phases and by the same states, but for what their meters say of digests. The same holds of bytecode
on its own. -/
theorem Spend.nonstandard_accepts (edition : Edition) (checker : SignatureChecker)
    (digests : DigestFamily) (ctx : Context) :
    let m : Machine := ⟨.ofEdition edition, checker, digests⟩
    let m' : Machine := ⟨(Policy.ofEdition edition).nonstandard, checker, digests⟩
    (∀ sp : Spend, sp.verdict m ctx = none →
      sp.verdict m' ctx = none ∧
        List.Forall₂ (PhaseTrace.Agree Meter.Cheaper) (sp.debug m ctx) (sp.debug m' ctx)) ∧
      ∀ bytecode, m.verdict ctx bytecode = none →
        m'.verdict ctx bytecode = none ∧
          List.Forall₂ (Agree Meter.Cheaper) (m.debug ctx (m.start ctx bytecode) .final)
            (m'.debug ctx (m'.start ctx bytecode) .final) := by
  intro m m'
  have hrelaxes : m.Relaxes Meter.Cheaper m' :=
    { Policy.relaxes_nonstandard_ofEdition edition with checker_eq := rfl, digests_eq := rfl }
  constructor
  · intro sp hverdict
    exact sp.agree_debug hrelaxes hverdict
  · intro bytecode hverdict
    exact hrelaxes.agree_debug bytecode hverdict

/-- A spend that computes a digest passes both rules, at different cost. -/
theorem Spend.nonstandard_accepts_digest :
    let m : Machine := { policy := .ofEdition .y2025 }
    let m' : Machine := { policy := (Policy.ofEdition .y2025).nonstandard }
    let sp : Spend := ⟨[0x51], [0xa8]⟩
    sp.verdict m {} = none ∧ sp.verdict m' {} = none ∧
      List.Forall₂ (PhaseTrace.Agree Meter.Cheaper) (sp.debug m {}) (sp.debug m' {}) ∧
      (sp.debug m {}).map (fun t ↦ t.trace.map (·.meter.cost)) = [[0, 101, 101], [101, 425, 425]] ∧
      (sp.debug m' {}).map (fun t ↦ t.trace.map (·.meter.cost)) = [[0, 101, 101], [101, 297, 297]] ∧
      m.verdict {} [0x51, 0xa8] = none ∧ m'.verdict {} [0x51, 0xa8] = none := by
  intro m m' sp
  have hspend : sp.verdict m {} = none := by decide +kernel
  have hbytecode : m.verdict {} [0x51, 0xa8] = none := by decide +kernel
  obtain ⟨hspends, hbytecodes⟩ := Spend.nonstandard_accepts .y2025 .standard .standard {}
  obtain ⟨hspend', hphases⟩ := hspends sp hspend
  exact ⟨hspend, hspend', hphases, by decide +kernel, by decide +kernel, hbytecode,
    (hbytecodes _ hbytecode).1⟩

end ScriptMachine
