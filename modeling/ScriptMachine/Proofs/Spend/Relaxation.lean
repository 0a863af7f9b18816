import ScriptMachine.Proofs.Machine.Relaxation
import ScriptMachine.Proofs.Spend.ScriptHash

/-!
# Spends under laxer rules

A spend that succeeds has the same phases under laxer rules. Every phase is an evaluation whose last
state is judged once more, and the judgement does not look at the meter.
-/

namespace ScriptMachine

variable {R : Meter → Meter → Prop}

/-- The phases are the same, and their states agree. -/
structure PhaseTrace.Agree (R : Meter → Meter → Prop) (t t' : PhaseTrace) : Prop where
  phase_eq : t'.phase = t.phase
  bytecode_eq : t'.bytecode = t.bytecode
  trace : List.Forall₂ (ScriptMachine.Agree R) t.trace t'.trace

/-- A judgement on the last state of an evaluation: it keeps faults, and does not look at the
meter. -/
structure IsJudgement (R : Meter → Meter → Prop) (judge : State → State) : Prop where
  fault : ∀ s, (judge s).fault = none → s.fault = none
  agree : ∀ s s', Agree R s s' → Agree R (judge s) (judge s')

theorem isJudgement_complete (completion : Completion) :
    IsJudgement R (·.complete completion) where
  fault _ h := State.fault_eq_none_of_verdict h
  agree _ _ h := h.complete completion

theorem isJudgement_requireTruthyTop (completion : Completion) :
    IsJudgement R fun s ↦ Spend.requireTruthyTop (s.complete completion) where
  fault s h := State.fault_eq_none_of_verdict (Spend.eq_of_requireTruthyTop h).2.1
  agree := by
    rintro s _ ⟨meter, hmeter, rfl⟩
    unfold Spend.requireTruthyTop
    change Agree R _ (if (s.complete completion).fault.isNone &&
      !(s.complete completion).top?.any ScriptNumber.isTruthy then _ else _)
    split
    · exact ⟨meter, hmeter, rfl⟩
    · exact ⟨meter, hmeter, rfl⟩

variable {m m' : Machine} (h : m.Relaxes R m') {ctx : Context}
include h

/-- A phase with an outcome has one under laxer rules too. -/
theorem agree_of_outcome {judge : State → State} (hjudge : IsJudgement R judge)
    {first first' s : State} (hfirst : Agree R first first') {t t' : PhaseTrace}
    (hphase : t'.phase = t.phase) (hbytecode : t'.bytecode = t.bytecode)
    (htrace : t.trace = m.trace ctx first ++ [judge (m.evaluate ctx first)])
    (htrace' : t'.trace = m'.trace ctx first' ++ [judge (m'.evaluate ctx first')])
    (hs : t.outcome? = some s) :
    t.Agree R t' ∧ ∃ s', t'.outcome? = some s' ∧ Agree R s s' := by
  obtain ⟨hlast, hfault⟩ := PhaseTrace.outcome?_eq_some_iff.mp hs
  rw [htrace, List.getLast?_concat] at hlast
  obtain rfl := Option.some.inj hlast
  obtain ⟨hstates, hend⟩ := h.agree_trace ctx hfirst (hjudge.fault _ hfault)
  have hjudged := hjudge.agree _ _ hend
  refine ⟨⟨hphase, hbytecode, ?_⟩, _, PhaseTrace.outcome?_eq_some_iff.mpr ⟨?_, ?_⟩, hjudged⟩
  · rw [htrace, htrace']
    exact List.rel_append hstates (.cons hjudged .nil)
  · rw [htrace', List.getLast?_concat]
  · obtain ⟨meter, -, heq⟩ := hjudged
    rw [heq]
    exact hfault

namespace Spend

variable (sp : Spend)

theorem agree_unlockingStart :
    Agree R (sp.unlockingStart m ctx) (sp.unlockingStart m' ctx) := by
  obtain ⟨meter, hmeter, hstart⟩ := h.agree_start ctx sp.unlocking
  unfold unlockingStart
  rw [hstart]
  dsimp only
  split
  · exact ⟨meter, hmeter, rfl⟩
  · exact ⟨meter, hmeter, rfl⟩

theorem agree_unlockingPhase {unlocked : State}
    (hs : (sp.unlockingPhase m ctx).outcome? = some unlocked) :
    (sp.unlockingPhase m ctx).Agree R (sp.unlockingPhase m' ctx) ∧
      ∃ unlocked', (sp.unlockingPhase m' ctx).outcome? = some unlocked' ∧
        ScriptMachine.Agree R unlocked unlocked' :=
  agree_of_outcome h (isJudgement_complete .partway) (agree_unlockingStart h sp) rfl rfl
    (Machine.debug_eq _ _) (Machine.debug_eq _ _) hs

omit h in
theorem lockingTrace_eq (m : Machine) (ctx : Context) (unlocked : State) :
    let s := m.load sp.locking unlocked.stack unlocked.meter
    sp.lockingTrace m ctx unlocked = m.trace ctx s ++
      [if isScriptHash sp.locking then requireTruthyTop ((m.evaluate ctx s).complete .partway)
        else (m.evaluate ctx s).complete .final] := by
  unfold lockingTrace
  by_cases hlocking : isScriptHash sp.locking = true
  · simp [hlocking, Machine.debug_eq]
  · simp [hlocking, Machine.debug_eq]

theorem agree_lockingPhase {unlocked unlocked' locked : State}
    (hunlocked : ScriptMachine.Agree R unlocked unlocked')
    (hs : (sp.lockingPhase m ctx unlocked).outcome? = some locked) :
    (sp.lockingPhase m ctx unlocked).Agree R (sp.lockingPhase m' ctx unlocked') ∧
      ∃ locked', (sp.lockingPhase m' ctx unlocked').outcome? = some locked' ∧
        ScriptMachine.Agree R locked locked' := by
  obtain ⟨meter, hmeter, rfl⟩ := hunlocked
  have hfirst := h.agree_load sp.locking unlocked.stack hmeter
  have htrace := sp.lockingTrace_eq m ctx unlocked
  have htrace' := sp.lockingTrace_eq m' ctx { unlocked with meter := meter }
  by_cases hlocking : isScriptHash sp.locking = true
  · simp only [hlocking, if_true] at htrace htrace'
    exact agree_of_outcome h (isJudgement_requireTruthyTop .partway) hfirst rfl rfl htrace htrace'
      hs
  · simp only [hlocking] at htrace htrace'
    exact agree_of_outcome h (isJudgement_complete .final) hfirst rfl rfl htrace htrace' hs

theorem agree_redeemPhase (script : Bytes) (stack : List Bytes) {meter meter' : Meter}
    (hmeter : R meter meter') {redeemed : State}
    (hs : (redeemPhase m ctx script stack meter).outcome? = some redeemed) :
    (redeemPhase m ctx script stack meter).Agree R (redeemPhase m' ctx script stack meter') ∧
      ∃ redeemed', (redeemPhase m' ctx script stack meter').outcome? = some redeemed' ∧
        ScriptMachine.Agree R redeemed redeemed' :=
  agree_of_outcome h (isJudgement_complete .final) (h.agree_load script stack hmeter) rfl rfl
    (Machine.debug_eq _ _) (Machine.debug_eq _ _) hs

omit h in
theorem verdictOf_eq_none_of_outcome (phases : List PhaseTrace) {t : PhaseTrace} {s : State}
    (hs : t.outcome? = some s) : verdictOf (phases ++ [t]) = none := by
  obtain ⟨hlast, hfault⟩ := PhaseTrace.outcome?_eq_some_iff.mp hs
  rw [verdictOf, List.getLast?_concat, Option.bind_some, hlast]
  exact hfault

/-- A spend that succeeds does so under laxer rules, in the same phases. -/
theorem agree_debug (hverdict : sp.verdict m ctx = none) :
    sp.verdict m' ctx = none ∧
      List.Forall₂ (PhaseTrace.Agree R) (sp.debug m ctx) (sp.debug m' ctx) := by
  obtain ⟨unlocked, locked, hunlocked, hlocked⟩ := exists_outcomes hverdict
  obtain ⟨hunlocking, unlocked', hunlocked', hagree⟩ := agree_unlockingPhase h sp hunlocked
  obtain ⟨hlocking, locked', hlocked', hmeters⟩ := agree_lockingPhase h sp hagree hlocked
  have hstack' : unlocked'.stack = unlocked.stack := by
    obtain ⟨meter, -, rfl⟩ := hagree
    rfl
  have htwo := verdictOf_eq_none_of_outcome [sp.unlockingPhase m' ctx] hlocked'
  unfold verdict debug at *
  simp only [hunlocked, hunlocked', hlocked, hlocked', hstack'] at hverdict ⊢
  cases hstack : unlocked.stack with
  | nil => exact ⟨htwo, .cons hunlocking (.cons hlocking .nil)⟩
  | cons script below =>
    simp only [hstack] at hverdict ⊢
    by_cases hscript : isScriptHash sp.locking = true
    · rw [if_pos hscript] at hverdict
      rw [if_pos hscript, if_pos hscript]
      obtain ⟨redeemed, hredeemed⟩ := outcome?_of_verdictOf_eq_none [_, _] hverdict
      obtain ⟨meter, hmeter, rfl⟩ := hmeters
      obtain ⟨hredeem, redeemed', hredeemed', -⟩ :=
        agree_redeemPhase h script below hmeter hredeemed
      exact ⟨verdictOf_eq_none_of_outcome [_, _] hredeemed',
        .cons hunlocking (.cons hlocking (.cons hredeem .nil))⟩
    · rw [if_neg hscript, if_neg hscript]
      exact ⟨htwo, .cons hunlocking (.cons hlocking .nil)⟩

end Spend

/-- Bytecode that succeeds does so under laxer rules, by the same states. -/
theorem Machine.Relaxes.agree_debug (bytecode : Bytes) (hverdict : m.verdict ctx bytecode = none) :
    m'.verdict ctx bytecode = none ∧
      List.Forall₂ (Agree R) (m.debug ctx (m.start ctx bytecode) .final)
        (m'.debug ctx (m'.start ctx bytecode) .final) := by
  obtain ⟨htrace, hend⟩ := h.agree_trace ctx (h.agree_start ctx bytecode)
    (State.fault_eq_none_of_verdict hverdict)
  have hcomplete := hend.complete .final
  rw [debug_eq, debug_eq]
  refine ⟨?_, List.rel_append htrace (.cons hcomplete .nil)⟩
  obtain ⟨meter, -, heq⟩ := hcomplete
  exact (congrArg State.fault heq).trans hverdict

end ScriptMachine
