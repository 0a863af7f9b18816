import ScriptMachine.Proofs.Machine.Monotone
import ScriptMachine.Proofs.Spend.Relaxation

/-!
# One budget for all phases

The phases of a spend share one meter. It starts at zero for the density of the input, goes on from
state to state and from phase to phase, and is never set back, so that no phase gets a budget of its
own.
-/

namespace ScriptMachine

/-- The first state of a trace has this meter, and the meters of the others go on from it. -/
structure MeteredFrom (meter : Meter) (trace : List State) : Prop where
  head : ∃ first, trace.head? = some first ∧ first.meter = meter
  chain : trace.IsChain fun s t ↦ s.meter.Advances t.meter
  capped : ∀ s ∈ trace, s.meter.Capped

namespace MeteredFrom

variable {meter : Meter} {trace trace' : List State}

theorem append {last : State} (h : MeteredFrom meter trace) (hlast : trace.getLast? = some last)
    (h' : MeteredFrom last.meter trace') : MeteredFrom meter (trace ++ trace') := by
  obtain ⟨first, hfirst, hmeter⟩ := h.head
  obtain ⟨first', hfirst', hmeter'⟩ := h'.head
  refine ⟨⟨first, ?_, hmeter⟩, ?_, ?_⟩
  · rw [List.head?_append, hfirst]
    rfl
  · apply h.chain.append h'.chain
    intro s hs t ht
    rw [hlast] at hs
    rw [hfirst'] at ht
    cases hs
    cases ht
    rw [hmeter']
    exact .refl _
  · intro s hs
    rcases List.mem_append.mp hs with hs | hs
    · exact h.capped s hs
    · exact h'.capped s hs

theorem singleton {s : State} (hs : s.meter.Capped) : MeteredFrom s.meter [s] :=
  ⟨⟨s, rfl, rfl⟩, by simp, by simpa using hs⟩

theorem of_trace {m : Machine} {ctx : Context} {first : State} (h : first.meter.Capped) :
    MeteredFrom first.meter (m.trace ctx first) := by
  obtain ⟨hchain, hcapped⟩ := m.advances_trace ctx h
  exact ⟨⟨first, Machine.head?_traceFor _ _, rfl⟩, hchain, hcapped⟩

theorem pairwise (h : MeteredFrom meter trace) :
    trace.Pairwise fun s t ↦ ∀ counter, s.meter.read counter ≤ t.meter.read counter := by
  have htrans : IsTrans State
      fun s t ↦ ∀ counter, s.meter.read counter ≤ t.meter.read counter :=
    ⟨fun _ _ _ hst htu counter ↦ (hst counter).trans (htu counter)⟩
  exact (h.chain.imp fun _ _ hst ↦ hst.read_le).pairwise

theorem budget_eq (h : MeteredFrom meter trace) {s : State} (hs : s ∈ trace) :
    s.meter.budget = meter.budget := by
  obtain ⟨first, hfirst, rfl⟩ := h.head
  obtain ⟨rest, rfl⟩ := List.head?_eq_some_iff.mp hfirst
  have htrans : IsTrans State fun s t ↦ t.meter.budget = s.meter.budget :=
    ⟨fun _ _ _ hst htu ↦ htu.trans hst⟩
  rcases List.mem_cons.mp hs with rfl | hs
  · rfl
  · exact (h.chain.imp fun _ _ hst ↦ hst.budget_eq).rel_cons hs

/-- A state is reached by no more instructions than there are states before it. -/
theorem instructions_lt (h : MeteredFrom meter trace) {s : State} (hs : s ∈ trace) :
    s.meter.instructions < meter.instructions + trace.length := by
  obtain ⟨head, chain, -⟩ := h
  induction trace generalizing meter with
  | nil => cases hs
  | cons first rest ih =>
    obtain ⟨_, hfirst, rfl⟩ := head
    cases hfirst
    rcases List.mem_cons.mp hs with rfl | hs
    · simp
    · cases rest with
      | nil => cases hs
      | cons second rest =>
        obtain ⟨hnext, hrest⟩ := List.isChain_cons_cons.mp chain
        have hbound := ih hs ⟨second, rfl, rfl⟩ hrest
        have hcount := hnext.instructions_le
        simp only [List.length_cons] at hbound ⊢
        omega

end MeteredFrom

/-! ## Phases -/

/-- A judgement that respects every relation of meters leaves the meter alone. -/
theorem meter_eq_of_isJudgement {judge : State → State} (h : ∀ R, IsJudgement R judge) (s : State) :
    (judge s).meter = s.meter := by
  obtain ⟨_, hmeter, -⟩ := (h fun meter _ ↦ meter = s.meter).agree s s ⟨s.meter, rfl, rfl⟩
  exact hmeter

namespace PhaseTrace

variable {m : Machine} {ctx : Context} {t t' : PhaseTrace} {first s : State}

/-- The phase is an evaluation from this state whose end is judged once more. -/
def Evaluates (m : Machine) (ctx : Context) (t : PhaseTrace) (first : State) : Prop :=
  ∃ judge, (∀ R, IsJudgement R judge) ∧
    t.trace = m.trace ctx first ++ [judge (m.evaluate ctx first)]

theorem Evaluates.meteredFrom (h : t.Evaluates m ctx first) (hfirst : first.meter.Capped) :
    MeteredFrom first.meter t.trace := by
  obtain ⟨judge, hjudge, htrace⟩ := h
  have hmetered : MeteredFrom first.meter (m.trace ctx first) := .of_trace hfirst
  have hend : (m.trace ctx first).getLast? = some (m.evaluate ctx first) :=
    Machine.getLast?_traceFor _ _
  have hcapped := hmetered.capped _ (List.mem_of_getLast? hend)
  rw [htrace]
  apply hmetered.append hend
  rw [← meter_eq_of_isJudgement hjudge] at hcapped ⊢
  exact .singleton hcapped

/-- A phase that other phases go on from has no fault in any state. -/
theorem Evaluates.fault_eq_none (h : t.Evaluates m ctx first) (hs : t.outcome? = some s) {u : State}
    (hu : u ∈ t.trace) : u.fault = none := by
  obtain ⟨judge, hjudge, htrace⟩ := h
  obtain ⟨hlast, hfault⟩ := outcome?_eq_some_iff.mp hs
  rw [htrace, List.getLast?_concat] at hlast
  cases hlast
  rw [htrace] at hu
  rcases List.mem_append.mp hu with hu | hu
  · exact Machine.fault_eq_none_of_mem_trace ((hjudge Eq).fault _ hfault) hu
  · rw [List.mem_singleton.mp hu]
    exact hfault

/-- The second phase goes on from where the first one ended without a fault. -/
structure Continues (t t' : PhaseTrace) : Prop where
  fault_eq_none : ∀ s ∈ t.trace, s.fault = none
  metered : ∃ last, t.trace.getLast? = some last ∧ MeteredFrom last.meter t'.trace

theorem Evaluates.capped_outcome (h : t.Evaluates m ctx first) (hfirst : first.meter.Capped)
    (hs : t.outcome? = some s) : s.meter.Capped := by
  obtain ⟨hlast, -⟩ := outcome?_eq_some_iff.mp hs
  exact (h.meteredFrom hfirst).capped s (List.mem_of_getLast? hlast)

theorem Evaluates.continues {first' : State} (h : t.Evaluates m ctx first)
    (hfirst : first.meter.Capped) (hs : t.outcome? = some s) (h' : t'.Evaluates m ctx first')
    (hmeter : first'.meter = s.meter) : t.Continues t' := by
  obtain ⟨hlast, -⟩ := outcome?_eq_some_iff.mp hs
  have hcapped := h.capped_outcome hfirst hs
  refine ⟨fun u hu ↦ h.fault_eq_none hs hu, s, hlast, ?_⟩
  rw [← hmeter] at hcapped ⊢
  exact h'.meteredFrom hcapped

/-- Phases that go on from each other make one trace. -/
theorem meteredFrom_flatMap {meter : Meter} {rest : List PhaseTrace}
    (h : MeteredFrom meter t.trace) (hchain : (t :: rest).IsChain Continues) :
    MeteredFrom meter ((t :: rest).flatMap trace) := by
  induction rest generalizing t meter with
  | nil => simpa using h
  | cons t' rest ih =>
    obtain ⟨⟨-, last, hlast, hmetered⟩, hrest⟩ := List.isChain_cons_cons.mp hchain
    rw [List.flatMap_cons]
    exact h.append hlast (ih hmetered hrest)

theorem fault_eq_none_of_mem_dropLast {phases : List PhaseTrace} (h : phases.IsChain Continues)
    (ht : t ∈ phases.dropLast) : ∀ s ∈ t.trace, s.fault = none := by
  induction phases with
  | nil => cases ht
  | cons first rest ih =>
    cases rest with
    | nil => cases ht
    | cons second rest =>
      obtain ⟨hfirst, hrest⟩ := List.isChain_cons_cons.mp h
      rw [List.dropLast_cons_cons] at ht
      rcases List.mem_cons.mp ht with rfl | ht
      · exact hfirst.fault_eq_none
      · exact ih hrest ht

end PhaseTrace

namespace Spend

variable (sp : Spend) (m : Machine) (ctx : Context)

theorem meter_unlockingStart :
    (sp.unlockingStart m ctx).meter = .start m.policy (ctx.density sp.unlocking.length) := by
  unfold unlockingStart
  dsimp only
  split
  · rfl
  · rfl

theorem evaluates_unlockingPhase :
    (sp.unlockingPhase m ctx).Evaluates m ctx (sp.unlockingStart m ctx) :=
  ⟨_, fun _ ↦ isJudgement_complete .partway, Machine.debug_eq _ _⟩

theorem evaluates_lockingPhase (unlocked : State) :
    (sp.lockingPhase m ctx unlocked).Evaluates m ctx
      (m.load sp.locking unlocked.stack unlocked.meter) := by
  have htrace := sp.lockingTrace_eq m ctx unlocked
  by_cases hlocking : isScriptHash sp.locking = true
  · simp only [hlocking, if_true] at htrace
    exact ⟨_, fun _ ↦ isJudgement_requireTruthyTop .partway, htrace⟩
  · simp only [hlocking] at htrace
    exact ⟨_, fun _ ↦ isJudgement_complete .final, htrace⟩

theorem evaluates_redeemPhase (script : Bytes) (stack : List Bytes) (meter : Meter) :
    (redeemPhase m ctx script stack meter).Evaluates m ctx (m.load script stack meter) :=
  ⟨_, fun _ ↦ isJudgement_complete .final, Machine.debug_eq _ _⟩

theorem exists_debug_eq :
    ∃ rest, sp.debug m ctx = sp.unlockingPhase m ctx :: rest ∧
      (sp.unlockingPhase m ctx :: rest).IsChain PhaseTrace.Continues := by
  have hstart : (sp.unlockingStart m ctx).meter.Capped := by
    rw [meter_unlockingStart]
    exact Meter.capped_start _ _
  have hunlocking := sp.evaluates_unlockingPhase m ctx
  -- The phases end with the first that has no outcome, and only a script hash has a third.
  cases hunlocked : (sp.unlockingPhase m ctx).outcome? with
  | none => exact ⟨[], by simp [debug, hunlocked], by simp⟩
  | some unlocked =>
    have hlocking := sp.evaluates_lockingPhase m ctx unlocked
    have hfirst := hunlocking.continues hstart hunlocked hlocking rfl
    have htwo : [sp.unlockingPhase m ctx, sp.lockingPhase m ctx unlocked].IsChain
        PhaseTrace.Continues := by
      simpa using hfirst
    cases hlocked : (sp.lockingPhase m ctx unlocked).outcome? with
    | none => exact ⟨_, by simp [debug, hunlocked, hlocked], htwo⟩
    | some locked =>
      cases hstack : unlocked.stack with
      | nil => exact ⟨_, by simp [debug, hunlocked, hlocked, hstack], htwo⟩
      | cons script below =>
        by_cases hscript : isScriptHash sp.locking = true
        · have hcapped := hunlocking.capped_outcome hstart hunlocked
          have hsecond := hlocking.continues hcapped hlocked
            (evaluates_redeemPhase m ctx script below locked.meter) rfl
          refine ⟨[sp.lockingPhase m ctx unlocked, redeemPhase m ctx script below locked.meter],
            by simp [debug, hunlocked, hlocked, hstack, hscript], ?_⟩
          simpa using ⟨hfirst, hsecond⟩
        · exact ⟨_, by simp [debug, hunlocked, hlocked, hstack, hscript], htwo⟩

/-- All states of all phases, one after the other, are metered as one evaluation: it starts at zero
with the budgets for the density of the input, no counter ever falls, and the budgets stay. Each
phase goes on with the meter that the one before it ended with, and there is no phase after one with
a fault. As long as there are no more than `2 ^ 64` states, the instructions fit the word that
counts them. -/
theorem one_budget (sp : Spend) (m : Machine) (ctx : Context) :
    let phases := sp.debug m ctx
    let states := phases.flatMap (·.trace)
    let fresh := Meter.start m.policy (ctx.density sp.unlocking.length)
    (∃ first, states.head? = some first ∧ first.meter = fresh) ∧
      states.Pairwise (fun s t ↦ ∀ counter, s.meter.read counter ≤ t.meter.read counter) ∧
      (∀ s ∈ states, s.meter.budget = fresh.budget) ∧
      phases.IsChain (fun t t' ↦ ∃ last first, t.trace.getLast? = some last ∧
        t'.trace.head? = some first ∧ first.meter = last.meter) ∧
      (∀ t ∈ phases.dropLast, ∀ s ∈ t.trace, s.fault = none) ∧
      (states.length ≤ 2 ^ 64 → ∀ s ∈ states, s.meter.instructions < 2 ^ 64) := by
  intro phases states fresh
  obtain ⟨rest, hphases, hchain⟩ := sp.exists_debug_eq m ctx
  have hfirst : MeteredFrom fresh (sp.unlockingPhase m ctx).trace := by
    have hmeter : (sp.unlockingStart m ctx).meter = fresh := sp.meter_unlockingStart m ctx
    have hcapped : fresh.Capped := Meter.capped_start _ _
    rw [← hmeter] at hcapped ⊢
    exact (sp.evaluates_unlockingPhase m ctx).meteredFrom hcapped
  have hall : MeteredFrom fresh states := by
    change MeteredFrom fresh ((sp.debug m ctx).flatMap _)
    rw [hphases]
    exact PhaseTrace.meteredFrom_flatMap hfirst hchain
  rw [← hphases] at hchain
  refine ⟨hall.head, hall.pairwise, fun s hs ↦ hall.budget_eq hs, hchain.imp ?_, ?_, ?_⟩
  · intro t t' ht
    obtain ⟨last, hlast, hmetered⟩ := ht.metered
    obtain ⟨first, hhead, hmeter⟩ := hmetered.head
    exact ⟨last, first, hlast, hhead, hmeter⟩
  · intro t ht
    exact PhaseTrace.fault_eq_none_of_mem_dropLast hchain ht
  · intro hlength s hs
    have hcount := hall.instructions_lt hs
    have hzero : fresh.instructions = 0 := rfl
    omega

/-- Three phases go on from each other's cost, under the budget of the first. -/
theorem one_budget_script :
    let script : Bytes := [0x93, 0x55, 0x87]
    let locking : Bytes := [0xaa, 0x20] ++ Digest.hash256 script ++ [0x87]
    let sp : Spend := ⟨[0x52, 0x53, 0x03] ++ script, locking⟩
    let states := (sp.debug {} {}).flatMap (·.trace)
    (sp.debug {} {}).map (fun t ↦ t.trace.map (·.meter.cost)) =
        [[0, 101, 202, 305, 305], [305, 821, 953, 1054, 1054], [1054, 1156, 1257, 1358, 1358]] ∧
      states.length ≤ 2 ^ 64 ∧ (∀ s ∈ states, s.meter.instructions < 2 ^ 64) ∧
      (∀ s ∈ states, s.meter.budget = ⟨47, 37600, 23, 1⟩) := by
  intro script locking sp states
  have hlength : states.length ≤ 2 ^ 64 := by
    have heq : states.length = 15 := by decide +kernel
    omega
  have hfresh : (Meter.start (.ofEdition .y2025) (Context.density {} sp.unlocking.length)).budget =
      ⟨47, 37600, 23, 1⟩ := by decide +kernel
  obtain ⟨-, -, hbudget, -, -, hcount⟩ := one_budget sp {} {}
  exact ⟨by decide +kernel, hlength, hcount hlength, fun s hs ↦ (hbudget s hs).trans hfresh⟩

end Spend

end ScriptMachine
