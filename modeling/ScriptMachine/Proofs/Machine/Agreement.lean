import ScriptMachine.Proofs.Machine.Trace

/-!
# Tracing and evaluating agree

Tracing keeps every state and evaluating keeps only the last, in two recursions of their own. Both
make the same run: it leads from state to state by steps, and ends at the first halted one. The
verdict on bytecode is the fault that the last state of its trace shows.
-/

namespace ScriptMachine.Machine

variable {m : Machine} {ctx : Context} {s last : State} {states : List State}

variable (m ctx) in
/-- The states lead from `s` to `last` by steps, none of which starts at a halted state. -/
structure IsRun (s last : State) (states : List State) : Prop where
  head : states.head? = some s
  steps : states.IsChain fun t u ↦ t.isHalted = false ∧ u = m.step ctx t
  last : states.getLast? = some last

namespace IsRun

variable (m ctx) in
theorem refl (s : State) : m.IsRun ctx s s [s] := ⟨rfl, .singleton s, rfl⟩

theorem cons (hs : s.isHalted = false) (h : m.IsRun ctx (m.step ctx s) last states) :
    m.IsRun ctx s last (s :: states) := by
  refine ⟨rfl, List.isChain_cons.mpr ⟨?_, h.steps⟩, ?_⟩
  · intro t ht
    rw [h.head] at ht
    cases ht
    exact ⟨hs, rfl⟩
  · rw [List.getLast?_cons, h.last, Option.getD_some]

theorem ne_nil (h : m.IsRun ctx s last states) : states ≠ [] := by
  rintro rfl
  cases h.head

theorem step_getElem? (h : m.IsRun ctx s last states) {k : Nat} (hk : k + 1 < states.length) :
    ∃ t, states[k]? = some t ∧ t.isHalted = false ∧ states[k + 1]? = some (m.step ctx t) := by
  obtain ⟨hrunning, hstep⟩ := List.isChain_iff_getElem.mp h.steps k hk
  refine ⟨states[k], List.getElem?_eq_getElem _, hrunning, ?_⟩
  rw [List.getElem?_eq_getElem hk, hstep]

end IsRun

variable (m ctx) in
/-- The two recursions make the same run, however many steps they may take. -/
theorem isRun_traceFor (limit : Nat) (s : State) :
    m.IsRun ctx s (m.runFor ctx limit s) (m.traceFor ctx limit s) := by
  induction limit generalizing s with
  | zero => exact .refl m ctx s
  | succ limit ih =>
    rw [runFor, traceFor]
    split
    · exact .refl m ctx s
    · rename_i hs
      exact (ih (m.step ctx s)).cons (Bool.eq_false_of_not_eq_true hs)

variable (m ctx) in
theorem isRun_trace (s : State) : m.IsRun ctx s (m.evaluate ctx s) (m.trace ctx s) :=
  m.isRun_traceFor ctx (stepBound s) s

theorem isHalted_evaluate_iff :
    (m.evaluate ctx s).isHalted = true ↔
      ∃ n ≤ s.program.length + stepLimit, ((m.step ctx)^[n] s).isHalted = true := by
  constructor
  · intro h
    refine ⟨stepBound s, ?_, by rwa [← evaluate_eq_iterate]⟩
    unfold stepBound
    split
    · exact Nat.zero_le _
    · exact Nat.le_refl _
  · rintro ⟨n, hn, h⟩
    rwa [evaluate_eq_of_isHalted hn h]

/-- The trace of an evaluation starts at the given state, goes on by steps from states that are not
halted, and has the result of the evaluation as its last state but one; the last state differs from
that one only in its fault, which is the verdict. The result is halted if any state is that can be
reached in as many steps as are counted. So the last fault of a final trace is the verdict on the
bytecode. -/
theorem debug_agrees_with_evaluate (m : Machine) (ctx : Context) (s : State)
    (completion : Completion) :
    let states := m.debug ctx s completion
    2 ≤ states.length ∧ states[0]? = some s ∧
      (∀ k < states.length - 2, ∃ t, states[k]? = some t ∧ t.isHalted = false ∧
        states[k + 1]? = some (m.step ctx t)) ∧
      states[states.length - 2]? = some (m.evaluate ctx s) ∧
      states.getLast? =
        some { m.evaluate ctx s with fault := (m.evaluate ctx s).verdict completion } ∧
      ((m.evaluate ctx s).isHalted = true ↔
        ∃ n ≤ s.program.length + stepLimit, ((m.step ctx)^[n] s).isHalted = true) ∧
      ∀ bytecode, (m.debug ctx (m.start ctx bytecode) .final).getLast?.map State.fault =
        some (m.verdict ctx bytecode) := by
  intro states
  have hrun := m.isRun_trace ctx s
  obtain ⟨count, hcount⟩ : ∃ count, (m.trace ctx s).length = count + 1 :=
    Nat.exists_eq_succ_of_ne_zero (List.length_pos_iff.mpr hrun.ne_nil).ne'
  have hstates : states = m.trace ctx s ++ [(m.evaluate ctx s).complete completion] :=
    debug_eq s completion
  have hlength : states.length = count + 2 := by simp [hstates, hcount]
  -- All states but the last are those of the run.
  have hget : ∀ k ≤ count, states[k]? = (m.trace ctx s)[k]? := by
    intro k hk
    rw [hstates, List.getElem?_append_left (by omega)]
  refine ⟨by omega, head?_debug ▸ List.head?_eq_getElem?.symm, ?_, ?_, getLast?_debug,
    isHalted_evaluate_iff, fun bytecode ↦ ?_⟩
  · intro k hk
    rw [hget k (by omega), hget (k + 1) (by omega)]
    exact hrun.step_getElem? (by omega)
  · have hlast := hrun.last
    rw [List.getLast?_eq_getElem?, hcount] at hlast
    rw [hlength, hget _ (by omega)]
    exact hlast
  · rw [getLast?_debug]
    rfl

end ScriptMachine.Machine
