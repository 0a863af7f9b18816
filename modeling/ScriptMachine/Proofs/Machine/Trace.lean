import Mathlib
import ScriptMachine.Machine.Run

/-!
# Traces

The states of a trace follow each other by steps, and only the last one may be halted. A halted
state is a fixed point of steps, so an evaluation is a number of steps that is large enough.
-/

namespace ScriptMachine

theorem State.isHalted_of_fault {s : State} (h : s.fault ≠ none) : s.isHalted = true := by
  simp [isHalted, Option.isSome_iff_ne_none.mpr h]

namespace Machine

variable (m : Machine) (ctx : Context)

theorem step_of_isHalted {s : State} (h : s.isHalted = true) : m.step ctx s = s := by
  simp [step, h]

theorem iterate_of_isHalted {s : State} (h : s.isHalted = true) (n : Nat) :
    (m.step ctx)^[n] s = s :=
  Function.iterate_fixed (m.step_of_isHalted ctx h) n

theorem runFor_eq_iterate (limit : Nat) (s : State) :
    m.runFor ctx limit s = (m.step ctx)^[limit] s := by
  induction limit generalizing s with
  | zero => rfl
  | succ limit ih =>
    rw [runFor]
    split
    · rename_i hs
      exact (m.iterate_of_isHalted ctx hs _).symm
    · exact ih _

theorem stepBound_of_not_halted {s : State} (h : s.isHalted = false) :
    stepBound s = s.program.length + stepLimit := by
  simp [stepBound, h]

theorem evaluate_eq_iterate (s : State) : m.evaluate ctx s = (m.step ctx)^[stepBound s] s :=
  m.runFor_eq_iterate ctx _ s

variable {m ctx}

/-- Once halted, an evaluation stays where it is. -/
theorem iterate_eq_of_le {s : State} {k n : Nat} (hk : k ≤ n)
    (h : ((m.step ctx)^[k] s).isHalted = true) : (m.step ctx)^[n] s = (m.step ctx)^[k] s := by
  have hsplit : (m.step ctx)^[n] s = (m.step ctx)^[n - k] ((m.step ctx)^[k] s) := by
    rw [← Function.iterate_add_apply, Nat.sub_add_cancel hk]
  rw [hsplit, m.iterate_of_isHalted ctx h]

/-- A fault stays. -/
theorem fault_iterate_eq_none {s : State} {k n : Nat} (hk : k ≤ n)
    (h : ((m.step ctx)^[n] s).fault = none) : ((m.step ctx)^[k] s).fault = none := by
  by_contra hfault
  rw [iterate_eq_of_le hk (State.isHalted_of_fault hfault)] at h
  exact hfault h

/-- An evaluation is any number of steps that leads to a halted state. -/
theorem evaluate_eq_of_isHalted {s : State} {n : Nat} (hn : n ≤ s.program.length + stepLimit)
    (h : ((m.step ctx)^[n] s).isHalted = true) : m.evaluate ctx s = (m.step ctx)^[n] s := by
  rw [evaluate_eq_iterate]
  cases hs : s.isHalted with
  | true => rw [m.iterate_of_isHalted ctx hs, m.iterate_of_isHalted ctx hs]
  | false =>
    rw [stepBound_of_not_halted hs]
    exact iterate_eq_of_le hn h

theorem fault_iterate_of_evaluate {s : State} {n : Nat} (hn : n ≤ s.program.length + stepLimit)
    (h : (m.evaluate ctx s).fault = none) : ((m.step ctx)^[n] s).fault = none := by
  rw [evaluate_eq_iterate] at h
  cases hs : s.isHalted with
  | true => rwa [m.iterate_of_isHalted ctx hs] at h ⊢
  | false =>
    rw [stepBound_of_not_halted hs] at h
    exact fault_iterate_eq_none hn h

theorem fault_eq_none_of_evaluate {s : State} (h : (m.evaluate ctx s).fault = none) :
    s.fault = none :=
  fault_iterate_of_evaluate (n := 0) (Nat.zero_le _) h

/-- A state in a trace is reached by as many steps as there are states before it, and where it is
halted no state follows. -/
theorem traceFor_eq_append {limit : Nat} {s t : State} {before after : List State}
    (h : m.traceFor ctx limit s = before ++ t :: after) :
    t = (m.step ctx)^[before.length] s ∧ (t.isHalted = true → after = []) := by
  induction limit generalizing s before with
  | zero =>
    obtain ⟨rfl, rfl, rfl⟩ : before = [] ∧ s = t ∧ after = [] := by
      cases before with
      | nil => simpa [traceFor, eq_comm] using h
      | cons => simp [traceFor] at h
    exact ⟨rfl, fun _ ↦ rfl⟩
  | succ limit ih =>
    rw [traceFor] at h
    split at h
    · obtain ⟨rfl, rfl, rfl⟩ : before = [] ∧ s = t ∧ after = [] := by
        cases before with
        | nil => simpa [eq_comm] using h
        | cons => simp at h
      exact ⟨rfl, fun _ ↦ rfl⟩
    · rename_i hs
      cases before with
      | nil =>
        obtain ⟨rfl, -⟩ : s = t ∧ _ := by simpa using h
        exact ⟨rfl, fun ht ↦ absurd ht hs⟩
      | cons first before =>
        have hrest := ih (List.cons.inj h).2
        exact hrest

/-- A trace ends where the evaluation does. -/
theorem getLast?_traceFor (limit : Nat) (s : State) :
    (m.traceFor ctx limit s).getLast? = some (m.runFor ctx limit s) := by
  induction limit generalizing s with
  | zero => rfl
  | succ limit ih =>
    rw [traceFor, runFor]
    split
    · rfl
    · rw [List.getLast?_cons, ih]
      rfl

theorem head?_traceFor (limit : Nat) (s : State) : (m.traceFor ctx limit s).head? = some s := by
  cases limit with
  | zero => rfl
  | succ limit =>
    rw [traceFor]
    split <;> rfl

/-- A trace that is not as long as it may be ends in a halted state. -/
theorem isHalted_runFor {limit : Nat} {s : State}
    (h : (m.traceFor ctx limit s).length ≤ limit) : (m.runFor ctx limit s).isHalted = true := by
  induction limit generalizing s with
  | zero => simp [traceFor] at h
  | succ limit ih =>
    rw [traceFor] at h
    rw [runFor]
    split
    · assumption
    · rename_i hs
      rw [if_neg hs, List.length_cons] at h
      exact ih (Nat.le_of_succ_le_succ h)

theorem debug_eq (s : State) (completion : Completion) :
    m.debug ctx s completion = m.trace ctx s ++ [(m.evaluate ctx s).complete completion] := by
  simp [debug, trace, evaluate, getLast?_traceFor]

theorem dropLast_debug (s : State) (completion : Completion) :
    (m.debug ctx s completion).dropLast = m.trace ctx s := by
  rw [debug_eq, List.dropLast_concat]

/-- Where the last state has no fault, no state of the trace has. -/
theorem fault_eq_none_of_mem_trace {s t : State} (h : (m.evaluate ctx s).fault = none)
    (ht : t ∈ m.trace ctx s) : t.fault = none := by
  obtain ⟨before, after, htrace⟩ := List.append_of_mem ht
  by_contra hfault
  have hlast := (traceFor_eq_append htrace).2 (State.isHalted_of_fault hfault)
  have hend : (m.trace ctx s).getLast? = some t := by simp [htrace, hlast]
  rw [trace, getLast?_traceFor] at hend
  exact hfault (Option.some.inj hend ▸ h)

end Machine

namespace State

variable {s : State}

theorem fault_eq_none_of_verdict {completion : Completion} (h : s.verdict completion = none) :
    s.fault = none := by
  cases hfault : s.fault with
  | none => rfl
  | some fault => simp [verdict, hfault] at h

theorem control_eq_nil_of_verdict {completion : Completion} (h : s.verdict completion = none) :
    s.control = [] := by
  by_contra hcontrol
  simp [verdict, fault_eq_none_of_verdict h, hcontrol] at h

/-- A final success leaves one item, which is true. -/
theorem stack_eq_of_verdict_final (h : s.verdict .final = none) :
    ∃ top, s.stack = [top] ∧ ScriptNumber.isTruthy top = true := by
  have hfault := fault_eq_none_of_verdict h
  have hcontrol := control_eq_nil_of_verdict h
  rcases hstack : s.stack with _ | ⟨top, _ | ⟨next, rest⟩⟩
  · simp [verdict, hfault, hcontrol, hstack] at h
  · exact ⟨top, rfl, by simpa [verdict, hfault, hcontrol, hstack] using h⟩
  · simp [verdict, hfault, hcontrol, hstack] at h

end State

namespace Machine

variable {m : Machine} {ctx : Context} {s t : State} {completion : Completion}

theorem head?_debug : (m.debug ctx s completion).head? = some s := by
  rw [debug_eq, List.head?_append, trace, head?_traceFor]
  rfl

theorem getLast?_debug :
    (m.debug ctx s completion).getLast? = some ((m.evaluate ctx s).complete completion) := by
  rw [debug_eq, List.getLast?_concat]

/-- Where the verdict is no fault, no state before it has one. -/
theorem fault_eq_none_of_mem_debug (h : (m.evaluate ctx s).verdict completion = none)
    (ht : t ∈ m.debug ctx s completion) : t.fault = none := by
  rw [debug_eq, List.mem_append, List.mem_singleton] at ht
  rcases ht with ht | rfl
  · exact fault_eq_none_of_mem_trace (State.fault_eq_none_of_verdict h) ht
  · exact h

/-- A success that took fewer steps than can be counted has gone through the whole program. -/
theorem length_le_pointer_evaluate (h : (m.evaluate ctx s).fault = none)
    (hlength : (m.debug ctx s completion).length ≤ stepLimit) :
    (m.evaluate ctx s).program.length ≤ (m.evaluate ctx s).pointer := by
  have hhalted : (m.evaluate ctx s).isHalted = true := by
    cases hs : s.isHalted with
    | true => rwa [evaluate_eq_iterate, m.iterate_of_isHalted ctx hs]
    | false =>
      have hbound : stepLimit ≤ stepBound s := by
        rw [stepBound_of_not_halted hs]
        exact Nat.le_add_left _ _
      rw [debug_eq, List.length_append] at hlength
      exact isHalted_runFor ((Nat.le_of_succ_le hlength).trans hbound)
  simpa [State.isHalted, h] using hhalted

end Machine

/-! ## Steps of a trace -/

/-- Each state but the last with the one after it. -/
def stepsOf (trace : List State) : List (State × State) := trace.zip trace.tail

@[simp] theorem stepsOf_singleton (s : State) : stepsOf [s] = [] := rfl

@[simp] theorem stepsOf_cons_cons (s t : State) (rest : List State) :
    stepsOf (s :: t :: rest) = (s, t) :: stepsOf (t :: rest) := rfl

@[simp] theorem map_snd_stepsOf (s : State) (rest : List State) :
    (stepsOf (s :: rest)).map Prod.snd = rest := by
  induction rest generalizing s with
  | nil => rfl
  | cons t rest ih => rw [stepsOf_cons_cons, List.map_cons, ih]

namespace Machine

variable {m : Machine} {ctx : Context} {s : State}

variable (m ctx) in
theorem traceFor_eq_cons (limit : Nat) (s : State) :
    ∃ rest, m.traceFor ctx limit s = s :: rest := by
  have hhead : (m.traceFor ctx limit s).head? = some s := head?_traceFor limit s
  obtain ⟨rest, hrest⟩ := List.head?_eq_some_iff.mp hhead
  exact ⟨rest, hrest⟩

theorem of_mem_stepsOf_traceFor {limit : Nat} {step : State × State}
    (h : step ∈ stepsOf (m.traceFor ctx limit s)) :
    step.1.isHalted = false ∧ step.2 = m.step ctx step.1 := by
  induction limit generalizing s with
  | zero => simp [traceFor] at h
  | succ limit ih =>
    rw [traceFor] at h
    split at h
    · simp at h
    · rename_i hs
      obtain ⟨rest, hrest⟩ := m.traceFor_eq_cons ctx limit (m.step ctx s)
      rw [hrest, stepsOf_cons_cons, List.mem_cons] at h
      rcases h with rfl | h
      · exact ⟨Bool.eq_false_of_not_eq_true hs, rfl⟩
      · exact ih (hrest ▸ h)

variable (m ctx) in
theorem trace_eq_cons (s : State) : ∃ rest, m.trace ctx s = s :: rest :=
  m.traceFor_eq_cons ctx _ s

end Machine

end ScriptMachine
