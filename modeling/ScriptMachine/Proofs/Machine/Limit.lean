import ScriptMachine.Proofs.Machine.Trace
import ScriptMachine.Proofs.Machine.Transition

/-!
# Limits

No item is ever too long, and a state without a fault is within all limits of its policy and within
the budgets of its meter. Items are held to their limit where they come in; the other limits are
checked after each instruction, so that a state which has passed one is the last of its trace.
-/

namespace ScriptMachine

/-- No item on either stack is longer than `limit`. -/
def State.ItemsWithin (limit : Nat) (s : State) : Prop :=
  ∀ item ∈ s.stack ++ s.alt, item.length ≤ limit

/-- A state is within all limits that are checked after an instruction. -/
structure State.WithinLimits (p : Policy) (s : State) : Prop where
  depth : s.depth ≤ p.limits.stackDepth
  control : ∀ limit, p.limits.controlDepth = some limit → s.control.length ≤ limit
  operations : ∀ limit, p.limits.operationCount = some limit → s.operations ≤ limit
  budget : s.meter.WithinBudget
  memory : s.memoryUsage ≤ p.limits.stackDepth * p.limits.itemLength

theorem total_le_mul {α : Type} {measure : α → Nat} {bound : Nat} {xs : List α}
    (h : ∀ x ∈ xs, measure x ≤ bound) : total measure xs ≤ xs.length * bound := by
  induction xs with
  | nil => simp
  | cons x xs ih =>
    have hx := h x List.mem_cons_self
    have hxs := ih fun y hy ↦ h y (List.mem_cons_of_mem x hy)
    rw [total_cons, List.length_cons, Nat.succ_mul]
    omega

theorem State.ItemsWithin.memoryUsage_le {limit : Nat} {s : State} (h : s.ItemsWithin limit) :
    s.memoryUsage ≤ s.depth * limit := by
  have hstack : total List.length s.stack ≤ s.stack.length * limit :=
    total_le_mul fun item hitem ↦ h item (List.mem_append_left _ hitem)
  have halt : total List.length s.alt ≤ s.alt.length * limit :=
    total_le_mul fun item hitem ↦ h item (List.mem_append_right _ hitem)
  rw [memoryUsage, depth, Nat.add_mul]
  exact Nat.add_le_add hstack halt

/-! ## Items -/

theorem DataMoves.itemsWithin {p : Policy} {s t : State} (h : DataMoves p s t)
    (hs : s.ItemsWithin p.limits.itemLength) : t.ItemsWithin p.limits.itemLength := by
  refine h.invariant (P := State.ItemsWithin p.limits.itemLength) ?_ hs
  intro u v huv hu
  cases huv with
  | shuffle stack alt hmem => exact fun item hitem ↦ hu item (hmem item hitem)
  | insert item hlength =>
    intro other hother
    rcases List.mem_cons.mp hother with rfl | hold
    · exact hlength
    · exact hu other hold
  | charge meter _ => exact hu

theorem Turn.itemsWithin {m : Machine} {index : Nat} {i : Instruction} {s t : State}
    (h : Turn m index i s t) (hs : s.ItemsWithin m.policy.limits.itemLength) :
    t.ItemsWithin m.policy.limits.itemLength := by
  obtain ⟨u, hu, hstack, halt, -⟩ := h.data_eq
  have hitems := hu.itemsWithin hs
  rwa [State.ItemsWithin, ← hstack, ← halt] at hitems

theorem Transition.itemsWithin {m : Machine} {s t : State} (h : Transition m s t)
    (hs : s.ItemsWithin m.policy.limits.itemLength) : t.ItemsWithin m.policy.limits.itemLength := by
  cases h with
  | halted => exact hs
  | failed operations fault hhalt h => exact h.itemsWithin hs
  | exceeded operations memory fault hhalt hi h => exact h.itemsWithin hs
  | done operations hhalt hi hoperations h => exact h.itemsWithin hs

/-! ## Budgets -/

theorem Charge.budget_eq {p : Policy} {m m' : Meter} (h : Charge p m m') :
    m'.budget = m.budget := by
  cases h <;> rfl

/-- Budgets are fixed for the whole evaluation. -/
theorem Transition.budget_eq {m : Machine} {s t : State} (h : Transition m s t) :
    t.meter.budget = s.meter.budget :=
  h.meter_invariant (Q := fun meter ↦ meter.budget = s.meter.budget) (fun _ hmeter ↦ hmeter)
    (fun _ _ hcharge hmeter ↦ hcharge.budget_eq.trans hmeter) (fun _ _ hmeter ↦ hmeter)
    (fun _ _ hmeter ↦ hmeter) rfl

/-! ## Limits -/

/-- A step ends within the limits, unless it adds a fault. -/
theorem Transition.withinLimits {m : Machine} {s t : State} (h : Transition m s t)
    (hitems : s.ItemsWithin m.policy.limits.itemLength)
    (hs : s.fault = none → s.WithinLimits m.policy) (hfault : t.fault = none) :
    t.WithinLimits m.policy := by
  have hitems' := h.itemsWithin hitems
  cases h with
  | halted => exact hs hfault
  | failed => cases hfault
  | exceeded => cases hfault
  | @done i u operations hhalt hi hoperations h hdepth hcontrol hbudget =>
    refine ⟨hdepth, hcontrol, fun limit hlimit ↦ ?_, ⟨hbudget.1, hbudget.2, hbudget.3⟩, ?_⟩
    · have hbefore := (hs (State.fault_eq_none_of_not_halted hhalt)).operations limit hlimit
      rw [h.frame]
      exact hoperations limit hlimit hbefore
    · exact hitems'.memoryUsage_le.trans (Nat.mul_le_mul_right _ hdepth)

namespace Machine

/-- An evaluation may start with this stack and this meter. -/
structure Admits (m : Machine) (stack : List Bytes) (meter : Meter) : Prop where
  items : ∀ item ∈ stack, item.length ≤ m.policy.limits.itemLength
  depth : stack.length ≤ m.policy.limits.stackDepth
  budget : meter.WithinBudget

variable (m : Machine) (ctx : Context)

theorem admits_freshMeter (length : Nat) : m.Admits [] (m.freshMeter ctx length) :=
  ⟨by simp, Nat.zero_le _, ⟨Nat.zero_le _, Nat.zero_le _, Nat.zero_le _⟩⟩

variable {m} in
theorem Admits.itemsWithin_load {stack : List Bytes} {meter : Meter} (h : m.Admits stack meter)
    (bytecode : Bytes) :
    (m.load bytecode stack meter).ItemsWithin m.policy.limits.itemLength := by
  intro item hitem
  exact h.items item (by simpa [load] using hitem)

variable {m} in
theorem Admits.withinLimits_load {stack : List Bytes} {meter : Meter} (h : m.Admits stack meter)
    (bytecode : Bytes) : (m.load bytecode stack meter).WithinLimits m.policy :=
  ⟨h.depth, fun _ _ ↦ Nat.zero_le _, fun _ _ ↦ Nat.zero_le _, h.budget,
    (h.itemsWithin_load bytecode).memoryUsage_le.trans (Nat.mul_le_mul_right _ h.depth)⟩

/-- What holds of all states that steps reach from an admitted one. -/
theorem limits_iterate (bytecode : Bytes) {stack : List Bytes} {meter : Meter}
    (h : m.Admits stack meter) (n : Nat) :
    let s := (m.step ctx)^[n] (m.load bytecode stack meter)
    s.ItemsWithin m.policy.limits.itemLength ∧ (s.fault = none → s.WithinLimits m.policy) ∧
      s.meter.budget = meter.budget := by
  refine iterate_invariant (P := fun s ↦ s.ItemsWithin m.policy.limits.itemLength ∧
    (s.fault = none → s.WithinLimits m.policy) ∧ s.meter.budget = meter.budget) ?_ ?_ n
  · rintro s t hstep ⟨hitems, hlimits, hbudget⟩
    exact ⟨hstep.itemsWithin hitems, hstep.withinLimits hitems hlimits,
      hstep.budget_eq.trans hbudget⟩
  · exact ⟨h.itemsWithin_load bytecode, fun _ ↦ h.withinLimits_load bytecode, rfl⟩

/-- From a fresh start, and from any stack and meter that are admitted, steps reach no item that is
too long, and no state without a fault that is outside the limits. A state outside the limits is
halted by its fault and ends its trace. -/
theorem limits_hold (bytecode : Bytes) (s₀ : State)
    (h : s₀ = m.start ctx bytecode ∨
      ∃ stack meter, m.Admits stack meter ∧ s₀ = m.load bytecode stack meter) (n : Nat) :
    let s := (m.step ctx)^[n] s₀
    (∀ item ∈ s.stack ++ s.alt, item.length ≤ m.policy.limits.itemLength) ∧
      (s.fault = none → s.WithinLimits m.policy) ∧ s.meter.budget = s₀.meter.budget ∧
      ∀ before t after, m.trace ctx s₀ = before ++ t :: after → ¬ t.WithinLimits m.policy →
        t.fault ≠ none ∧ m.step ctx t = t ∧ after = [] := by
  obtain ⟨stack, meter, hadmits, rfl⟩ :
      ∃ stack meter, m.Admits stack meter ∧ s₀ = m.load bytecode stack meter := by
    rcases h with rfl | h
    · exact ⟨[], _, m.admits_freshMeter ctx _, rfl⟩
    · exact h
  obtain ⟨hitems, hlimits, hbudget⟩ := m.limits_iterate ctx bytecode hadmits n
  refine ⟨hitems, hlimits, hbudget, fun before t after htrace hout ↦ ?_⟩
  obtain ⟨ht, hlast⟩ := traceFor_eq_append htrace
  have hfault : t.fault ≠ none := by
    intro hnone
    rw [ht] at hnone hout
    exact hout ((m.limits_iterate ctx bytecode hadmits before.length).2.1 hnone)
  have hhalted := State.isHalted_of_fault hfault
  exact ⟨hfault, m.step_of_isHalted ctx hhalted, hlast hhalted⟩

/-- Two items may be joined, but not the result with itself. -/
theorem limits_hold_cat :
    let m : Machine := { policy := { Policy.ofEdition .y2025 with
      limits := { Limits.y2025 with itemLength := 3 } } }
    let s := (m.step {})^[3] (m.load [0x7e, 0x76, 0x7e] [[1, 2], [3]] (m.freshMeter {} 3))
    s.fault = some (.itemTooLong 6 3) ∧ ∀ item ∈ s.stack ++ s.alt, item.length ≤ 3 := by
  intro m s
  refine ⟨by decide +kernel, ?_⟩
  have hadmits : m.Admits [[1, 2], [3]] (m.freshMeter {} 3) :=
    ⟨by decide +kernel, by decide +kernel, (m.admits_freshMeter {} 3).budget⟩
  exact (limits_hold m {} _ _ (.inr ⟨_, _, hadmits, rfl⟩) 3).1

end Machine

end ScriptMachine
