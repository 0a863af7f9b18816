import ScriptMachine.Proofs.Machine.Limit

/-!
# Halting

Without loops every step passes on to the next instruction, so an evaluation takes no more steps
than there are instructions. With loops it is the cost that bounds it: each step is charged for, and
the cost is held to its budget after each step that does not fail. A budget of the largest amount
holds back nothing, since the cost stops there.
-/

namespace ScriptMachine

/-! ## Evaluations that halt -/

namespace Machine

variable (m : Machine) (ctx : Context)

/-- After at most `bound` steps the evaluation has come to its first halted state, where it ends;
its trace is made of the states up to there and the verdict on the last of them. -/
def HaltsWithin (s : State) (bound : Nat) : Prop :=
  ∃ count ≤ bound, ((m.step ctx)^[count] s).isHalted = true ∧
    (∀ k < count, ((m.step ctx)^[k] s).isHalted = false) ∧
    m.evaluate ctx s = (m.step ctx)^[count] s ∧
    ∀ completion, m.debug ctx s completion =
      (List.range (count + 1)).map (fun k ↦ (m.step ctx)^[k] s) ++
        [((m.step ctx)^[count] s).complete completion]

variable {m ctx} {s : State} {count : Nat}

/-- A trace that may be long enough goes on to the first halted state. -/
theorem traceFor_eq_map_range {limit : Nat} (hlimit : count ≤ limit)
    (hhalted : ((m.step ctx)^[count] s).isHalted = true)
    (hrunning : ∀ k < count, ((m.step ctx)^[k] s).isHalted = false) :
    m.traceFor ctx limit s = (List.range (count + 1)).map fun k ↦ (m.step ctx)^[k] s := by
  induction count generalizing limit s with
  | zero =>
    have hs : s.isHalted = true := hhalted
    cases limit with
    | zero => rfl
    | succ limit => rw [traceFor, if_pos hs]; rfl
  | succ count ih =>
    have hs : s.isHalted = false := hrunning 0 (Nat.succ_pos count)
    obtain ⟨limit, rfl⟩ := Nat.exists_eq_add_of_le' hlimit
    have hrest : m.traceFor ctx (limit + count) (m.step ctx s) =
        (List.range (count + 1)).map fun k ↦ (m.step ctx)^[k] (m.step ctx s) :=
      ih (Nat.le_add_left _ _) hhalted fun k hk ↦ hrunning (k + 1) (Nat.succ_lt_succ hk)
    rw [← Nat.add_assoc, traceFor, if_neg (by simp [hs]), hrest,
      List.range_succ_eq_map (n := count + 1), List.map_cons, List.map_map]
    rfl

/-- It is enough to find some number of steps that leads to a halted state. -/
theorem haltsWithin_of_isHalted {bound : Nat} (hbound : bound ≤ s.program.length + stepLimit)
    (h : ((m.step ctx)^[bound] s).isHalted = true) : m.HaltsWithin ctx s bound := by
  have hexists : ∃ n, ((m.step ctx)^[n] s).isHalted = true := ⟨bound, h⟩
  have hfirst : Nat.find hexists ≤ bound := Nat.find_min' hexists h
  have hhalted := Nat.find_spec hexists
  have hrunning : ∀ k < Nat.find hexists, ((m.step ctx)^[k] s).isHalted = false := fun k hk ↦
    Bool.eq_false_iff.mpr (Nat.find_min hexists hk)
  generalize Nat.find hexists = count at hfirst hhalted hrunning
  have hevaluate := evaluate_eq_of_isHalted (hfirst.trans hbound) hhalted
  refine ⟨count, hfirst, hhalted, hrunning, hevaluate, fun completion ↦ ?_⟩
  have htrace : m.trace ctx s = (List.range (count + 1)).map fun k ↦ (m.step ctx)^[k] s := by
    refine traceFor_eq_map_range ?_ hhalted hrunning
    cases count with
    | zero => exact Nat.zero_le _
    | succ count =>
      have hs : s.isHalted = false := hrunning 0 (Nat.succ_pos count)
      rw [stepBound_of_not_halted hs]
      exact hfirst.trans hbound
  rw [debug_eq, htrace, hevaluate]

end Machine

/-! ## Editions without loops -/

theorem Opcode.ofByte?_ne_loop {edition : Edition} (h : edition.hasLoops = false) (byte : UInt8)
    (op : LoopOp) : ofByte? edition byte ≠ some (.loop op) := by
  intro hop
  have hmem := List.mem_of_find?_eq_some hop
  simp [available, h, table] at hmem

theorem Turn.pointer_eq {m : Machine} {index : Nat} {i : Instruction} {s t : State}
    (hloops : m.policy.edition.hasLoops = false) (h : Turn m index i s t) :
    t.pointer = s.pointer := by
  cases h with
  | data hop h => rw [h.frame]
  | openBranch taken hop h => rw [h.frame]
  | leaveLoop hop hs h => rw [h.frame]
  | repeatLoop hop hs h =>
    cases i with
    | operation byte => exact absurd hop (Opcode.ofByte?_ne_loop hloops byte .until)
    | push | truncated => cases hop
  | separator | turnBranch | closeBranch | openLoop => rfl

/-- Without loops, a step that does not fail passes on to the next instruction. -/
theorem Transition.pointer_eq {m : Machine} {s t : State}
    (hloops : m.policy.edition.hasLoops = false) (h : Transition m s t) (hs : s.isHalted = false)
    (ht : t.fault = none) : t.pointer = s.pointer + 1 := by
  cases h with
  | halted hhalted => rw [hs] at hhalted; cases hhalted
  | failed => cases ht
  | exceeded => cases ht
  | done operations hhalt hi hoperations h => exact h.pointer_eq hloops

theorem Machine.isHalted_iterate_of_loopless {m : Machine}
    (hloops : m.policy.edition.hasLoops = false) (ctx : Context) {s : State} {n : Nat}
    (hn : s.program.length ≤ s.pointer + n) : ((m.step ctx)^[n] s).isHalted = true := by
  induction n generalizing s with
  | zero => simp [State.isHalted, show s.program.length ≤ s.pointer from hn]
  | succ n ih =>
    have hstep := m.transition_step ctx s
    rw [Function.iterate_succ_apply]
    cases hs : s.isHalted with
    | true => rw [m.step_of_isHalted ctx hs, m.iterate_of_isHalted ctx hs, hs]
    | false =>
      by_cases hfault : (m.step ctx s).fault = none
      · apply ih
        rw [hstep.program_eq, hstep.pointer_eq hloops hs hfault]
        omega
      · have hhalted := State.isHalted_of_fault hfault
        rw [m.iterate_of_isHalted ctx hhalted, hhalted]

/-! ## Budgets of cost -/

theorem Amount.le_add_of_le {a c : Nat} (hc : a ≤ c) (htop : a ≤ top) (x : Nat) : a ≤ add c x :=
  Nat.le_min.mpr ⟨hc.trans (Nat.le_add_right c x), htop⟩

/-- No charge lowers the cost. -/
theorem Charge.le_cost {p : Policy} {m m' : Meter} (h : Charge p m m') {a : Nat}
    (htop : a ≤ Amount.top) (hm : a ≤ m.cost) : a ≤ m'.cost := by
  cases h <;> exact Amount.le_add_of_le hm htop _

/-- A step that does not fail is charged for its instruction, and ends within the budget. -/
theorem Transition.cost_le {m : Machine} {s t : State} (h : Transition m s t)
    (hs : s.isHalted = false) (ht : t.fault = none) :
    Amount.add s.meter.cost m.policy.costs.baseInstruction ≤ t.meter.cost ∧
      t.meter.cost ≤ t.meter.budget.cost := by
  cases h with
  | halted hhalted => rw [hs] at hhalted; cases hhalted
  | failed => cases ht
  | exceeded => cases ht
  | @done i u operations hhalt hi hoperations h hdepth hcontrol hbudget =>
    have htop := Amount.add_le_top s.meter.cost m.policy.costs.baseInstruction
    refine ⟨h.meter_invariant (Q := fun meter ↦ _ ≤ meter.cost) ?_ ?_ (Nat.le_refl _), hbudget.cost⟩
    · intro meter meter' hcharge hmeter
      exact hcharge.le_cost htop hmeter
    · intro meter bytes hmeter
      exact Amount.le_add_of_le hmeter htop _

namespace Machine

variable {m : Machine} {ctx : Context} {s : State} {n : Nat}

theorem isHalted_eq_false_of_iterate
    (h : ((m.step ctx)^[n] s).isHalted = false) : s.isHalted = false := by
  by_contra hs
  rw [m.iterate_of_isHalted ctx (Bool.eq_true_of_not_eq_false hs)] at h
  exact hs h

/-- A step after which an evaluation goes on has raised the cost, and the budget covers it. -/
theorem cost_step (hbudget : s.meter.budget.cost < Amount.top)
    (h : (m.step ctx s).isHalted = false) :
    s.meter.cost + m.policy.costs.baseInstruction ≤ (m.step ctx s).meter.cost ∧
      (m.step ctx s).meter.cost ≤ s.meter.budget.cost := by
  have hs : s.isHalted = false := isHalted_eq_false_of_iterate (n := 1) h
  have hstep := m.transition_step ctx s
  obtain ⟨hcharged, hwithin⟩ := hstep.cost_le hs (State.fault_eq_none_of_not_halted h)
  rw [hstep.budget_eq] at hwithin
  refine ⟨?_, hwithin⟩
  -- The cost has not stopped at the largest amount, since the budget is below that.
  unfold Amount.add at hcharged
  omega

/-- As long as an evaluation goes on, the budget covers all instructions it was charged for. -/
theorem cost_iterate (hbudget : s.meter.budget.cost < Amount.top)
    (h : ((m.step ctx)^[n + 1] s).isHalted = false) :
    s.meter.cost + (n + 1) * m.policy.costs.baseInstruction ≤ s.meter.budget.cost := by
  induction n generalizing s with
  | zero =>
    have hcost := cost_step hbudget h
    omega
  | succ n ih =>
    have hnext : (m.step ctx s).isHalted = false := isHalted_eq_false_of_iterate h
    have heq := (m.transition_step ctx s).budget_eq
    have hfirst := (cost_step hbudget hnext).1
    have hrest := ih (heq ▸ hbudget) h
    rw [heq] at hrest
    rw [Nat.succ_mul]
    omega

theorem isHalted_iterate_of_budget (ctx : Context) (hbase : 1 ≤ m.policy.costs.baseInstruction)
    (hbudget : s.meter.budget.cost < Amount.top) :
    ((m.step ctx)^[s.meter.budget.cost / m.policy.costs.baseInstruction + 1] s).isHalted =
      true := by
  by_contra h
  have hcost := cost_iterate hbudget (Bool.eq_false_of_not_eq_true h)
  have hlt := Nat.lt_mul_div_succ s.meter.budget.cost hbase
  rw [Nat.mul_comm] at hlt
  omega

/-! ## All evaluations that are bounded -/

theorem haltsWithin_of_loopless (hloops : m.policy.edition.hasLoops = false) (ctx : Context)
    (s : State) : m.HaltsWithin ctx s s.program.length :=
  haltsWithin_of_isHalted (Nat.le_add_right _ _)
    (isHalted_iterate_of_loopless hloops ctx (Nat.le_add_left _ _))

theorem haltsWithin_of_budget (ctx : Context) (hbase : 1 ≤ m.policy.costs.baseInstruction)
    (hbudget : s.meter.budget.cost < Amount.top) :
    m.HaltsWithin ctx s (s.meter.budget.cost / m.policy.costs.baseInstruction + 1) := by
  refine haltsWithin_of_isHalted ?_ (isHalted_iterate_of_budget ctx hbase hbudget)
  have hdiv := Nat.div_le_self s.meter.budget.cost m.policy.costs.baseInstruction
  have hlimit : Amount.top + 1 = stepLimit := rfl
  omega

theorem cost_budget_start {bytecode : Bytes}
    (hperByte : m.policy.costs.perDensityByte = some 800)
    (hdensity : 800 * ctx.density bytecode.length < Amount.top) :
    (m.start ctx bytecode).meter.budget.cost = 800 * ctx.density bytecode.length := by
  change m.policy.maxCost (ctx.density bytecode.length) = _
  rw [Policy.maxCost, hperByte, Nat.mul_comm]
  exact Nat.min_eq_left (Nat.mul_comm .. ▸ hdensity.le)

/-- Without loops an evaluation halts after at most one step for each instruction; where
instructions cost something and the budget is not the largest amount, after as many as the budget
covers and one more. Under the rules of an edition, standard or not, it halts without any condition
before 2026, and then where 800 times the density stays below the largest amount. -/
theorem bounded_evaluation_halts (m : Machine) (ctx : Context) (s : State) (bytecode : Bytes) :
    (m.policy.edition.hasLoops = false → m.HaltsWithin ctx s s.program.length) ∧
      (1 ≤ m.policy.costs.baseInstruction → s.meter.budget.cost < 2 ^ 64 - 1 →
        m.HaltsWithin ctx s (s.meter.budget.cost / m.policy.costs.baseInstruction + 1)) ∧
      ∀ edition standard, m.policy = { Policy.ofEdition edition with standard := standard } →
        (edition ≠ .y2026 →
          m.HaltsWithin ctx (m.start ctx bytecode) (Instruction.parse bytecode).length) ∧
        (edition = .y2026 → 800 * ctx.density bytecode.length < 2 ^ 64 - 1 →
          m.HaltsWithin ctx (m.start ctx bytecode) (8 * ctx.density bytecode.length + 1)) := by
  refine ⟨fun hloops ↦ haltsWithin_of_loopless hloops ctx s, haltsWithin_of_budget ctx, ?_⟩
  intro edition standard hpolicy
  refine ⟨fun hedition ↦ ?_, ?_⟩
  · have hloops : m.policy.edition.hasLoops = false := by
      rw [hpolicy]
      cases edition with
      | y2023 => rfl
      | y2025 => rfl
      | y2026 => exact absurd rfl hedition
    exact haltsWithin_of_loopless hloops ctx (m.start ctx bytecode)
  · rintro rfl hdensity
    have hbase : m.policy.costs.baseInstruction = 100 := by rw [hpolicy]; rfl
    have hcost := cost_budget_start (by rw [hpolicy]; rfl) hdensity
    have hquotient : 800 * ctx.density bytecode.length / 100 = 8 * ctx.density bytecode.length := by
      omega
    have hpositive : 1 ≤ m.policy.costs.baseInstruction := by rw [hbase]; decide
    have hhalts := haltsWithin_of_budget ctx hpositive (hcost.symm ▸ hdensity)
    rwa [hcost, hbase, hquotient] at hhalts

/-- A loop that never ends by itself is stopped by its budget. -/
theorem bounded_evaluation_halts_loop :
    let m : Machine := { policy := .ofEdition .y2026 }
    let s := m.start {} [0x65, 0x00, 0x66]
    800 * Context.density {} 3 < 2 ^ 64 - 1 ∧ m.HaltsWithin {} s 353 ∧
      (m.evaluate {} s).fault = some (.overdraft (.cost 35200)) := by
  intro m s
  have hdensity : Context.density {} 3 = 44 := by decide
  have hbound : 800 * Context.density {} 3 < 2 ^ 64 - 1 := by rw [hdensity]; norm_num
  have hhalts :=
    ((bounded_evaluation_halts m {} s [0x65, 0x00, 0x66]).2.2 .y2026 true rfl).2 rfl hbound
  exact ⟨hbound, by simpa [hdensity] using hhalts, by decide +kernel⟩

end Machine

end ScriptMachine
