import ScriptMachine.Proofs.Machine.Accounting
import ScriptMachine.Proofs.Machine.Halting

/-!
# Meters only go up

No opcode and no failure takes back what was counted. A counter that stops at the largest amount
could only fall if it stood above that amount, so the two facts go together: no counter is above the
largest amount, and none falls.
-/

namespace ScriptMachine

/-- What a meter counts. -/
inductive Counter
  | instructions | cost | signatureChecks | hashIterations | peakMemory | repeatedBytes
  | arithmeticBytes | pushedBytes
  /-- The cost of one kind of work. -/
  | slot (work : Work)
  deriving DecidableEq, Repr

/-- What a counter of a meter stands at. -/
def Meter.read (m : Meter) : Counter → Nat
  | .instructions => m.instructions
  | .cost => m.cost
  | .signatureChecks => m.signatureChecks
  | .hashIterations => m.hashIterations
  | .peakMemory => m.peakMemory
  | .repeatedBytes => m.repeatedBytes
  | .arithmeticBytes => m.arithmeticBytes
  | .pushedBytes => m.pushedBytes
  | .slot work => m.profile.get work

/-- The counter stops at the largest amount. -/
def Counter.stops : Counter → Bool
  | .instructions | .peakMemory => false
  | _ => true

section Invariants

variable {counter : Counter} {P : Nat → Prop} {p : Policy} {m m' : Meter}

theorem Meter.read_charge_invariant
    (hadd : counter.stops = true → ∀ x n, P x → P (Amount.add x n)) (work : Work) (amount : Nat)
    (hm : P (m.read counter)) : P ((m.charge work amount).read counter) := by
  cases counter with
  | cost => exact hadd rfl _ _ hm
  | slot other =>
    change P ((m.profile.add work amount).get other)
    by_cases hwork : other = work
    · subst hwork
      rw [Profile.get_add_self]
      exact hadd rfl _ _ hm
    · rw [Profile.get_add_of_ne _ hwork]
      exact hm
  | _ => exact hm

theorem Charge.read_invariant
    (hadd : counter.stops = true → ∀ x n, P x → P (Amount.add x n)) (h : Charge p m m')
    (hm : P (m.read counter)) : P (m'.read counter) := by
  cases h with
  | push bytes =>
    apply Meter.read_charge_invariant hadd
    cases counter with
    | pushedBytes => exact hadd rfl _ _ hm
    | _ => exact hm
  | arithmetic bytes =>
    apply Meter.read_charge_invariant hadd
    cases counter with
    | arithmeticBytes => exact hadd rfl _ _ hm
    | _ => exact hm
  | hash iterations =>
    apply Meter.read_charge_invariant hadd
    cases counter with
    | hashIterations => exact hadd rfl _ _ hm
    | _ => exact hm
  | signatureChecks count =>
    apply Meter.read_charge_invariant hadd
    cases counter with
    | signatureChecks => exact hadd rfl _ _ hm
    | _ => exact hm

/-- A step changes a counter by the operation of its kind, any number of times. -/
theorem Transition.read_invariant {machine : Machine} {s t : State}
    (hadd : counter.stops = true → ∀ x n, P x → P (Amount.add x n))
    (hcount : counter = .instructions → ∀ x, P x → P (x + 1))
    (hmemory : counter = .peakMemory → ∀ x n, P x → P (max x n))
    (h : Transition machine s t) (hs : P (s.meter.read counter)) : P (t.meter.read counter) := by
  refine h.meter_invariant (Q := fun meter ↦ P (meter.read counter)) ?_ ?_ ?_ ?_ hs
  · intro meter hmeter
    apply Meter.read_charge_invariant hadd
    cases counter with
    | instructions => exact hcount rfl _ hmeter
    | _ => exact hmeter
  · intro meter meter' hcharge hmeter
    exact hcharge.read_invariant hadd hmeter
  · intro meter bytes hmeter
    apply Meter.read_charge_invariant hadd
    cases counter with
    | repeatedBytes => exact hadd rfl _ _ hmeter
    | _ => exact hmeter
  · intro meter bytes hmeter
    cases counter with
    | peakMemory => exact hmemory rfl _ _ hmeter
    | _ => exact hmeter

end Invariants

/-- No counter that stops at the largest amount has passed it. -/
def Meter.Capped (m : Meter) : Prop :=
  ∀ counter : Counter, counter.stops = true → m.read counter ≤ Amount.top

theorem Meter.capped_start (p : Policy) (density : Nat) : (Meter.start p density).Capped := by
  intro counter _
  cases counter with
  | slot work => cases work <;> exact Nat.zero_le _
  | _ => exact Nat.zero_le _

/-- What happens to a meter from one state to the next: no counter falls, at most one instruction is
counted, and the budgets stay. -/
structure Meter.Advances (m m' : Meter) : Prop where
  read_le : ∀ counter, m.read counter ≤ m'.read counter
  instructions_le : m'.instructions ≤ m.instructions + 1
  budget_eq : m'.budget = m.budget

theorem Meter.Advances.refl (m : Meter) : m.Advances m :=
  ⟨fun _ ↦ Nat.le_refl _, Nat.le_succ _, rfl⟩

section Steps

variable {machine : Machine} {s t : State}

theorem Transition.capped (h : Transition machine s t) (hs : s.meter.Capped) : t.meter.Capped := by
  intro counter hstops
  refine h.read_invariant (P := fun x ↦ x ≤ Amount.top) ?_ ?_ ?_ (hs counter hstops)
  · intro _ x n _
    exact Amount.add_le_top x n
  · rintro rfl
    cases hstops
  · rintro rfl
    cases hstops

theorem Transition.advances (h : Transition machine s t) (hs : s.meter.Capped) :
    s.meter.Advances t.meter := by
  refine ⟨fun counter ↦ ?_, h.instructions_le, h.budget_eq⟩
  refine h.read_invariant (P := fun x ↦ s.meter.read counter ≤ x) ?_ ?_ ?_ (Nat.le_refl _)
  · intro hstops x n hx
    -- Stopping at the largest amount would lower a counter that stood above it.
    exact Amount.le_add_of_le hx (hs counter hstops) n
  · intro _ x hx
    exact Nat.le_succ_of_le hx
  · intro _ x n hx
    exact hx.trans (Nat.le_max_left x n)

end Steps

namespace Machine

variable {m : Machine} {ctx : Context}

/-- What holds between a state and the next one, given what steps keep, holds along every trace. -/
theorem isChain_traceFor {R : State → State → Prop} {P : State → Prop}
    (hstep : ∀ s, P s → R s (m.step ctx s) ∧ P (m.step ctx s)) {s : State} (hs : P s)
    (limit : Nat) :
    (m.traceFor ctx limit s).IsChain R ∧ ∀ t ∈ m.traceFor ctx limit s, P t := by
  induction limit generalizing s with
  | zero => simpa [traceFor] using hs
  | succ limit ih =>
    rw [traceFor]
    split
    · simpa using hs
    · obtain ⟨hnext, hkept⟩ := hstep s hs
      obtain ⟨hchain, hall⟩ := ih hkept
      refine ⟨List.isChain_cons.mpr ⟨?_, hchain⟩, List.forall_mem_cons.mpr ⟨hs, hall⟩⟩
      intro t ht
      rw [head?_traceFor] at ht
      cases ht
      exact hnext

variable (m ctx) in
theorem advances_trace {s : State} (hs : s.meter.Capped) :
    (m.trace ctx s).IsChain (fun t u ↦ t.meter.Advances u.meter) ∧
      ∀ t ∈ m.trace ctx s, t.meter.Capped := by
  refine isChain_traceFor (P := fun t ↦ t.meter.Capped) ?_ hs _
  intro t ht
  have hstep := m.transition_step ctx t
  exact ⟨hstep.advances ht, hstep.capped ht⟩

end Machine

end ScriptMachine
