import ScriptMachine.Machine.Run
import ScriptMachine.Proofs.Machine.Transition

/-!
# Accounting

The cost of an evaluation, its profile and its counters are kept apart, and each of them stops at
the largest amount on its own. They agree nevertheless: what a kind of work costs is its unit cost times
its counter, stopped once at the largest amount, and the cost of all work is the sum.
-/

namespace ScriptMachine

namespace Amount

/-- Stopping after each charge comes to the same as stopping once, also where the counter itself has
stopped. -/
theorem mul_add (u c n : Nat) : mul u (add c n) = add (mul u c) (mul n u) := by
  rcases Nat.eq_zero_or_pos u with rfl | hu
  · simp [mul, add]
  · have hsum : u * (c + n) = u * c + n * u := by ring
    have hall : c + n ≤ u * (c + n) := Nat.le_mul_of_pos_left _ hu
    have htop : top ≤ u * top := Nat.le_mul_of_pos_left _ hu
    unfold mul add
    rcases Nat.le_total (c + n) top with hle | hle
    · rw [Nat.min_eq_left hle, hsum]
      omega
    · rw [Nat.min_eq_right hle]
      omega

theorem mul_succ (u c : Nat) : mul u (c + 1) = add (mul u c) u := by
  unfold mul add
  rw [Nat.mul_succ]
  omega

theorem add_assoc (a b c : Nat) : add (add a b) c = add a (add b c) := by
  unfold add
  omega

theorem add_right_comm (a b c : Nat) : add (add a b) c = add (add a c) b := by
  unfold add
  omega

/-- Amounts that have stopped on their own add up to their sum, stopped once. -/
theorem add_min_min (a b : Nat) : add (min a top) (min b top) = min (a + b) top := by
  unfold add
  omega

end Amount

namespace Profile

theorem total_eq (p : Profile) :
    p.total = Amount.add (Amount.add (Amount.add (Amount.add (Amount.add (Amount.add 0 p.base)
      p.push) p.arithmetic) p.hashing) p.signatureChecks) p.repeated :=
  rfl

/-- A charge to any part of the profile is a charge to its total. -/
theorem total_add (p : Profile) (work : Work) (amount : Nat) :
    (p.add work amount).total = Amount.add p.total amount := by
  rw [total_eq, total_eq]
  cases work <;>
    simp only [add, ← Amount.add_assoc, Amount.add_right_comm _ amount]

end Profile

/-- The counter of a kind of work. -/
def Meter.counter (m : Meter) : Work → Nat
  | .base => m.instructions
  | .push => m.pushedBytes
  | .arithmetic => m.arithmeticBytes
  | .hashing => m.hashIterations
  | .signatureChecks => m.signatureChecks
  | .repeated => m.repeatedBytes

/-- What one unit of a kind of work costs. -/
def Policy.unitCost (p : Policy) : Work → Nat
  | .base => p.costs.baseInstruction
  | .push => p.costs.pushedByte
  | .arithmetic => p.costs.arithmeticByte
  | .hashing => p.hashIterationCost
  | .signatureChecks => p.costs.signatureCheck
  | .repeated => p.costs.repeatedByte

/-- Cost, profile and counters of a meter agree. -/
structure Meter.Balanced (p : Policy) (m : Meter) : Prop where
  cost_eq : m.cost = m.profile.total
  slot_eq : ∀ work, m.profile.get work = Amount.mul (p.unitCost work) (m.counter work)

namespace Meter.Balanced

variable {p : Policy} {m : Meter}

theorem start (p : Policy) (density : Nat) : (Meter.start p density).Balanced p := by
  refine ⟨rfl, fun work ↦ ?_⟩
  cases work <;> simp [Meter.start, Meter.counter, Profile.get, Amount.mul]

/-- A meter `m'` that has counted some work of one kind is balanced again once it is charged. -/
theorem charge {m' : Meter} {work : Work} {amount : Nat} (h : m.Balanced p)
    (hcost : m'.cost = m.cost) (hprofile : m'.profile = m.profile)
    (hother : ∀ other, other ≠ work → m'.counter other = m.counter other)
    (hwork : Amount.mul (p.unitCost work) (m'.counter work) =
      Amount.add (Amount.mul (p.unitCost work) (m.counter work)) amount) :
    (m'.charge work amount).Balanced p := by
  have hcounter : ∀ other, (m'.charge work amount).counter other = m'.counter other := by
    intro other
    cases other <;> rfl
  refine ⟨?_, fun other ↦ ?_⟩
  · change Amount.add m'.cost amount = (m'.profile.add work amount).total
    rw [Profile.total_add, hcost, hprofile, h.cost_eq]
  · change (m'.profile.add work amount).get other = _
    rw [hcounter, hprofile]
    by_cases heq : other = work
    · subst heq
      rw [Profile.get_add_self, h.slot_eq, hwork]
    · rw [Profile.get_add_of_ne _ heq, hother other heq, h.slot_eq]

theorem countInstruction (h : m.Balanced p) : (m.countInstruction p).Balanced p := by
  refine h.charge rfl rfl (fun other hother ↦ ?_) (Amount.mul_succ _ _)
  cases other <;> first | rfl | exact absurd rfl hother

/-- All counters but that of instructions stop at the largest amount, and `n` units of work are
charged for at once. -/
theorem count {m' : Meter} {work : Work} {n : Nat} (h : m.Balanced p) (hcost : m'.cost = m.cost)
    (hprofile : m'.profile = m.profile)
    (hcounter : ∀ other, m'.counter other =
      if other = work then Amount.add (m.counter work) n else m.counter other) :
    (m'.charge work (Amount.mul n (p.unitCost work))).Balanced p := by
  refine h.charge hcost hprofile (fun other hother ↦ ?_) ?_
  · rw [hcounter, if_neg hother]
  · rw [hcounter, if_pos rfl, Amount.mul_add]

theorem countRepeated (h : m.Balanced p) (bytes : Nat) : (m.countRepeated p bytes).Balanced p :=
  h.count rfl rfl fun other ↦ by cases other <;> rfl

theorem observeMemory (h : m.Balanced p) (bytes : Nat) : (m.observeMemory bytes).Balanced p := by
  refine ⟨h.cost_eq, fun work ↦ ?_⟩
  have hslot := h.slot_eq work
  cases work <;> exact hslot

/-- The cost is the sum of all products, stopped once at the largest amount. -/
theorem cost_eq_min (h : m.Balanced p) :
    m.cost = min (p.costs.baseInstruction * m.instructions + p.costs.pushedByte * m.pushedBytes +
      p.costs.arithmeticByte * m.arithmeticBytes + p.hashIterationCost * m.hashIterations +
      p.costs.signatureCheck * m.signatureChecks + p.costs.repeatedByte * m.repeatedBytes)
      Amount.top := by
  have hbase : m.profile.base = Amount.mul p.costs.baseInstruction m.instructions := h.slot_eq .base
  have hpush : m.profile.push = Amount.mul p.costs.pushedByte m.pushedBytes := h.slot_eq .push
  have harith : m.profile.arithmetic = Amount.mul p.costs.arithmeticByte m.arithmeticBytes :=
    h.slot_eq .arithmetic
  have hhash : m.profile.hashing = Amount.mul p.hashIterationCost m.hashIterations :=
    h.slot_eq .hashing
  have hsig : m.profile.signatureChecks = Amount.mul p.costs.signatureCheck m.signatureChecks :=
    h.slot_eq .signatureChecks
  have hrep : m.profile.repeated = Amount.mul p.costs.repeatedByte m.repeatedBytes :=
    h.slot_eq .repeated
  have hzero : (0 : Nat) = min 0 Amount.top := rfl
  rw [h.cost_eq, Profile.total_eq, hbase, hpush, harith, hhash, hsig, hrep, hzero]
  simp only [Amount.mul, Amount.add_min_min, Nat.zero_add]

end Meter.Balanced

/-! ## Steps -/

theorem Charge.balanced {p : Policy} {m m' : Meter} (h : Charge p m m') (hm : m.Balanced p) :
    m'.Balanced p := by
  cases h with
  | push bytes => exact hm.count rfl rfl fun other ↦ by cases other <;> rfl
  | arithmetic bytes => exact hm.count rfl rfl fun other ↦ by cases other <;> rfl
  | hash iterations => exact hm.count rfl rfl fun other ↦ by cases other <;> rfl
  | signatureChecks count => exact hm.count rfl rfl fun other ↦ by cases other <;> rfl

theorem Transition.balanced {m : Machine} {s t : State} (h : Transition m s t)
    (hs : s.meter.Balanced m.policy) : t.meter.Balanced m.policy :=
  h.meter_invariant (fun _ hmeter ↦ hmeter.countInstruction) (fun _ _ ↦ Charge.balanced)
    (fun _ bytes hmeter ↦ hmeter.countRepeated bytes)
    (fun _ bytes hmeter ↦ hmeter.observeMemory bytes) hs

/-! ## The count of instructions -/

theorem Charge.instructions_eq {p : Policy} {m m' : Meter} (h : Charge p m m') :
    m'.instructions = m.instructions := by
  cases h <;> rfl

theorem DataMoves.instructions_eq {p : Policy} {s t : State} (h : DataMoves p s t) :
    t.meter.instructions = s.meter.instructions :=
  h.meter_invariant (Q := fun meter ↦ meter.instructions = s.meter.instructions)
    (fun _ _ hcharge hmeter ↦ hcharge.instructions_eq.trans hmeter) rfl

theorem Turn.instructions_eq {m : Machine} {index : Nat} {i : Instruction} {s t : State}
    (h : Turn m index i s t) : t.meter.instructions = s.meter.instructions :=
  h.meter_invariant (Q := fun meter ↦ meter.instructions = s.meter.instructions)
    (fun _ _ hcharge hmeter ↦ hcharge.instructions_eq.trans hmeter) (fun _ _ hmeter ↦ hmeter) rfl

theorem Transition.instructions_le {m : Machine} {s t : State} (h : Transition m s t) :
    t.meter.instructions ≤ s.meter.instructions + 1 := by
  cases h with
  | halted => exact Nat.le_succ _
  | failed operations fault hhalt h => exact h.instructions_eq.le
  | exceeded operations memory fault hhalt hi h => exact h.instructions_eq.le
  | done operations hhalt hi hoperations h => exact h.instructions_eq.le

namespace Machine

variable (m : Machine) (ctx : Context)

theorem instructions_iterate_le (s : State) (n : Nat) :
    ((m.step ctx)^[n] s).meter.instructions ≤ s.meter.instructions + n := by
  induction n generalizing s with
  | zero => exact Nat.le_refl _
  | succ n ih =>
    have hfirst := (m.transition_step ctx s).instructions_le
    have hrest := ih (m.step ctx s)
    rw [Function.iterate_succ_apply]
    omega

theorem balanced_iterate (bytecode : Bytes) (n : Nat) :
    ((m.step ctx)^[n] (m.start ctx bytecode)).meter.Balanced m.policy :=
  iterate_invariant (P := fun s ↦ s.meter.Balanced m.policy) (fun _ _ hstep ↦ hstep.balanced)
    (Meter.Balanced.start m.policy _) n

/-- In every state that fewer than `2 ^ 64` steps reach, with or without a fault, the cost is that
of the profile, each part of the profile is a unit cost times a counter, and the cost is the sum of
these products, all stopped at the largest amount. The count of instructions, which is not stopped,
does not reach the largest amount. -/
theorem cost_eq_sum (bytecode : Bytes) (n : Nat) (hn : n < 2 ^ 64) :
    let meter := ((m.step ctx)^[n] (m.start ctx bytecode)).meter
    let costs := m.policy.costs
    meter.instructions < 2 ^ 64 ∧ meter.cost = meter.profile.total ∧
      meter.profile.base = min (costs.baseInstruction * meter.instructions) (2 ^ 64 - 1) ∧
      meter.profile.push = min (costs.pushedByte * meter.pushedBytes) (2 ^ 64 - 1) ∧
      meter.profile.arithmetic = min (costs.arithmeticByte * meter.arithmeticBytes) (2 ^ 64 - 1) ∧
      meter.profile.hashing =
        min (m.policy.hashIterationCost * meter.hashIterations) (2 ^ 64 - 1) ∧
      meter.profile.signatureChecks =
        min (costs.signatureCheck * meter.signatureChecks) (2 ^ 64 - 1) ∧
      meter.profile.repeated = min (costs.repeatedByte * meter.repeatedBytes) (2 ^ 64 - 1) ∧
      meter.cost = min (costs.baseInstruction * meter.instructions +
        costs.pushedByte * meter.pushedBytes + costs.arithmeticByte * meter.arithmeticBytes +
        m.policy.hashIterationCost * meter.hashIterations +
        costs.signatureCheck * meter.signatureChecks + costs.repeatedByte * meter.repeatedBytes)
        (2 ^ 64 - 1) := by
  intro meter costs
  have hbalanced := m.balanced_iterate ctx bytecode n
  have hcount := m.instructions_iterate_le ctx (m.start ctx bytecode) n
  have hzero : (m.start ctx bytecode).meter.instructions = 0 := rfl
  rw [hzero, Nat.zero_add] at hcount
  exact ⟨hcount.trans_lt hn, hbalanced.cost_eq, hbalanced.slot_eq .base, hbalanced.slot_eq .push,
    hbalanced.slot_eq .arithmetic, hbalanced.slot_eq .hashing, hbalanced.slot_eq .signatureChecks,
    hbalanced.slot_eq .repeated, hbalanced.cost_eq_min⟩

/-- Three pushed bytes are counted exactly where their cost is already the largest amount. -/
theorem cost_eq_sum_saturated :
    let m : Machine := { policy := { Policy.ofEdition .y2023 with
      costs := { Costs.y2023 with pushedByte := 2 ^ 63, arithmeticByte := 0 } } }
    let meter := ((m.step {})^[3] (m.start {} [0x51, 0x52, 0x93])).meter
    meter.pushedBytes = 3 ∧ meter.profile.push = 2 ^ 64 - 1 ∧ meter.cost = 2 ^ 64 - 1 := by
  intro m meter
  have hpushed : meter.pushedBytes = 3 := by decide +kernel
  obtain ⟨-, -, -, hpush, -, -, -, -, hcost⟩ :=
    cost_eq_sum m {} [0x51, 0x52, 0x93] 3 (by norm_num)
  change meter.profile.push = min (2 ^ 63 * meter.pushedBytes) (2 ^ 64 - 1) at hpush
  change meter.cost = min (_ + 2 ^ 63 * meter.pushedBytes + _ + _ + _ + _) (2 ^ 64 - 1) at hcost
  rw [hpushed] at hpush hcost
  exact ⟨hpushed, by omega, by omega⟩

end Machine

end ScriptMachine
