import ScriptMachine.Proofs.Machine.StackWindow
import ScriptMachine.Proofs.ScriptNumber.Encoding

/-!
# Time locks

A time lock is a test of the item on top of the stack against the transaction: it takes nothing off
and puts nothing on. An absolute lock that is reached stays reached for smaller operands and for
later transactions of the same kind. A relative lock is compared as a word that has its kind above
its value; for two of the same kind this compares the values.
-/

namespace ScriptMachine

open ScriptNumber (encode)

/-! ## Masked words -/

section Masks

theorem and_sequenceDisableFlag_ne_zero_iff (n : Nat) :
    n &&& sequenceDisableFlag ≠ 0 ↔ n.testBit 31 = true := by
  rw [sequenceDisableFlag, Nat.one_shiftLeft, Nat.and_two_pow]
  cases n.testBit 31 <;> simp

theorem and_sequenceMask_and_typeFlag (n : Nat) :
    n &&& sequenceMask &&& sequenceTypeFlag = (n.testBit 22).toNat * 2 ^ 22 := by
  have hflag : sequenceMask &&& sequenceTypeFlag = 2 ^ 22 := by decide
  rw [Nat.and_assoc, hflag, Nat.and_two_pow]

/-- The masked word has the kind in one bit and the value below it. -/
theorem and_sequenceMask (n : Nat) :
    n &&& sequenceMask = (n.testBit 22).toNat * 2 ^ 22 + n % 2 ^ 16 := by
  have hvalue : n &&& sequenceValueMask = n % 2 ^ 16 := Nat.and_two_pow_sub_one_eq_mod n 16
  have hlt : n % 2 ^ 16 < 2 ^ 22 := by omega
  have hflag : sequenceTypeFlag = 2 ^ 22 := by decide
  rw [sequenceMask, Nat.and_or_distrib_left, hvalue, hflag, Nat.and_two_pow]
  cases n.testBit 22 with
  | false => simp
  | true =>
    rw [Bool.toNat_true, Nat.one_mul]
    exact (Nat.two_pow_add_eq_or_of_lt hlt 1).symm

/-- Words of the same kind are compared by their values. -/
theorem masked_le_masked_iff (a b : Nat) :
    a &&& sequenceMask &&& sequenceTypeFlag = b &&& sequenceMask &&& sequenceTypeFlag ∧
        a &&& sequenceMask ≤ b &&& sequenceMask ↔
      a.testBit 22 = b.testBit 22 ∧ a % 2 ^ 16 ≤ b % 2 ^ 16 := by
  have hkinds : a &&& sequenceMask &&& sequenceTypeFlag = b &&& sequenceMask &&& sequenceTypeFlag ↔
      a.testBit 22 = b.testBit 22 := by
    rw [and_sequenceMask_and_typeFlag, and_sequenceMask_and_typeFlag]
    cases a.testBit 22 <;> cases b.testBit 22 <;> decide
  rw [hkinds]
  refine and_congr_right fun hkind ↦ ?_
  rw [and_sequenceMask, and_sequenceMask, hkind, Nat.add_le_add_iff_left]

end Masks

/-! ## What the locks ask -/

/-- The item on top is the shortest encoding of a number that a lock can have. -/
def State.Offers (s : State) (r : Nat) : Prop :=
  s.top? = some (encode r) ∧ (encode r).length ≤ lockTimeLength

/-- Heights are compared with heights and times with times, in a transaction that is not final. -/
def Context.LockTimeReached (ctx : Context) (r : Nat) : Prop :=
  ∃ input, ctx.input? = some input ∧
    (r < lockTimeThreshold ↔ ctx.transaction.lockTime.toNat < lockTimeThreshold) ∧
    r ≤ ctx.transaction.lockTime.toNat ∧ input.sequence ≠ finalSequence

/-- A lock that is turned off is reached. Otherwise the sequence number is on, and has reached the
value of a lock of the same kind. -/
def Context.SequenceReached (ctx : Context) (r : Nat) : Prop :=
  r.testBit 31 = true ∨ ∃ input, ctx.input? = some input ∧ 2 ≤ ctx.transaction.version ∧
    input.sequence.toNat.testBit 31 = false ∧
    r.testBit 22 = input.sequence.toNat.testBit 22 ∧
    r % 2 ^ 16 ≤ input.sequence.toNat % 2 ^ 16

def LocktimeOp.Reached (ctx : Context) : LocktimeOp → Nat → Prop
  | lockTime => ctx.LockTimeReached
  | sequence => ctx.SequenceReached

/-- The opcode lets the evaluation go on. -/
def LocktimeOp.Passes (op : LocktimeOp) (ctx : Context) (s : State) : Prop :=
  op.perform ctx s = .ok () s

theorem Context.LockTimeReached.of_le {ctx : Context} {r r' : Nat} (h : ctx.LockTimeReached r)
    (hle : r' ≤ r) (hside : r' < lockTimeThreshold ↔ r < lockTimeThreshold) :
    ctx.LockTimeReached r' := by
  obtain ⟨input, hinput, hkind, hreached, hfinal⟩ := h
  exact ⟨input, hinput, hside.trans hkind, hle.trans hreached, hfinal⟩

theorem Context.LockTimeReached.later {ctx : Context} {r : Nat} {later : UInt32}
    (h : ctx.LockTimeReached r) (hle : ctx.transaction.lockTime ≤ later)
    (hside : later.toNat < lockTimeThreshold ↔ r < lockTimeThreshold) :
    Context.LockTimeReached
      { ctx with transaction := { ctx.transaction with lockTime := later } } r := by
  obtain ⟨input, hinput, -, hreached, hfinal⟩ := h
  exact ⟨input, hinput, hside.symm, hreached.trans (UInt32.le_iff_toNat_le.mp hle), hfinal⟩

/-! ## Reading the operand -/

theorem State.Offers.unique {s : State} {r r' : Nat} (h : s.Offers r) (h' : s.Offers r') :
    r = r' := by
  have hitems : encode r = encode r' := Option.some.inj (h.1.symm.trans h'.1)
  have hvalues := congrArg ScriptNumber.value hitems
  rw [ScriptNumber.value_encode, ScriptNumber.value_encode] at hvalues
  exact_mod_cast hvalues

theorem Action.readNumber_of_error {limit : Nat} {item : Bytes} {fault : ScriptNumber.Fault}
    (h : ScriptNumber.decode item limit true = .error fault) (s : State) :
    readNumber limit item s = .error (.number fault) s := by
  rw [readNumber, h]
  rfl

theorem Action.readNumber_of_ok {limit : Nat} {item : Bytes} {v : Int}
    (h : ScriptNumber.decode item limit true = .ok v) (s : State) :
    readNumber limit item s = .ok v s := by
  rw [readNumber, h]
  rfl

/-- The operand is read where there is one, and in any case the state stays as it is. -/
theorem Action.peekLockTime_cases (s : State) :
    (∃ r, s.Offers r ∧ peekLockTime s = .ok r s) ∨
      (∀ r, ¬ s.Offers r) ∧ ∃ fault, peekLockTime s = .error fault s := by
  cases htop : s.top? with
  | none =>
    right
    refine ⟨fun r hr ↦ ?_, _, bind_of_error (inspect_of_none htop)⟩
    rw [hr.1] at htop
    cases htop
  | some item =>
    have hpeek : peekLockTime s = (readNumber lockTimeLength item >>= fun v ↦
        if v < 0 then MonadExcept.throw Fault.negativeNumber >>= fun _ : Unit ↦ pure v.toNat
        else pure v.toNat) s := bind_of_ok (inspect_of_some htop)
    cases hdecode : ScriptNumber.decode item lockTimeLength true with
    | error fault =>
      right
      refine ⟨fun r hr ↦ ?_, .number fault, ?_⟩
      · obtain ⟨hitem, hlength⟩ := hr
        cases htop.symm.trans hitem
        have hread : ScriptNumber.decode (encode r) lockTimeLength true = .ok r := by
          apply (ScriptNumber.decode_minimal_eq_ok_iff _ _ _).mpr
          rw [ScriptNumber.value_encode]
          exact ⟨hlength, rfl, rfl⟩
        rw [hdecode] at hread
        cases hread
      · rw [hpeek, bind_of_error (readNumber_of_error hdecode s)]
    | ok v =>
      obtain ⟨hlength, hitem, rfl⟩ := (ScriptNumber.decode_minimal_eq_ok_iff _ _ _).mp hdecode
      rw [hpeek, bind_of_ok (readNumber_of_ok hdecode s)]
      by_cases hneg : ScriptNumber.value item < 0
      · right
        refine ⟨fun r hr ↦ ?_, .negativeNumber, by rw [if_pos hneg]; rfl⟩
        cases htop.symm.trans hr.1
        rw [ScriptNumber.value_encode] at hneg
        omega
      · left
        have hcast : ((ScriptNumber.value item).toNat : Int) = ScriptNumber.value item :=
          Int.toNat_of_nonneg (Int.not_lt.mp hneg)
        refine ⟨(ScriptNumber.value item).toNat, ?_, by rw [if_neg hneg]; rfl⟩
        rw [State.Offers, hcast, ← hitem]
        exact ⟨htop, hlength⟩

/-! ## Tests -/

/-- The action changes nothing, and succeeds exactly where the condition holds. -/
structure Action.Tests (x : Action Unit) (s : State) (P : Prop) : Prop where
  ok : P → x s = .ok () s
  error : ¬ P → ∃ fault, x s = .error fault s

namespace Action.Tests

variable {s : State} {P Q : Prop} {x : Action Unit}

theorem congr (h : Tests x s P) (hiff : P ↔ Q) : Tests x s Q := by
  rwa [← propext hiff]

theorem ok_iff (h : Tests x s P) : x s = .ok () s ↔ P := by
  refine ⟨fun hok ↦ ?_, h.ok⟩
  by_contra hnot
  obtain ⟨fault, herror⟩ := h.error hnot
  rw [hok] at herror
  cases herror

theorem pure : Tests (Pure.pure ()) s True := ⟨fun _ ↦ rfl, fun h ↦ absurd trivial h⟩

theorem throw (fault : Fault) : Tests (MonadExcept.throw fault) s False :=
  ⟨False.elim, fun _ ↦ ⟨fault, rfl⟩⟩

theorem ite {c : Prop} [Decidable c] {y : Action Unit} (hx : Tests x s P) (hy : Tests y s Q) :
    Tests (if c then x else y) s (c ∧ P ∨ ¬ c ∧ Q) := by
  by_cases hc : c
  · rw [if_pos hc]
    exact hx.congr (by simp [hc])
  · rw [if_neg hc]
    exact hy.congr (by simp [hc])

theorem guard {c : Prop} [Decidable c] {fault : Fault} {f : Unit → Action Unit}
    (hx : Tests x s P) : Tests (if c then MonadExcept.throw fault >>= f else x) s (¬ c ∧ P) := by
  have hthrow : Tests (MonadExcept.throw fault >>= f) s False := ⟨False.elim, fun _ ↦ ⟨fault, rfl⟩⟩
  exact (hthrow.ite hx).congr (by simp)

theorem input {ctx : Context} {f : Input → Action Unit} {R : Input → Prop}
    (h : ∀ input, Tests (f input) s (R input)) :
    Tests (currentInput ctx >>= f) s (∃ input, ctx.input? = some input ∧ R input) := by
  cases hinput : ctx.input? with
  | none =>
    have hmissing : currentInput ctx s = .error .missingContext s := by
      rw [currentInput, hinput]
      rfl
    exact ⟨by simp, fun _ ↦ ⟨_, bind_of_error hmissing⟩⟩
  | some input =>
    have hfound : currentInput ctx s = .ok input s := by
      rw [currentInput, hinput]
      rfl
    have heq : (currentInput ctx >>= f) s = f input s := bind_of_ok hfound
    refine ⟨?_, fun hnot ↦ ?_⟩
    · rintro ⟨other, hother, hR⟩
      cases hother
      rw [heq]
      exact (h input).ok hR
    · rw [heq]
      exact (h input).error fun hR ↦ hnot ⟨input, rfl, hR⟩

theorem operand {f : Nat → Action Unit} {R : Nat → Prop} (h : ∀ r, Tests (f r) s (R r)) :
    Tests (peekLockTime >>= f) s (∃ r, s.Offers r ∧ R r) := by
  rcases peekLockTime_cases s with ⟨r, hr, hpeek⟩ | ⟨hnone, fault, hpeek⟩
  · have heq : (peekLockTime >>= f) s = f r s := bind_of_ok hpeek
    refine ⟨?_, fun hnot ↦ ?_⟩
    · rintro ⟨r', hr', hR⟩
      rw [heq, hr.unique hr']
      exact (h r').ok hR
    · rw [heq]
      exact (h r).error fun hR ↦ hnot ⟨r, hr, hR⟩
  · refine ⟨?_, fun _ ↦ ⟨fault, bind_of_error hpeek⟩⟩
    rintro ⟨r, hr, -⟩
    exact absurd hr (hnone r)

end Action.Tests

namespace LocktimeOp

variable {ctx : Context} {s : State} {op : LocktimeOp}

/-- A time lock passes exactly where its operand is reached, and always leaves the state. -/
theorem tests_perform (op : LocktimeOp) (ctx : Context) (s : State) :
    (op.perform ctx).Tests s (∃ r, s.Offers r ∧ op.Reached ctx r) := by
  cases op with
  | lockTime =>
    refine .operand fun r ↦ ?_
    refine (Action.Tests.input fun input ↦
      .guard <| .guard <| .ite (.throw _) .pure).congr (exists_congr fun input ↦ ?_)
    simp
  | sequence =>
    refine .operand fun r ↦ ?_
    refine (Action.Tests.ite .pure <| .input fun input ↦
      .guard <| .guard <| .ite (.throw _) .pure).congr ?_
    have hinput : ∀ input : Input,
        (¬ (ctx.transaction.version < 2 ∨ input.sequence.toNat &&& sequenceDisableFlag ≠ 0) ∧
          r &&& sequenceMask &&& sequenceTypeFlag =
            input.sequence.toNat &&& sequenceMask &&& sequenceTypeFlag ∧
          r &&& sequenceMask ≤ input.sequence.toNat &&& sequenceMask) ↔
        2 ≤ ctx.transaction.version ∧ input.sequence.toNat.testBit 31 = false ∧
          r.testBit 22 = input.sequence.toNat.testBit 22 ∧
          r % 2 ^ 16 ≤ input.sequence.toNat % 2 ^ 16 := by
      intro input
      rw [masked_le_masked_iff, not_or, and_sequenceDisableFlag_ne_zero_iff,
        Bool.not_eq_true, UInt32.not_lt, and_assoc]
    rw [Reached, Context.SequenceReached, and_sequenceDisableFlag_ne_zero_iff]
    simp only [← hinput, and_true, and_false, false_or, not_lt, not_not, ne_eq]
    by_cases hoff : r.testBit 31 = true <;> simp [hoff]

theorem passes_iff : op.Passes ctx s ↔ ∃ r, s.Offers r ∧ op.Reached ctx r :=
  (tests_perform op ctx s).ok_iff

theorem passes_iff_of_offers {r : Nat} (hr : s.Offers r) : op.Passes ctx s ↔ op.Reached ctx r := by
  rw [passes_iff]
  refine ⟨?_, fun hreached ↦ ⟨r, hr, hreached⟩⟩
  rintro ⟨r', hr', hreached⟩
  rwa [hr.unique hr']

end LocktimeOp

/-! ## Steps on time locks -/

namespace Machine

variable {m : Machine} {ctx : Context} {s : State}

section Testing

variable {op : Opcode} {P : Prop} (hs : s.IsAt op) (hop : op.IsOrdinary m.policy.edition)
  (htests : (m.perform ctx s.pointer true op).Tests (m.counted s) P)

include hs hop htests

theorem stacks_step_of_tests : (m.step ctx s).stack = s.stack ∧ (m.step ctx s).alt = s.alt := by
  by_cases hcount : m.MayCount s
  · by_cases hP : P
    · rw [step_of_mayCount hs hop hcount, Action.bind_of_ok (htests.ok hP)]
      exact ⟨stack_settle_checkLimits m _, alt_settle_checkLimits m _⟩
    · obtain ⟨fault, herror⟩ := htests.error hP
      rw [step_of_perform_eq_error hs hop hcount herror]
      exact ⟨rfl, rfl⟩
  · obtain ⟨limit, hcount⟩ := not_forall.mp hcount
    obtain ⟨hlimit, hlt⟩ := Classical.not_imp.mp hcount
    rw [step_of_overcount hs hop hlimit (Nat.lt_of_not_le hlt)]
    exact ⟨rfl, rfl⟩

/-- A step on an opcode that is a test fails where the test does or a limit is passed. -/
theorem fault_step_of_tests :
    (m.step ctx s).fault = none ↔ m.MayCount s ∧ m.Allows (m.counted s) ∧ P := by
  have hfault : (m.counted s).fault = none := hs.fault_eq_none
  have hstep : m.MayCount s → P → m.step ctx s = settle (m.checkLimits (m.counted s)) := by
    intro hcount hP
    rw [step_of_mayCount hs hop hcount, Action.bind_of_ok (htests.ok hP)]
  refine ⟨fun hnone ↦ ?_, ?_⟩
  · have hcount := mayCount_of_step hs hop hnone
    have hP : P := by
      by_contra hnot
      obtain ⟨fault, herror⟩ := htests.error hnot
      rw [step_of_perform_eq_error hs hop hcount herror] at hnone
      cases hnone
    rw [hstep hcount hP] at hnone
    exact ⟨hcount, (fault_settle_checkLimits_eq_none_iff hfault).mp hnone, hP⟩
  · rintro ⟨hcount, hallows, hP⟩
    rw [hstep hcount hP]
    exact (fault_settle_checkLimits_eq_none_iff hfault).mpr hallows

end Testing

end Machine

namespace LocktimeOp

variable {ctx : Context} {s : State} {op : LocktimeOp} {r : Nat} {rest : List Bytes}

theorem tests_step (m : Machine) (op : LocktimeOp) (ctx : Context) (s : State) :
    (m.perform ctx s.pointer true (.locktime op)).Tests (m.counted s) (op.Passes ctx s) := by
  have htests := op.tests_perform ctx (m.counted s)
  -- Only the stack is read, and counting the opcode leaves it.
  have hpasses : op.Passes ctx s ↔ ∃ r, (m.counted s).Offers r ∧ op.Reached ctx r := passes_iff
  rw [hpasses]
  exact htests

theorem offers_of_passes (hstack : s.stack = encode r :: rest) (hpasses : op.Passes ctx s) :
    s.Offers r := by
  obtain ⟨r', ⟨htop, hlength⟩, -⟩ := passes_iff.mp hpasses
  have hhead : s.top? = some (encode r) := by rw [State.top?, hstack, List.head?_cons]
  have hitem : encode r' = encode r := Option.some.inj (htop.symm.trans hhead)
  exact ⟨hhead, hitem ▸ hlength⟩

end LocktimeOp

theorem State.Offers.of_le {s t : State} {r r' : Nat} {rest : List Bytes} (h : s.Offers r)
    (hle : r' ≤ r) (ht : t.stack = encode r' :: rest) : t.Offers r' := by
  refine ⟨by rw [State.top?, ht, List.head?_cons], ?_⟩
  have hlength := h.2
  rw [ScriptNumber.length_encode, ScriptNumber.width_le_iff, Int.natAbs_natCast] at hlength ⊢
  exact lt_of_le_of_lt (Nat.mul_le_mul_left 2 hle) hlength

/-- Time locks leave both stacks. A lock time that is reached is reached for smaller operands and by
later transactions, and a sequence number is compared by its kind and its value. -/
theorem time_locks_are_monotone (m : Machine) (ctx : Context) (s : State) :
    (∀ op : LocktimeOp, s.IsAt (.locktime op) →
      (m.step ctx s).stack = s.stack ∧ (m.step ctx s).alt = s.alt ∧
        ((m.step ctx s).fault = none ↔
          m.MayCount s ∧ m.Allows (m.counted s) ∧ op.Passes ctx s)) ∧
    ∀ (r : Nat) (rest : List Bytes), s.stack = encode r :: rest →
      (LocktimeOp.lockTime.Passes ctx s →
        (∀ r' ≤ r, (r' < lockTimeThreshold ↔ r < lockTimeThreshold) →
          LocktimeOp.lockTime.Passes ctx { s with stack := encode r' :: rest }) ∧
        ∀ later : UInt32, ctx.transaction.lockTime ≤ later →
          (later.toNat < lockTimeThreshold ↔ r < lockTimeThreshold) →
          LocktimeOp.lockTime.Passes
            { ctx with transaction := { ctx.transaction with lockTime := later } } s) ∧
      ((encode r).length ≤ lockTimeLength →
        (LocktimeOp.sequence.Passes ctx s ↔
          r.testBit 31 = true ∨ ∃ input, ctx.input? = some input ∧ 2 ≤ ctx.transaction.version ∧
            input.sequence.toNat.testBit 31 = false ∧
            r.testBit 22 = input.sequence.toNat.testBit 22 ∧
            r % 2 ^ 16 ≤ input.sequence.toNat % 2 ^ 16)) := by
  refine ⟨fun op hs ↦ ?_, fun r rest hstack ↦ ⟨fun hpasses ↦ ?_, fun hlength ↦ ?_⟩⟩
  · have hop := Opcode.isOrdinary_locktime m.policy.edition op
    have htests := op.tests_step m ctx s
    obtain ⟨hstack, halt⟩ := Machine.stacks_step_of_tests hs hop htests
    exact ⟨hstack, halt, Machine.fault_step_of_tests hs hop htests⟩
  · have hoffers := LocktimeOp.offers_of_passes hstack hpasses
    have hreached : ctx.LockTimeReached r := (LocktimeOp.passes_iff_of_offers hoffers).mp hpasses
    refine ⟨fun r' hle hside ↦ ?_, fun later hle hside ↦ ?_⟩
    · apply (LocktimeOp.passes_iff_of_offers (hoffers.of_le hle rfl)).mpr
      exact hreached.of_le hle hside
    · apply (LocktimeOp.passes_iff_of_offers hoffers).mpr
      exact hreached.later hle hside
  · have hoffers : s.Offers r := ⟨by rw [State.top?, hstack, List.head?_cons], hlength⟩
    exact LocktimeOp.passes_iff_of_offers hoffers

/-- A lock on a time that stays reached down to the least time and up to the last one, and relative
locks of five bytes that are reached and missed by one. -/
theorem time_locks_are_monotone_wide :
    let m : Machine := {}
    let tx : Transaction :=
      { version := 2, inputs := [{ sequence := 0x400010 }], lockTime := 500000100 }
    let ctx : Context := { transaction := tx }
    let last : Context := { ctx with transaction := { tx with lockTime := 0xffffffff } }
    let s : State :=
      { program := [.operation 0xb1], stack := [encode 500000100, [7]],
        meter := .start m.policy 100 }
    let t : State := { s with stack := [encode (0x4000400010 : Nat)] }
    let u : State := { s with stack := [encode (0x4000400011 : Nat)] }
    ((m.step ctx s).fault = none ∧ (m.step ctx s).stack = s.stack) ∧
      LocktimeOp.lockTime.Passes ctx { s with stack := [encode 500000000, [7]] } ∧
      LocktimeOp.lockTime.Passes last s ∧
      LocktimeOp.sequence.Passes ctx t ∧ ¬ LocktimeOp.sequence.Passes ctx u := by
  intro m tx ctx last s t u
  have hat : s.IsAt (.locktime .lockTime) := ⟨rfl, rfl, rfl⟩
  have hfault : (m.step ctx s).fault = none := by decide +kernel
  obtain ⟨hsteps, hs⟩ := time_locks_are_monotone m ctx s
  obtain ⟨hstack, -, hpasses⟩ := hsteps .lockTime hat
  obtain ⟨hearlier, hlater⟩ := (hs 500000100 [[7]] rfl).1 (hpasses.mp hfault).2.2
  refine ⟨⟨hfault, hstack⟩, ?_, ?_, ?_, ?_⟩
  · exact hearlier 500000000 (by decide) (by decide)
  · exact hlater 0xffffffff (by decide) (by decide)
  · apply (((time_locks_are_monotone m ctx t).2 _ [] rfl).2 (by decide +kernel)).mpr
    exact .inr ⟨_, rfl, by decide +kernel⟩
  · rw [((time_locks_are_monotone m ctx u).2 _ [] rfl).2 (by decide +kernel)]
    rintro (hoff | ⟨input, hinput, hreached⟩)
    · exact absurd hoff (by decide +kernel)
    · cases hinput
      exact absurd hreached (by decide +kernel)

end ScriptMachine
