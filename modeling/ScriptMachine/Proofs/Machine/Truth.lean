import ScriptMachine.Machine.Run
import ScriptMachine.Proofs.Machine.Arithmetic
import ScriptMachine.Proofs.Machine.StackWindow

/-!
# Truth of items

An item is true where it has a bit set other than its sign bit, which is to say that its value is
not zero. So what tests an item (branches, loops, the opcode that verifies, the verdict at the end)
and what tests a number come to the same answer on every item that is read as a number.
-/

namespace ScriptMachine

open ScriptNumber (encode value minimize isTruthy)
open ScriptMachine.Action

/-! ## Truth and value -/

namespace ScriptNumber

theorem toNatLE_ne_zero_iff (bytes : Bytes) :
    Bytes.toNatLE bytes ≠ 0 ↔ bytes.any (· != 0) = true := by
  induction bytes with
  | nil => simp [Bytes.toNatLE]
  | cons b rest ih =>
    have hb : b ≠ 0 ↔ b.toNat ≠ 0 := by rw [ne_eq, ← UInt8.toNat_inj, UInt8.toNat_zero]
    rw [List.any_cons, Bool.or_eq_true, ← ih, bne_iff_ne, hb, Bytes.toNatLE]
    omega

/-- The bytes that are searched for a bit are those that make up the magnitude. -/
theorem isTruthy_iff_value_ne_zero (bytes : Bytes) : isTruthy bytes = true ↔ value bytes ≠ 0 := by
  obtain rfl | ⟨init, last, rfl⟩ := List.eq_nil_or_concat' bytes
  · simp [isTruthy, value, Bytes.toNatLE]
  · have hscan : isTruthy (init ++ [last]) = true ↔
        last.toNat % 128 ≠ 0 ∨ Bytes.toNatLE init ≠ 0 := by
      rw [toNatLE_ne_zero_iff, ← magnitudeBits_ne_zero_iff, ← Bool.or_eq_true]
      simp [isTruthy]
    have hproduct : 256 ^ init.length * (last.toNat % 128) = 0 ↔ last.toNat % 128 = 0 := by
      simp
    rw [hscan, ← Int.natAbs_ne_zero, natAbs_value_concat]
    omega

theorem isTruthy_eq (bytes : Bytes) : isTruthy bytes = (value bytes != 0) := by
  rw [Bool.eq_iff_iff, bne_iff_ne]
  exact isTruthy_iff_value_ne_zero bytes

theorem minimize_ne_nil_iff (bytes : Bytes) : minimize bytes ≠ [] ↔ value bytes ≠ 0 := by
  rw [not_iff_not]
  constructor
  · intro h
    rw [← value_encode (value bytes), ← minimize, h]
    rfl
  · intro h
    rw [minimize, h]
    rfl

end ScriptNumber

/-! ## Opcodes -/

theorem Opcode.isOrdinary_flow (edition : Edition) (op : FlowOp) :
    IsOrdinary edition (.flow op) := by
  refine ⟨?_, rfl, ?_⟩
  · cases edition <;> cases op <;> decide
  · cases op <;> decide

theorem Opcode.isOrdinary_unary (edition : Edition) (op : UnaryOp) :
    IsOrdinary edition (.unary op) := by
  refine ⟨?_, rfl, ?_⟩
  · cases edition <;> cases op <;> decide
  · cases op <;> decide

theorem Opcode.isOrdinary_loop {edition : Edition} (h : edition.hasLoops = true) (op : LoopOp) :
    IsOrdinary edition (.loop op) := by
  refine ⟨?_, rfl, ?_⟩
  · cases edition with
    | y2023 | y2025 => cases h
    | y2026 => cases op <;> decide
  · cases op <;> decide

namespace Action

variable {s : State} {item : Bytes} {rest : List Bytes}

theorem openBranch_of_cons (negate : Bool) (hs : s.stack = item :: rest) :
    openBranch true negate s = .ok () { s with
      stack := rest
      control := .branch (isTruthy item != negate) :: s.control } := by
  rw [openBranch_true_apply, hs]

theorem verifyTop_of_cons (op : Opcode) (hs : s.stack = item :: rest) :
    verifyTop op s =
      if isTruthy item then .ok () { s with stack := rest }
      else .error (.failedVerify op) { s with stack := rest } := by
  have hpop : pop s = .ok item { s with stack := rest } := by rw [pop, hs]
  rw [verifyTop, bind_of_ok hpop, require]
  cases isTruthy item <;> rfl

theorem closeLoop_of_cons {start : Nat} {outer : List Marker} (p : Policy) (index : Nat)
    (hs : s.stack = item :: rest) (hcontrol : s.control = .loop start :: outer) :
    closeLoop p index true s =
      .ok () (if isTruthy item then { s with stack := rest, control := outer }
        else
          { s with
            stack := rest
            meter := s.meter.countRepeated p (spanLength s.program start index)
            pointer := start }) := by
  rw [closeLoop_true_apply hcontrol, hs]
  exact (apply_ite (EStateM.Result.ok ()) _ _ _).symm

end Action

/-- Truth values are numbers in their shortest encoding. -/
theorem encode_boolNumber (b : Bool) : encode (boolNumber b) = boolItem b := by
  cases b <;> decide

namespace Machine

variable {m : Machine} {ctx : Context} {s t : State} {op : Opcode} {item : Bytes}
  {rest : List Bytes} {v : Int}

/-- An opcode that cannot fail. -/
theorem yields_of_perform_eq_ok (hs : s.IsAt op) (hop : op.IsOrdinary m.policy.edition)
    (hcount : m.MayCount s) (hfault : t.fault = none)
    (h : m.perform ctx s.pointer true op (m.counted s) = .ok () t) : m.Yields ctx s t True :=
  yields_of_perform hs hop hcount hfault (fun _ ↦ h) fun hfits ↦ absurd trivial hfits

section Numbers

variable {op : UnaryOp} (hs : s.IsAt (.unary op)) (hcount : m.MayCount s)
  (hstack : s.stack = item :: rest) (hread : m.policy.Reads item v)

include hs hcount hstack hread

/-- An opcode on one number puts its result in the place of the item. -/
theorem yields_unary (hlength : (encode (op.compute v)).length ≤ m.policy.limits.numberLength) :
    m.Yields ctx s ((m.counted s).answered m.policy rest item.length (op.compute v))
      ((encode (op.compute v)).length ≤ m.policy.limits.itemLength) := by
  have hperform : m.perform ctx s.pointer true (.unary op) (m.counted s) =
      push m.policy (encode (op.compute v)) ((m.counted s).without m.policy rest item.length) := by
    have hpush := op.perform_of_reads (show (m.counted s).stack = item :: rest from hstack) hread
    rw [pushNumber, if_neg (Nat.not_lt.mpr hlength)] at hpush
    exact hpush
  refine yields_of_perform hs (Opcode.isOrdinary_unary _ op) hcount hs.fault_eq_none
    (fun hfits ↦ ?_) (fun hfits ↦ ?_)
  · rw [hperform, push_of_le hfits]
    rfl
  · exact ⟨_, _, hperform.trans (push_of_lt (Nat.lt_of_not_le hfits) _), trivial⟩

theorem step_unary_of_overflow
    (hlength : m.policy.limits.numberLength < (encode (op.compute v)).length) :
    m.step ctx s =
      { (m.counted s).without m.policy rest item.length with
        fault := some (.numberOverflow m.policy.limits.numberLength) } := by
  apply step_of_perform_eq_error hs (Opcode.isOrdinary_unary _ op) hcount
  have hpush := op.perform_of_reads (show (m.counted s).stack = item :: rest from hstack) hread
  rw [pushNumber, if_pos hlength] at hpush
  exact hpush

end Numbers

/-! ## Tests of items and of numbers -/

/-- What tests an item decides by `truth`: which branch is taken, whether the evaluation goes on,
whether a loop is left or run again, and whether the only item left is a success. -/
structure Decides (m : Machine) (ctx : Context) (item : Bytes) (truth : Bool) : Prop where
  branch : ∀ s rest, s.IsAt (.flow .branch) → m.MayCount s → s.stack = item :: rest →
    m.Yields ctx s
      { m.counted s with stack := rest, control := .branch truth :: s.control } True
  branchNot : ∀ s rest, s.IsAt (.flow .branchNot) → m.MayCount s → s.stack = item :: rest →
    m.Yields ctx s
      { m.counted s with stack := rest, control := .branch (!truth) :: s.control } True
  verify : ∀ s rest, s.IsAt (.flow .verify) → m.MayCount s → s.stack = item :: rest →
    if truth then m.Yields ctx s { m.counted s with stack := rest } True
    else m.step ctx s =
      { m.counted s with stack := rest, fault := some (.failedVerify (.flow .verify)) }
  closeLoop : ∀ s rest start outer, m.policy.edition.hasLoops = true → s.IsAt (.loop .until) →
    m.MayCount s → s.stack = item :: rest → s.control = .loop start :: outer →
    m.Yields ctx s
      (if truth then { m.counted s with stack := rest, control := outer }
        else
          { m.counted s with
            stack := rest
            meter := (m.counted s).meter.countRepeated m.policy
              (spanLength s.program start s.pointer)
            pointer := start }) True
  verdict : ∀ s : State, s.fault = none → s.control = [] → s.stack = [item] →
    s.verdict .final = if truth then none else some .unsuccessful

/-- What tests a number says by `truth` whether it is other than zero. The opcode that negates may
find that numbers have no room for its answer. -/
structure Measures (m : Machine) (ctx : Context) (item : Bytes) (truth : Bool) : Prop where
  isNonzero : ∀ s rest, s.IsAt (.unary .isNonzero) → m.MayCount s → s.stack = item :: rest →
    m.Yields ctx s ((m.counted s).answered m.policy rest item.length (boolNumber truth))
      ((boolItem truth).length ≤ m.policy.limits.itemLength)
  not : ∀ s rest, s.IsAt (.unary .not) → m.MayCount s → s.stack = item :: rest →
    if (boolItem !truth).length ≤ m.policy.limits.numberLength then
      m.Yields ctx s ((m.counted s).answered m.policy rest item.length (boolNumber !truth))
        ((boolItem !truth).length ≤ m.policy.limits.itemLength)
    else m.step ctx s =
      { (m.counted s).without m.policy rest item.length with
        fault := some (.numberOverflow m.policy.limits.numberLength) }

theorem decides_isTruthy (m : Machine) (ctx : Context) (item : Bytes) :
    m.Decides ctx item (isTruthy item) where
  branch s rest hs hcount hstack := by
    have hopen := openBranch_of_cons (s := m.counted s) false hstack
    rw [Bool.bne_false] at hopen
    exact yields_of_perform_eq_ok hs (Opcode.isOrdinary_flow _ _) hcount hs.fault_eq_none hopen
  branchNot s rest hs hcount hstack := by
    have hopen := openBranch_of_cons (s := m.counted s) true hstack
    rw [Bool.bne_true] at hopen
    exact yields_of_perform_eq_ok hs (Opcode.isOrdinary_flow _ _) hcount hs.fault_eq_none hopen
  verify s rest hs hcount hstack := by
    have hverify := verifyTop_of_cons (s := m.counted s) (.flow .verify) hstack
    cases htruth : isTruthy item with
    | true =>
      rw [htruth] at hverify
      exact yields_of_perform_eq_ok hs (Opcode.isOrdinary_flow _ _) hcount hs.fault_eq_none hverify
    | false =>
      rw [htruth] at hverify
      exact step_of_perform_eq_error hs (Opcode.isOrdinary_flow _ _) hcount hverify
  closeLoop s rest start outer hloops hs hcount hstack hcontrol := by
    have hclose := closeLoop_of_cons (s := m.counted s) m.policy s.pointer hstack hcontrol
    refine yields_of_perform_eq_ok hs (Opcode.isOrdinary_loop hloops _) hcount ?_ hclose
    split <;> exact hs.fault_eq_none
  verdict s hfault hcontrol hstack := by
    simp [State.verdict, hfault, hcontrol, hstack]

theorem measures_of_reads (ctx : Context) (h : m.policy.Reads item v) :
    m.Measures ctx item (isTruthy item) := by
  obtain ⟨hlimit, -, rfl⟩ := (ScriptNumber.decode_minimal_eq_ok_iff _ _ _).mp h
  have hnonzero : UnaryOp.isNonzero.compute (value item) = boolNumber (isTruthy item) := by
    rw [UnaryOp.compute, ScriptNumber.isTruthy_eq]
  have hzero : UnaryOp.not.compute (value item) = boolNumber (!isTruthy item) := by
    rw [UnaryOp.compute, ScriptNumber.isTruthy_eq, bne, Bool.not_not]
  constructor
  · intro s rest hs hcount hstack
    -- A true item has a byte, so numbers have room for one.
    have hlength : (encode (UnaryOp.isNonzero.compute (value item))).length ≤
        m.policy.limits.numberLength := by
      rw [hnonzero, encode_boolNumber]
      refine Nat.le_trans ?_ hlimit
      cases item with
      | nil => decide
      | cons b rest =>
        cases isTruthy (b :: rest) <;> simp [boolItem]
    have hyields : m.Yields ctx s _ _ := yields_unary hs hcount hstack h hlength
    rwa [hnonzero, encode_boolNumber] at hyields
  · intro s rest hs hcount hstack
    split
    · rename_i hlength
      rw [← encode_boolNumber, ← hzero] at hlength
      have hyields : m.Yields ctx s _ _ := yields_unary hs hcount hstack h hlength
      rwa [hzero, encode_boolNumber] at hyields
    · rename_i hlength
      rw [← encode_boolNumber, ← hzero, Nat.not_le] at hlength
      exact step_unary_of_overflow hs hcount hstack h hlength

end Machine

/-- Truth is being other than zero: the bytes of an item hold a bit besides the sign where its value
is not zero, and then its shortest encoding has a byte. Branches, loops, verification and the
verdict decide by the truth of an item, and where the item is read as a number, the two tests of
numbers say the same of it. -/
theorem truth_is_nonzeroness :
    (∀ bytes, (isTruthy bytes = true ↔ value bytes ≠ 0) ∧
      (isTruthy bytes = true ↔ minimize bytes ≠ [])) ∧
    ∀ (m : Machine) (ctx : Context) (item : Bytes),
      m.Decides ctx item (isTruthy item) ∧
      ∀ v, m.policy.Reads item v →
        (isTruthy item = true ↔ v ≠ 0) ∧ m.Measures ctx item (isTruthy item) := by
  refine ⟨fun bytes ↦ ?_, fun m ctx item ↦ ⟨m.decides_isTruthy ctx item, fun v hread ↦ ?_⟩⟩
  · rw [ScriptNumber.minimize_ne_nil_iff, ScriptNumber.isTruthy_iff_value_ne_zero]
    exact ⟨Iff.rfl, Iff.rfl⟩
  · obtain ⟨-, -, rfl⟩ := (ScriptNumber.decode_minimal_eq_ok_iff _ _ _).mp hread
    exact ⟨ScriptNumber.isTruthy_iff_value_ne_zero item, Machine.measures_of_reads ctx hread⟩

/-- A negative number is true for a loop, a branch and the verdict, and for both tests of numbers. A
zero with a sign and a byte too many is false, though no test of numbers accepts it. -/
theorem truth_is_nonzeroness_negative :
    let m : Machine := { policy := .ofEdition .y2026 }
    let item : Bytes := [0xff, 0x80]
    let reaching (op : Opcode) : State :=
      { program := [.operation op.byte], stack := [item, [7]], control := [.loop 0]
        meter := .start m.policy 100 }
    m.policy.Reads item (-255) ∧ isTruthy item = true ∧ isTruthy [0, 0x80] = false ∧
      (m.step {} (reaching (.flow .branch))).control = [.branch true, .loop 0] ∧
      (m.step {} (reaching (.loop .until))).control = [] ∧
      (m.step {} (reaching (.unary .isNonzero))).stack = [[1], [7]] ∧
      (m.step {} (reaching (.unary .not))).stack = [[], [7]] ∧
      ({ program := [], stack := [item] } : State).verdict .final = none := by
  intro m item reaching
  have hread : m.policy.Reads item (-255) := by
    unfold Policy.Reads
    decide +kernel
  obtain ⟨hbytes, htests⟩ := truth_is_nonzeroness
  obtain ⟨hdecides, hnumbers⟩ := htests m {} item
  obtain ⟨htruth, hmeasures⟩ := hnumbers (-255) hread
  have htrue : isTruthy item = true := htruth.mpr (by decide)
  rw [htrue] at hdecides hmeasures
  have hcount : ∀ op, m.MayCount (reaching op) := by
    intro op limit hlimit
    cases hlimit
  have hfalse : ¬ isTruthy [0, 0x80] = true := fun h ↦ (hbytes [0, 0x80]).1.mp h (by decide)
  have hbranch := hdecides.branch (reaching (.flow .branch)) [[7]] ⟨by decide, by decide, by decide⟩
    (hcount _) rfl
  have hloop := hdecides.closeLoop (reaching (.loop .until)) [[7]] 0 [] rfl
    ⟨by decide, by decide, by decide⟩ (hcount _) rfl rfl
  have hnonzero := hmeasures.isNonzero (reaching (.unary .isNonzero)) [[7]]
    ⟨by decide, by decide, by decide⟩ (hcount _) rfl
  have hnot := hmeasures.not (reaching (.unary .not)) [[7]] ⟨by decide, by decide, by decide⟩
    (hcount _) rfl
  rw [if_pos (by decide)] at hnot
  refine ⟨hread, htrue, Bool.eq_false_iff.mpr hfalse, ?_, ?_, ?_, ?_, ?_⟩
  · rw [hbranch.step_eq trivial (hbranch.fault_eq_none_iff.mp (by decide +kernel)).2]
  · rw [hloop.step_eq trivial (hloop.fault_eq_none_iff.mp (by decide +kernel)).2]
    rfl
  · rw [hnonzero.step_eq (by decide) (hnonzero.fault_eq_none_iff.mp (by decide +kernel)).2]
    rfl
  · rw [hnot.step_eq (by decide) (hnot.fault_eq_none_iff.mp (by decide +kernel)).2]
    rfl
  · exact hdecides.verdict _ rfl rfl rfl

end ScriptMachine
