import ScriptMachine.Proofs.Machine.Effect
import ScriptMachine.Proofs.ScriptNumber.Encoding

/-!
# Exact arithmetic

Numbers have a bound on their encodings, and so on their magnitude. Opcodes that compute a number
either put its shortest encoding in the place of their operands, or fail because the number is
beyond the bound. Only sums, differences and products can be: what the other opcodes compute is
never larger than an operand.
-/

namespace ScriptMachine

open ScriptNumber (encode)

/-! ## The bound on numbers -/

/-- The least magnitude that numbers cannot have. -/
def Policy.numberBound (p : Policy) : Nat := 2 ^ (8 * p.limits.numberLength - 1)

/-- Opcodes on numbers read an item as this integer. -/
def Policy.Reads (p : Policy) (item : Bytes) (v : Int) : Prop :=
  ScriptNumber.decode item p.limits.numberLength true = .ok v

section Numbers

variable {p : Policy} {item : Bytes} {v : Int}

/-- The bound on lengths as a bound on values: the topmost bit is the sign. -/
theorem length_encode_le_iff (hnumber : 1 ≤ p.limits.numberLength) :
    (encode v).length ≤ p.limits.numberLength ↔ v.natAbs < p.numberBound := by
  have hdouble := ScriptNumber.two_mul_signPlace (Nat.ne_of_gt hnumber)
  rw [ScriptNumber.signPlace, Nat.one_shiftLeft] at hdouble
  rw [ScriptNumber.length_encode, ScriptNumber.width_le_iff, Policy.numberBound]
  omega

theorem Policy.reads_encode (hnumber : 1 ≤ p.limits.numberLength) (hv : v.natAbs < p.numberBound) :
    p.Reads (encode v) v := by
  apply (ScriptNumber.decode_minimal_eq_ok_iff _ _ _).mpr
  rw [ScriptNumber.value_encode]
  exact ⟨(length_encode_le_iff hnumber).mpr hv, rfl, rfl⟩

theorem Policy.Reads.natAbs_lt (h : p.Reads item v) (hnumber : 1 ≤ p.limits.numberLength) :
    v.natAbs < p.numberBound := by
  obtain ⟨hlength, hminimal, rfl⟩ := (ScriptNumber.decode_minimal_eq_ok_iff _ _ _).mp h
  apply (length_encode_le_iff hnumber).mp
  rwa [← hminimal]

end Numbers

/-! ## Operands and results -/

/-- The state after operands were taken off and charged for. -/
def State.without (p : Policy) (s : State) (rest : List Bytes) (work : Nat) : State :=
  { s with stack := rest, meter := s.meter.countArithmetic p work }

/-- The state with a number in the place of operands that were charged for. -/
def State.answered (p : Policy) (s : State) (rest : List Bytes) (work : Nat) (v : Int) : State :=
  { s with
    stack := encode v :: rest
    meter := (s.meter.countArithmetic p work).countPush p (encode v).length }

namespace Action

variable {p : Policy} {action : Action Unit} {s : State} {rest : List Bytes} {work : Nat}
  {item : Bytes} {v : Int}

/-- The action puts a number in the place of the operands above `rest`, in its shortest encoding, so
that what takes a number off a stack accepts it. -/
structure Replaces (p : Policy) (action : Action Unit) (s : State) (rest : List Bytes) (work : Nat)
    (v : Int) : Prop where
  eq : action s = .ok () (s.answered p rest work v)
  isMinimal : ScriptNumber.isMinimal (encode v) = true
  accepted : ∀ u below, u.stack = encode v :: below →
    popSized p u = .ok (v, (encode v).length) { u with stack := below }

/-- The action puts a number in the place of operands where the number is within the bound, and
overflows exactly where it is not. -/
structure Computes (p : Policy) (action : Action Unit) (s : State) (rest : List Bytes) (work : Nat)
    (v : Int) : Prop where
  replaces : v.natAbs < p.numberBound → Replaces p action s rest work v
  overflows : (∃ t, action s = .error (.numberOverflow p.limits.numberLength) t) ↔
    p.numberBound ≤ v.natAbs

theorem popSized_of_reads (h : p.Reads item v) (hs : s.stack = item :: rest) :
    popSized p s = .ok (v, item.length) { s with stack := rest } := by
  have hpop : pop s = .ok item { s with stack := rest } := by
    simp only [pop, hs]
  have hread : readNumber p.limits.numberLength item = pure v := by
    rw [readNumber, h]
  rw [popSized, bind_of_ok hpop, hread]
  rfl

theorem popNumber_of_reads (h : p.Reads item v) (hs : s.stack = item :: rest) :
    popNumber p s = .ok v { s with stack := rest } := by
  rw [popNumber, bind_of_ok (popSized_of_reads h hs)]
  rfl

/-- A number that was taken off a stack was read from the item on top. -/
theorem reads_of_popNumber_eq_ok {t : State} (h : popNumber p s = .ok v t)
    (hs : s.stack = item :: rest) : p.Reads item v ∧ t = { s with stack := rest } := by
  obtain ⟨_, _, hsized, hv⟩ := bind_eq_ok h
  obtain ⟨_, _, hpop, hnumber⟩ := bind_eq_ok hsized
  obtain ⟨_, _, hread, hpair⟩ := bind_eq_ok hnumber
  rw [pop, hs] at hpop
  cases hpop
  cases hdecode : ScriptNumber.decode item p.limits.numberLength true with
  | error fault =>
    rw [readNumber, hdecode] at hread
    cases hread
  | ok number =>
    rw [readNumber, hdecode] at hread
    cases hread
    cases hpair
    cases hv
    exact ⟨hdecode, rfl⟩

theorem pushNumber_of_lt (hnumber : 1 ≤ p.limits.numberLength)
    (hitem : p.limits.numberLength ≤ p.limits.itemLength) (hv : v.natAbs < p.numberBound)
    (s : State) :
    pushNumber p v s = .ok () { s with
      stack := encode v :: s.stack
      meter := s.meter.countPush p (encode v).length } := by
  have hlength := (length_encode_le_iff hnumber).mpr hv
  have hpush : ¬ p.limits.itemLength < (encode v).length :=
    Nat.not_lt.mpr (hlength.trans hitem)
  simp only [pushNumber, if_neg (Nat.not_lt.mpr hlength), push, if_neg hpush]

theorem pushNumber_of_le (hnumber : 1 ≤ p.limits.numberLength) (hv : p.numberBound ≤ v.natAbs)
    (s : State) : pushNumber p v s = .error (.numberOverflow p.limits.numberLength) s := by
  have hlength : p.limits.numberLength < (encode v).length := by
    rw [← Nat.not_le, length_encode_le_iff hnumber]
    exact Nat.not_lt.mpr hv
  simp only [pushNumber, if_pos hlength]
  rfl

theorem replaces_of_lt (hnumber : 1 ≤ p.limits.numberLength)
    (hitem : p.limits.numberLength ≤ p.limits.itemLength)
    (haction : action s = pushNumber p v (s.without p rest work)) (hv : v.natAbs < p.numberBound) :
    Replaces p action s rest work v where
  eq := by
    rw [haction, pushNumber_of_lt hnumber hitem hv]
    rfl
  isMinimal := ScriptNumber.isMinimal_encode v
  accepted := fun _ _ hu ↦ popSized_of_reads (p.reads_encode hnumber hv) hu

theorem computes_of_pushNumber (hnumber : 1 ≤ p.limits.numberLength)
    (hitem : p.limits.numberLength ≤ p.limits.itemLength)
    (haction : action s = pushNumber p v (s.without p rest work)) :
    Computes p action s rest work v where
  replaces := replaces_of_lt hnumber hitem haction
  overflows := by
    constructor
    · rintro ⟨t, ht⟩
      by_contra hv
      rw [haction, pushNumber_of_lt hnumber hitem (Nat.lt_of_not_le hv)] at ht
      cases ht
    · intro hv
      exact ⟨_, haction.trans (pushNumber_of_le hnumber hv _)⟩

end Action

/-! ## Opcodes -/

section Opcodes

open ScriptMachine.Action

variable {p : Policy} {s : State} {rest : List Bytes} {x y : Bytes} {a b : Int}

theorem UnaryOp.perform_of_reads (op : UnaryOp) (hs : s.stack = x :: rest) (ha : p.Reads x a) :
    op.perform p s = pushNumber p (op.compute a) (s.without p rest x.length) := by
  rw [UnaryOp.perform, bind_of_ok (popSized_of_reads ha hs)]
  rfl

theorem BinaryOp.perform_of_reads {op : BinaryOp} (hdivisor : op.divides = true → b ≠ 0)
    (hverify : op ≠ .equalVerify) (hs : s.stack = y :: x :: rest) (hb : p.Reads y b)
    (ha : p.Reads x a) :
    op.perform p s =
      pushNumber p (op.compute a b) (s.without p rest (op.workload x.length y.length)) := by
  have hzero : ¬ (op.divides && b == 0) = true := by
    simpa using hdivisor
  have hfirst := popSized_of_reads hb hs
  have hsecond : popSized p { s with stack := x :: rest } =
      .ok (a, x.length) { s with stack := rest } := popSized_of_reads ha rfl
  rw [BinaryOp.perform, bind_of_ok hfirst]
  dsimp only
  rw [bind_of_ok hsecond]
  dsimp only
  rw [if_neg hzero, if_neg hverify]
  rfl

/-- Quotients and remainders are no larger than what is divided. -/
theorem BinaryOp.natAbs_compute_le (op : BinaryOp) (hop : op.divides = true) (a b : Int) :
    (op.compute a b).natAbs ≤ a.natAbs := by
  cases op with
  | div => exact Int.natAbs_tdiv_le_natAbs a b
  | mod =>
    change (a.tmod b).natAbs ≤ a.natAbs
    rw [Int.natAbs_tmod]
    exact Nat.mod_le _ _
  | _ => cases hop

theorem sign_tmod (a b : Int) : a.tmod b = 0 ∨ (a.tmod b).sign = a.sign := by
  rcases Int.lt_trichotomy (a.tmod b) 0 with hneg | hzero | hpos
  · have ha : a < 0 := by
      by_contra hnonneg
      have := Int.tmod_nonneg b (Int.not_lt.mp hnonneg)
      omega
    exact .inr (by rw [Int.sign_eq_neg_one_of_neg hneg, Int.sign_eq_neg_one_of_neg ha])
  · exact .inl hzero
  · have ha : 0 < a := by
      by_contra hnonpos
      have := Int.tmod_nonneg b (Int.neg_nonneg_of_nonpos (Int.not_lt.mp hnonpos))
      rw [Int.neg_tmod] at this
      omega
    exact .inr (by rw [Int.sign_eq_one_of_pos hpos, Int.sign_eq_one_of_pos ha])

/-- Sums, differences and products, also with one, are exact, and overflow exactly where their
magnitude has no room beside a sign bit. Negation, magnitude, minimum, maximum, and quotient and
remainder of a divisor other than zero never overflow. Quotients go toward zero, so a remainder has
the sign of what is divided. -/
theorem arithmetic_is_exact (p : Policy) (hnumber : 1 ≤ p.limits.numberLength)
    (hitem : p.limits.numberLength ≤ p.limits.itemLength) (s : State) (rest : List Bytes) :
    (∀ x a, s.stack = x :: rest → p.Reads x a →
      Computes p (UnaryOp.increment.perform p) s rest x.length (a + 1) ∧
      Computes p (UnaryOp.decrement.perform p) s rest x.length (a - 1) ∧
      Replaces p (UnaryOp.negate.perform p) s rest x.length (-a) ∧
      Replaces p (UnaryOp.abs.perform p) s rest x.length |a|) ∧
    ∀ x y a b, s.stack = y :: x :: rest → p.Reads y b → p.Reads x a →
      let longest := max x.length y.length
      let product := Amount.mul x.length y.length
      Computes p (BinaryOp.add.perform p) s rest longest (a + b) ∧
      Computes p (BinaryOp.sub.perform p) s rest longest (a - b) ∧
      Computes p (BinaryOp.mul.perform p) s rest product (a * b) ∧
      Replaces p (BinaryOp.min.perform p) s rest longest (min a b) ∧
      Replaces p (BinaryOp.max.perform p) s rest longest (max a b) ∧
      (b ≠ 0 → ∃ q r : Int, a = q * b + r ∧ |r| < |b| ∧ (r = 0 ∨ r.sign = a.sign) ∧
        Replaces p (BinaryOp.div.perform p) s rest product q ∧
        Replaces p (BinaryOp.mod.perform p) s rest product r) := by
  constructor
  · intro x a hs ha
    have hbound := ha.natAbs_lt hnumber
    have hcompute : ∀ op : UnaryOp, Computes p (op.perform p) s rest x.length (op.compute a) :=
      fun op ↦ computes_of_pushNumber hnumber hitem (op.perform_of_reads hs ha)
    have habs : |a| = a.natAbs := Int.abs_eq_natAbs a
    refine ⟨hcompute .increment, hcompute .decrement, (hcompute .negate).replaces ?_, ?_⟩
    · exact a.natAbs_neg.trans_lt hbound
    · rw [habs]
      exact (hcompute .abs).replaces hbound
  · intro x y a b hs hb ha longest product
    have haBound := ha.natAbs_lt hnumber
    have hbBound := hb.natAbs_lt hnumber
    have hcompute : ∀ op : BinaryOp, (op.divides = true → b ≠ 0) → op ≠ .equalVerify →
        Computes p (op.perform p) s rest (op.workload x.length y.length) (op.compute a b) :=
      fun op hdivisor hverify ↦ computes_of_pushNumber hnumber hitem
        (BinaryOp.perform_of_reads hdivisor hverify hs hb ha)
    have hmin : BinaryOp.min.compute a b = min a b := (min_def a b).symm
    have hmax : BinaryOp.max.compute a b = max a b := (max_def a b).symm
    refine ⟨hcompute .add (by simp [BinaryOp.divides]) (by simp),
      hcompute .sub (by simp [BinaryOp.divides]) (by simp),
      hcompute .mul (by simp [BinaryOp.divides]) (by simp), ?_, ?_, fun hzero ↦ ?_⟩
    · rw [← hmin]
      refine (hcompute .min (by simp [BinaryOp.divides]) (by simp)).replaces ?_
      rw [hmin]
      omega
    · rw [← hmax]
      refine (hcompute .max (by simp [BinaryOp.divides]) (by simp)).replaces ?_
      rw [hmax]
      omega
    · have hquotient := (BinaryOp.div.natAbs_compute_le rfl a b).trans_lt haBound
      have hremainder := (BinaryOp.mod.natAbs_compute_le rfl a b).trans_lt haBound
      refine ⟨a.tdiv b, a.tmod b, (Int.tdiv_mul_add_tmod a b).symm, ?_, sign_tmod a b,
        (hcompute .div (fun _ ↦ hzero) (by simp)).replaces hquotient,
        (hcompute .mod (fun _ ↦ hzero) (by simp)).replaces hremainder⟩
      rw [Int.abs_eq_natAbs, Int.abs_eq_natAbs, Int.natAbs_tmod]
      exact_mod_cast Nat.mod_lt _ (Int.natAbs_pos.mpr hzero)

/-- The largest number of eight bytes cannot be added to, but any number can be divided. -/
theorem arithmetic_is_exact_largest :
    let p := Policy.ofEdition .y2023
    let largest : Bytes := [0xff, 0xff, 0xff, 0xff, 0xff, 0xff, 0xff, 0x7f]
    let s : State := { program := [], stack := [[0x82], largest] }
    p.Reads largest 9223372036854775807 ∧ p.Reads [0x82] (-2) ∧
      (∃ t, BinaryOp.sub.perform p s = .error (.numberOverflow 8) t) ∧
      Replaces p (BinaryOp.add.perform p) s [] 8 9223372036854775805 ∧
      ∃ q r : Int, 9223372036854775807 = q * -2 + r ∧ |r| < 2 ∧ (r = 0 ∨ r.sign = 1) ∧
        Replaces p (BinaryOp.div.perform p) s [] 8 q := by
  intro p largest s
  have hlargest : p.Reads largest 9223372036854775807 := by
    unfold Policy.Reads
    decide +kernel
  have hdivisor : p.Reads [0x82] (-2) := by
    unfold Policy.Reads
    decide +kernel
  obtain ⟨hadd, hsub, -, -, -, hdivide⟩ :=
    (arithmetic_is_exact p (by decide) (by decide) s []).2 largest [0x82] _ _ rfl hdivisor hlargest
  obtain ⟨q, r, hsplit, hr, hsign, hdiv, -⟩ := hdivide (by decide)
  exact ⟨hlargest, hdivisor, hsub.overflows.mpr (by decide), hadd.replaces (by decide), q, r,
    hsplit, hr, hsign, hdiv⟩

end Opcodes

end ScriptMachine
