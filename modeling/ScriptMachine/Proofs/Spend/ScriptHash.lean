import ScriptMachine.Proofs.Machine.Trace
import ScriptMachine.Proofs.Machine.Transition
import ScriptMachine.Spend

/-!
# Spends by the hash of a script

Locking bytecode that matches one of the two templates is three instructions: hash the last item
that the unlocking bytecode left, push a digest, and compare. A spend of such an output succeeds only
where that item has this digest and, evaluated as a script on the items below it, succeeds itself.
-/

namespace ScriptMachine

/-! ## Opcodes of the templates -/

namespace Action

variable {s t : State}

theorem stack_eq_of_pop {item : Bytes} (h : pop s = .ok item t) : s.stack = item :: t.stack := by
  unfold pop at h
  cases hs : s.stack with
  | nil => simp [hs] at h
  | cons top rest =>
    simp only [hs] at h
    cases h
    rfl

theorem stack_eq_of_push {p : Policy} {item : Bytes} (h : push p item s = .ok () t) :
    t.stack = item :: s.stack := by
  unfold push at h
  split at h
  · cases h
  · cases h
    rfl

theorem isTruthy_boolItem (b : Bool) : ScriptNumber.isTruthy (boolItem b) = b := by
  cases b <;> decide

end Action

/-- A digest takes the place of what it digests. -/
theorem HashOp.stack_eq_of_perform {m : Machine} {op : HashOp} {s t : State}
    (h : op.perform m s = .ok () t) :
    ∃ data rest, s.stack = data :: rest ∧ t.stack = m.digests.compute op data :: rest := by
  obtain ⟨data, u, hpop, hrest⟩ := Action.bind_eq_ok h
  obtain ⟨_, v, hmeter, hpush⟩ := Action.bind_eq_ok hrest
  cases hmeter
  have hstack := Action.stack_eq_of_push hpush
  exact ⟨data, u.stack, Action.stack_eq_of_pop hpop, hstack⟩

namespace Machine

variable {m : Machine} {ctx : Context} {index : Nat} {s t : State}

/-- The result of a comparison takes the place of the two items. -/
theorem stack_eq_of_perform_equal {executing : Bool}
    (h : m.perform ctx index executing .equal s = .ok () t) :
    ∃ a b rest, s.stack = b :: a :: rest ∧ t.stack = Action.boolItem (a == b) :: rest := by
  obtain ⟨same, w, hcompare, hpush⟩ := Action.bind_eq_ok h
  obtain ⟨b, u, hb, hrest⟩ := Action.bind_eq_ok hcompare
  obtain ⟨a, v, ha, hsame⟩ := Action.bind_eq_ok hrest
  cases hsame
  refine ⟨a, b, w.stack, ?_, Action.stack_eq_of_push hpush⟩
  rw [Action.stack_eq_of_pop hb, Action.stack_eq_of_pop ha]

theorem stack_eq_of_pushData {instruction : Instruction} {data : Bytes}
    (h : m.pushData true instruction data s = .ok () t) : t.stack = data :: s.stack := by
  unfold pushData at h
  split at h
  · cases h
  · rw [if_neg (by simp)] at h
    split at h
    · exact Action.stack_eq_of_push h
    · cases h

/-- An opcode that is called where code is taken is performed. -/
theorem perform_of_execute {byte : UInt8} {op : Opcode}
    (hop : Opcode.ofByte? m.policy.edition byte = some op)
    (h : m.execute ctx index true (.operation byte) s = .ok () t) :
    ∃ operations, m.perform ctx index true op { s with operations := operations } = .ok () t := by
  obtain ⟨_, u, hu, ht⟩ := Action.bind_eq_ok h
  obtain ⟨operations, rfl, -⟩ := countOperation_eq_ok hu
  cases hfails : failsAlways op with
  | some fault =>
    simp only [hop, hfails] at ht
    cases ht
  | none =>
    simp only [hop, hfails, Bool.true_or, if_true] at ht
    exact ⟨operations, ht⟩

end Machine

theorem Turn.advances {m : Machine} {index : Nat} {i : Instruction} {s t : State}
    (h : Turn m index i s t)
    (hi : ∀ op, i.called? m.policy.edition = some op → op.isConditional = false) :
    t.control = s.control ∧ t.pointer = s.pointer := by
  cases h with
  | data hop h => rw [h.frame]; exact ⟨rfl, rfl⟩
  | separator hop => exact ⟨rfl, rfl⟩
  | openBranch taken hop h => rcases hop with hop | hop <;> cases hi _ hop
  | turnBranch hop hs => cases hi _ hop
  | closeBranch hop hs hmarker => cases hi _ hop
  | openLoop hop => cases hi _ hop
  | leaveLoop hop hs h => cases hi _ hop
  | repeatLoop hop hs h => cases hi _ hop

/-! ## Evaluation of the templates -/

/-- Evaluation stands at an instruction outside all branches and loops, without a fault. -/
structure State.At (program : List Instruction) (index : Nat) (s : State) : Prop where
  program_eq : s.program = program
  pointer_eq : s.pointer = index
  control_eq : s.control = []
  fault_eq : s.fault = none

namespace State.At

variable {m : Machine} {ctx : Context} {program : List Instruction} {index : Nat} {s : State}
  {i : Instruction}

theorem next?_eq (h : s.At program index) : s.next? = program[index]? := by
  rw [next?, h.program_eq, h.pointer_eq]

theorem isHalted_eq (h : s.At program index) (hi : program[index]? = some i) :
    s.isHalted = false := by
  have hlt := (List.getElem?_eq_some_iff.mp hi).1
  simp [isHalted, h.fault_eq, h.program_eq, h.pointer_eq, hlt]

theorem isHalted_of_length_le (h : s.At program index) (hend : program.length ≤ index) :
    s.isHalted = true := by
  simp [isHalted, h.program_eq, h.pointer_eq, hend]

/-- A step that adds no fault carries out the instruction. -/
theorem execute_eq_ok (h : s.At program index) (hi : program[index]? = some i)
    (hfault : (m.step ctx s).fault = none) :
    ∃ t, m.execute ctx index true i (m.advance s) = .ok () t ∧
      m.step ctx s = { t with meter := t.meter.observeMemory t.memoryUsage } := by
  have hexecuting : s.isExecuting = true := by simp [isExecuting, h.control_eq]
  have hstep := Machine.execute_of_step (h.isHalted_eq hi) (h.next?_eq.trans hi) hfault
  rwa [hexecuting, h.pointer_eq] at hstep

/-- A step that adds no fault goes on to the next instruction, unless it is a branch or a loop. -/
theorem step (h : s.At program index) (hi : program[index]? = some i)
    (hcalled : ∀ op, i.called? m.policy.edition = some op → op.isConditional = false)
    (hfault : (m.step ctx s).fault = none) : (m.step ctx s).At program (index + 1) := by
  obtain ⟨t, ht, hstep⟩ := h.execute_eq_ok hi hfault
  obtain ⟨operations, -, hturn⟩ := Machine.turn_of_execute ht
  obtain ⟨hcontrol, hpointer⟩ := hturn.advances hcalled
  have hprogram : (m.step ctx s).program = program :=
    (m.transition_step ctx s).program_eq.trans h.program_eq
  refine ⟨hprogram, ?_, ?_, hfault⟩
  · rw [hstep]
    exact hpointer.trans (congrArg (· + 1) h.pointer_eq)
  · rw [hstep]
    exact hcontrol.trans h.control_eq

theorem step_hash {byte : UInt8} {op : HashOp} (h : s.At program index)
    (hi : program[index]? = some (.operation byte))
    (hbyte : Opcode.ofByte? m.policy.edition byte = some (.hash op))
    (hfault : (m.step ctx s).fault = none) :
    ∃ data rest, s.stack = data :: rest ∧
      (m.step ctx s).stack = m.digests.compute op data :: rest := by
  obtain ⟨t, ht, hstep⟩ := h.execute_eq_ok hi hfault
  obtain ⟨operations, hperform⟩ := Machine.perform_of_execute hbyte ht
  have hstack := HashOp.stack_eq_of_perform (m := m) hperform
  rw [hstep]
  exact hstack

theorem step_push {opcode : UInt8} {data : Bytes} (h : s.At program index)
    (hi : program[index]? = some (.push opcode data)) (hfault : (m.step ctx s).fault = none) :
    (m.step ctx s).stack = data :: s.stack := by
  obtain ⟨t, ht, hstep⟩ := h.execute_eq_ok hi hfault
  have hstack := Machine.stack_eq_of_pushData ht
  rw [hstep]
  exact hstack

theorem step_equal {byte : UInt8} (h : s.At program index)
    (hi : program[index]? = some (.operation byte))
    (hbyte : Opcode.ofByte? m.policy.edition byte = some .equal)
    (hfault : (m.step ctx s).fault = none) :
    ∃ a b rest, s.stack = b :: a :: rest ∧
      (m.step ctx s).stack = Action.boolItem (a == b) :: rest := by
  obtain ⟨t, ht, hstep⟩ := h.execute_eq_ok hi hfault
  obtain ⟨operations, hperform⟩ := Machine.perform_of_execute hbyte ht
  have hstack := Machine.stack_eq_of_perform_equal hperform
  rw [hstep]
  exact hstack

end State.At

/-- What the three instructions of a template leave where none of them fails. -/
theorem Machine.evaluate_template {m : Machine} {ctx : Context} {s : State} {op : HashOp}
    {byte length equal : UInt8} {digest : Bytes}
    (hs : s.At [.operation byte, .push length digest, .operation equal] 0)
    (hbyte : Opcode.ofByte? m.policy.edition byte = some (.hash op))
    (hequal : Opcode.ofByte? m.policy.edition equal = some .equal)
    (hfault : (m.evaluate ctx s).fault = none) :
    ∃ script below, s.stack = script :: below ∧
      (m.evaluate ctx s).stack =
        Action.boolItem (m.digests.compute op script == digest) :: below := by
  have hlength : 3 ≤ s.program.length + stepLimit := by
    rw [hs.program_eq]
    exact Nat.le_add_right 3 _
  have hfault₁ : (m.step ctx s).fault = none :=
    fault_iterate_of_evaluate (n := 1) (Nat.le_trans (by decide) hlength) hfault
  have hfault₂ : (m.step ctx (m.step ctx s)).fault = none :=
    fault_iterate_of_evaluate (n := 2) (Nat.le_trans (by decide) hlength) hfault
  have hfault₃ : (m.step ctx (m.step ctx (m.step ctx s))).fault = none :=
    fault_iterate_of_evaluate (n := 3) hlength hfault
  have hs₁ := hs.step rfl (by simp [Instruction.called?, hbyte, Opcode.isConditional]) hfault₁
  have hs₂ := hs₁.step rfl (by simp [Instruction.called?]) hfault₂
  have hs₃ := hs₂.step rfl (by simp [Instruction.called?, hequal, Opcode.isConditional]) hfault₃
  obtain ⟨script, below, hstack, hstack₁⟩ := hs.step_hash rfl hbyte hfault₁
  have hstack₂ := hs₁.step_push rfl hfault₂
  obtain ⟨a, b, rest, hpair, hstack₃⟩ := hs₂.step_equal rfl hequal hfault₃
  rw [hstack₂, hstack₁] at hpair
  cases hpair
  have hend : m.evaluate ctx s = m.step ctx (m.step ctx (m.step ctx s)) :=
    evaluate_eq_of_isHalted (n := 3) hlength (hs₃.isHalted_of_length_le (Nat.le_refl 3))
  rw [hend]
  exact ⟨script, below, hstack, hstack₃⟩

/-! ## Bytecode of the templates -/

theorem Instruction.parse_template {byte length equal : UInt8} {digest : Bytes}
    (hbyte : lengthWidth? byte = none) (hlength : lengthWidth? length = some 0)
    (hequal : lengthWidth? equal = none) (hdigest : digest.length = length.toNat) :
    parse (byte :: length :: (digest ++ [equal])) =
      [.operation byte, .push length digest, .operation equal] := by
  have hfirst : readNext byte (length :: (digest ++ [equal])) =
      (.operation byte, length :: (digest ++ [equal])) := by
    simp [readNext, hbyte]
  have hsecond : readNext length (digest ++ [equal]) = (.push length digest, [equal]) := by
    simp [readNext, hlength, readPayload, ← hdigest]
  have hthird : readNext equal [] = (.operation equal, []) := by simp [readNext, hequal]
  rw [parse, hfirst, parse, hsecond, parse, hthird, parse]

namespace Spend

/-- The digest that locking bytecode of a template asks for. -/
theorem eq_of_matchesTemplate {op : HashOp} {length : UInt8} {locking : Bytes}
    (h : matchesTemplate op length locking = true) :
    locking = (Opcode.hash op).byte :: length ::
        ((locking.drop 2).take length.toNat ++ [Opcode.equal.byte]) ∧
      ((locking.drop 2).take length.toNat).length = length.toNat := by
  simp only [matchesTemplate, Bool.and_eq_true, beq_iff_eq] at h
  obtain ⟨⟨hlength, hfirst⟩, hlast⟩ := h
  have hdrop : (locking.drop 2).length = length.toNat + 1 := by
    rw [List.length_drop, hlength]
    omega
  obtain ⟨last, hend⟩ : ∃ last, (locking.drop 2).drop length.toNat = [last] := by
    apply List.length_eq_one_iff.mp
    rw [List.length_drop, hdrop]
    omega
  have hsplit : locking = locking.take 2 ++ ((locking.drop 2).take length.toNat ++ [last]) := by
    rw [← hend, List.take_append_drop, List.take_append_drop]
  have hlast' : last = Opcode.equal.byte := by
    rw [hsplit] at hlast
    simpa using hlast
  refine ⟨?_, by rw [List.length_take, hdrop]; omega⟩
  rw [hfirst, hlast'] at hsplit
  exact hsplit

/-- Locking bytecode of a template that leaves a true item on top was given a script with the digest
that it asks for. -/
theorem digest_eq_of_evaluate {m : Machine} {ctx : Context} {op : HashOp} {length : UInt8}
    {locking : Bytes} {stack : List Bytes} {meter : Meter}
    (htemplate : matchesTemplate op length locking = true)
    (hbyte : Opcode.ofByte? m.policy.edition (Opcode.hash op).byte = some (.hash op))
    (hwidth : Instruction.lengthWidth? (Opcode.hash op).byte = none)
    (hlength : Instruction.lengthWidth? length = some 0)
    (hfault : (m.evaluate ctx (m.load locking stack meter)).fault = none)
    (htop : (m.evaluate ctx (m.load locking stack meter)).top?.any ScriptNumber.isTruthy = true) :
    ∃ script below, stack = script :: below ∧
      m.digests.compute op script = (locking.drop 2).take length.toNat := by
  obtain ⟨heq, hdigest⟩ := eq_of_matchesTemplate htemplate
  have hequal : Opcode.ofByte? m.policy.edition Opcode.equal.byte = some .equal := by
    cases m.policy.edition <;> decide
  have hprogram := Instruction.parse_template hwidth hlength
    (by decide : Instruction.lengthWidth? Opcode.equal.byte = none) hdigest
  rw [← heq] at hprogram
  have hfault₀ : (m.load locking stack meter).fault = none :=
    Machine.fault_eq_none_of_evaluate hfault
  obtain ⟨script, below, hstack, hresult⟩ :=
    Machine.evaluate_template ⟨hprogram, rfl, rfl, hfault₀⟩ hbyte hequal hfault
  refine ⟨script, below, hstack, ?_⟩
  rw [State.top?, hresult] at htop
  simpa [Action.isTruthy_boolItem] using htop

/-- A script has the digest that locking bytecode of one of the two templates asks for. -/
def Unlocks (d : DigestFamily) (locking script : Bytes) : Prop :=
  locking.length = 23 ∧ d.compute .hash160 script = (locking.drop 2).take 20 ∨
    locking.length = 35 ∧ d.compute .hash256 script = (locking.drop 2).take 32

theorem unlocks_of_evaluate {m : Machine} {ctx : Context} {locking : Bytes} {stack : List Bytes}
    {meter : Meter} (hlocking : isScriptHash locking = true)
    (hfault : (m.evaluate ctx (m.load locking stack meter)).fault = none)
    (htop : (m.evaluate ctx (m.load locking stack meter)).top?.any ScriptNumber.isTruthy = true) :
    ∃ script below, stack = script :: below ∧ Unlocks m.digests locking script := by
  have hsize : ∀ op length, matchesTemplate op length locking = true →
      locking.length = length.toNat + 3 := by
    intro op length h
    simp only [matchesTemplate, Bool.and_eq_true, beq_iff_eq] at h
    exact h.1.1
  rcases Bool.or_eq_true_iff.mp hlocking with h | h
  · obtain ⟨script, below, hstack, hdigest⟩ := digest_eq_of_evaluate h
      (by cases m.policy.edition <;> decide) (by decide) (by decide) hfault htop
    exact ⟨script, below, hstack, .inl ⟨hsize _ _ h, hdigest⟩⟩
  · obtain ⟨script, below, hstack, hdigest⟩ := digest_eq_of_evaluate h
      (by cases m.policy.edition <;> decide) (by decide) (by decide) hfault htop
    exact ⟨script, below, hstack, .inr ⟨hsize _ _ h, hdigest⟩⟩

end Spend

/-! ## Phases -/

theorem PhaseTrace.outcome?_eq_some_iff {t : PhaseTrace} {s : State} :
    t.outcome? = some s ↔ t.trace.getLast? = some s ∧ s.fault = none := by
  simp [outcome?, Option.filter_eq_some_iff]

namespace Spend

/-- Phases succeed where the last of them has an outcome. -/
theorem outcome?_of_verdictOf_eq_none (phases : List PhaseTrace) {t : PhaseTrace}
    (h : verdictOf (phases ++ [t]) = none) : ∃ s, t.outcome? = some s := by
  rw [verdictOf, List.getLast?_concat, Option.bind_some] at h
  cases hlast : t.trace.getLast? with
  | none => simp [hlast] at h
  | some s =>
    rw [hlast] at h
    exact ⟨s, PhaseTrace.outcome?_eq_some_iff.mpr ⟨hlast, h⟩⟩

variable {sp : Spend} {m : Machine} {ctx : Context} {s unlocked locked : State}

theorem eq_of_requireTruthyTop (h : (requireTruthyTop s).fault = none) :
    requireTruthyTop s = s ∧ s.fault = none ∧ s.top?.any ScriptNumber.isTruthy = true := by
  unfold requireTruthyTop at h ⊢
  split at h
  · cases h
  · rename_i hs
    rw [if_neg hs]
    exact ⟨rfl, h, by simpa [h] using hs⟩

/-- The outcome of a phase that is a plain evaluation is its last state, and the verdict is none. -/
theorem eq_complete_of_outcome {t : PhaseTrace} {completion : Completion} {first : State}
    (htrace : t.trace = m.debug ctx first completion) (h : t.outcome? = some s) :
    s = (m.evaluate ctx first).complete completion ∧
      (m.evaluate ctx first).verdict completion = none := by
  obtain ⟨hlast, hfault⟩ := PhaseTrace.outcome?_eq_some_iff.mp h
  rw [htrace, Machine.getLast?_debug] at hlast
  obtain rfl := Option.some.inj hlast
  exact ⟨rfl, hfault⟩

/-- A locking phase of a template that has an outcome is a plain evaluation, and it left a true item
on top. -/
theorem lockingPhase_outcome (hlocking : isScriptHash sp.locking = true)
    (h : (sp.lockingPhase m ctx unlocked).outcome? = some locked) :
    sp.lockingTrace m ctx unlocked =
        m.debug ctx (m.load sp.locking unlocked.stack unlocked.meter) .partway ∧
      (m.evaluate ctx (m.load sp.locking unlocked.stack unlocked.meter)).verdict .partway = none ∧
      (m.evaluate ctx (m.load sp.locking unlocked.stack unlocked.meter)).top?.any
        ScriptNumber.isTruthy = true := by
  have htrace : sp.lockingTrace m ctx unlocked =
      m.trace ctx (m.load sp.locking unlocked.stack unlocked.meter) ++
        [requireTruthyTop ((m.evaluate ctx
          (m.load sp.locking unlocked.stack unlocked.meter)).complete .partway)] := by
    simp [lockingTrace, hlocking, Machine.debug_eq]
  obtain ⟨hlast, hfault⟩ := PhaseTrace.outcome?_eq_some_iff.mp h
  rw [lockingPhase, htrace, List.getLast?_concat] at hlast
  obtain rfl := Option.some.inj hlast
  obtain ⟨heq, hverdict, htop⟩ := eq_of_requireTruthyTop hfault
  rw [htrace, heq, ← Machine.debug_eq]
  exact ⟨rfl, hverdict, htop⟩

/-- A spend that succeeds has come through its first two phases. -/
theorem exists_outcomes (hverdict : sp.verdict m ctx = none) :
    ∃ unlocked locked, (sp.unlockingPhase m ctx).outcome? = some unlocked ∧
      (sp.lockingPhase m ctx unlocked).outcome? = some locked := by
  cases hunlocked : (sp.unlockingPhase m ctx).outcome? with
  | none =>
    rw [verdict, debug, hunlocked] at hverdict
    obtain ⟨s, hs⟩ := outcome?_of_verdictOf_eq_none [] hverdict
    simp [hunlocked] at hs
  | some unlocked =>
    cases hlocked : (sp.lockingPhase m ctx unlocked).outcome? with
    | none =>
      simp only [verdict, debug, hunlocked, hlocked] at hverdict
      obtain ⟨s, hs⟩ := outcome?_of_verdictOf_eq_none [_] hverdict
      simp [hlocked] at hs
    | some locked => exact ⟨unlocked, locked, rfl, hlocked⟩

/-- The phases of a spend by the hash of a script that succeeds, unless the stack was empty. -/
theorem debug_of_verdict_eq_none (hlocking : isScriptHash sp.locking = true)
    (hverdict : sp.verdict m ctx = none) :
    ∃ unlocked locked, (sp.unlockingPhase m ctx).outcome? = some unlocked ∧
      (sp.lockingPhase m ctx unlocked).outcome? = some locked ∧
      ∀ script below, unlocked.stack = script :: below →
        sp.debug m ctx = [sp.unlockingPhase m ctx, sp.lockingPhase m ctx unlocked,
          redeemPhase m ctx script below locked.meter] := by
  obtain ⟨unlocked, locked, hunlocked, hlocked⟩ := exists_outcomes hverdict
  refine ⟨unlocked, locked, hunlocked, hlocked, ?_⟩
  intro script below hstack
  simp [debug, hunlocked, hlocked, hstack, hlocking]

/-- A spend by the hash of a script succeeds only in three phases without a fault. The last item
that the unlocking bytecode left has the digest that the locking bytecode asks for, and this script,
evaluated from its start on the items below with the meter of the locking phase, left one item,
which is true. -/
theorem scriptHash_sound (sp : Spend) (m : Machine) (ctx : Context)
    (hlocking : isScriptHash sp.locking = true) (hverdict : sp.verdict m ctx = none) :
    ∃ unlocking locking redeem : PhaseTrace, ∃ unlocked locked first final : State,
      ∃ script : Bytes, ∃ below : List Bytes,
        sp.debug m ctx = [unlocking, locking, redeem] ∧
        (unlocking.phase, locking.phase, redeem.phase) = (.unlocking, .locking, .redeem) ∧
        (unlocking.bytecode, locking.bytecode, redeem.bytecode) =
          (sp.unlocking, sp.locking, script) ∧
        (∀ t ∈ sp.debug m ctx, ∀ s ∈ t.trace, s.fault = none) ∧
        unlocking.trace.getLast? = some unlocked ∧ unlocked.stack = script :: below ∧
        Unlocks m.digests sp.locking script ∧
        locking.trace.getLast? = some locked ∧
        redeem.trace = m.debug ctx first .final ∧ redeem.trace.head? = some first ∧
        first = m.load script below locked.meter ∧
        first.program = Instruction.parse script ∧ first.pointer = 0 ∧
        first.stack = below ∧ first.alt = [] ∧ first.control = [] ∧
        first.separator = none ∧ first.operations = 0 ∧ first.meter = locked.meter ∧
        redeem.trace.getLast? = some final ∧ final.control = [] ∧
        (∃ top, final.stack = [top] ∧ ScriptNumber.isTruthy top = true) ∧
        (redeem.trace.length ≤ Machine.stepLimit → final.program.length ≤ final.pointer) := by
  obtain ⟨unlocked, locked, hunlocked, hlocked, hphases⟩ :=
    debug_of_verdict_eq_none hlocking hverdict
  obtain ⟨hlockingTrace, hlockingVerdict, htop⟩ := lockingPhase_outcome hlocking hlocked
  obtain ⟨script, below, hstack, hunlocks⟩ :=
    unlocks_of_evaluate hlocking (State.fault_eq_none_of_verdict hlockingVerdict) htop
  have hdebug := hphases script below hstack
  rw [verdict, hdebug] at hverdict
  obtain ⟨final, hfinal⟩ := outcome?_of_verdictOf_eq_none [_, _] hverdict
  obtain ⟨rfl, hredeemVerdict⟩ := eq_complete_of_outcome rfl hfinal
  obtain ⟨-, hunlockingVerdict⟩ := eq_complete_of_outcome rfl hunlocked
  have hcontrol := State.control_eq_nil_of_verdict hredeemVerdict
  have hresult := State.stack_eq_of_verdict_final hredeemVerdict
  refine ⟨_, _, _, unlocked, locked, m.load script below locked.meter, _, script, below, hdebug,
    rfl, rfl, ?_, (PhaseTrace.outcome?_eq_some_iff.mp hunlocked).1, hstack, hunlocks,
    (PhaseTrace.outcome?_eq_some_iff.mp hlocked).1, rfl, Machine.head?_debug, rfl, rfl, rfl, rfl,
    rfl, rfl, rfl, rfl, rfl, Machine.getLast?_debug, hcontrol, hresult, ?_⟩
  · intro t ht s hs
    rw [hdebug] at ht
    rcases List.mem_cons.mp ht with rfl | ht
    · exact Machine.fault_eq_none_of_mem_debug hunlockingVerdict hs
    rcases List.mem_cons.mp ht with rfl | ht
    · exact Machine.fault_eq_none_of_mem_debug hlockingVerdict (hlockingTrace ▸ hs)
    · obtain rfl := List.mem_singleton.mp ht
      exact Machine.fault_eq_none_of_mem_debug hredeemVerdict hs
  · exact Machine.length_le_pointer_evaluate (State.fault_eq_none_of_verdict hredeemVerdict)

/-- The script adds the two items below it and compares the sum with five. -/
theorem scriptHash_sound_add :
    let script : Bytes := [0x93, 0x55, 0x87]
    let sp : Spend :=
      ⟨[0x52, 0x53, 0x03] ++ script, [0xaa, 0x20] ++ Digest.hash256 script ++ [0x87]⟩
    isScriptHash sp.locking = true ∧ sp.verdict {} {} = none ∧
      (∀ t ∈ sp.debug {} {}, ∀ s ∈ t.trace, s.fault = none) ∧
      ∃ redeem ∈ sp.debug {} {}, redeem.phase = .redeem ∧
        Unlocks .standard sp.locking redeem.bytecode ∧
        (∃ first ∈ redeem.trace.head?, first.program = Instruction.parse redeem.bytecode ∧
          first.pointer = 0) ∧
        ∃ final ∈ redeem.trace.getLast?, final.control = [] ∧
          ∃ top, final.stack = [top] ∧ ScriptNumber.isTruthy top = true := by
  intro script sp
  have hlocking : isScriptHash sp.locking = true := by decide +kernel
  have hverdict : sp.verdict {} {} = none := by decide +kernel
  obtain ⟨_, _, redeem, _, _, first, final, script', _, hdebug, hphases, hbytecodes, hfaults, -, -,
    hunlocks, -, -, hfirst, -, hprogram, hpointer, -, -, -, -, -, -, hfinal, hcontrol, hresult,
    -⟩ := scriptHash_sound sp {} {} hlocking hverdict
  have hbytecode : redeem.bytecode = script' := congrArg (·.2.2) hbytecodes
  rw [← hbytecode] at hunlocks hprogram
  exact ⟨hlocking, hverdict, hfaults, redeem, by simp [hdebug], congrArg (·.2.2) hphases, hunlocks,
    ⟨first, hfirst, hprogram, hpointer⟩, final, hfinal, hcontrol, hresult⟩

end Spend

end ScriptMachine
