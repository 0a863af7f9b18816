import ScriptMachine.Proofs.Machine.Trace
import ScriptMachine.Proofs.Machine.Transition

/-!
# Evaluations under laxer rules

Two machines are run side by side on states that differ in their meters only. As long as the first
one does not fail, the second one, whose rules are laxer, does the same to the data: what the meters
count is compared with budgets, but never read for anything else.
-/

namespace ScriptMachine

/-- The second policy allows what the first one does, where `R` relates the meters. -/
structure Policy.Relaxes (R : Meter → Meter → Prop) (p p' : Policy) : Prop where
  limits_eq : p'.limits = p.limits
  standard : p'.standard = true → p.standard = true
  /-- Opcodes that may be called keep their meaning. -/
  opcode : ∀ byte op, Opcode.ofByte? p.edition byte = some op → Machine.failsAlways op = none →
    Opcode.ofByte? p'.edition byte = some op
  unknown : ∀ byte, Opcode.ofByte? p.edition byte = none → Opcode.ofByte? p'.edition byte = none
  start : ∀ density, R (.start p density) (.start p' density)
  instruction : ∀ {m m'}, R m m' → R (m.countInstruction p) (m'.countInstruction p')
  push : ∀ {m m'} bytes, R m m' → R (m.countPush p bytes) (m'.countPush p' bytes)
  arithmetic : ∀ {m m'} bytes, R m m' → R (m.countArithmetic p bytes) (m'.countArithmetic p' bytes)
  hash : ∀ {m m'} iterations, R m m' → R (m.countHash p iterations) (m'.countHash p' iterations)
  signatureChecks : ∀ {m m'} count, R m m' →
    R (m.countSignatureChecks p count) (m'.countSignatureChecks p' count)
  repeated : ∀ {m m'} bytes, R m m' → R (m.countRepeated p bytes) (m'.countRepeated p' bytes)
  memory : ∀ {m m'} bytes, R m m' → R (m.observeMemory bytes) (m'.observeMemory bytes)
  budget : ∀ {m m'}, R m m' → m.WithinBudget → m'.WithinBudget

/-- The second machine differs by a policy that relaxes that of the first. -/
structure Machine.Relaxes (R : Meter → Meter → Prop) (m m' : Machine) : Prop
    extends Policy.Relaxes R m.policy m'.policy where
  checker_eq : m'.checker = m.checker
  digests_eq : m'.digests = m.digests

/-- The states are the same but for their meters, which are related. -/
def Agree (R : Meter → Meter → Prop) (s s' : State) : Prop :=
  ∃ meter, R s.meter meter ∧ s' = { s with meter := meter }

/-- Where the first action succeeds, so does the second, with the same result, on a state that
agrees. -/
def Follows {α : Type} (R : Meter → Meter → Prop) (x x' : Action α) : Prop :=
  ∀ s s', Agree R s s' → ∀ a t, x s = .ok a t → ∃ t', x' s' = .ok a t' ∧ Agree R t t'

variable {R : Meter → Meter → Prop} {p p' : Policy}

namespace Follows

variable {α β : Type}

theorem pure (a : α) : Follows R (Pure.pure a : Action α) (Pure.pure a) := by
  intro s s' hs b t h
  cases h
  exact ⟨s', rfl, hs⟩

theorem throw (fault : Fault) (x' : Action α) : Follows R (MonadExcept.throw fault) x' := by
  intro s s' hs b t h
  cases h

theorem bind {x x' : Action α} {f f' : α → Action β} (hx : Follows R x x')
    (hf : ∀ a, Follows R (f a) (f' a)) : Follows R (x >>= f) (x' >>= f') := by
  intro s s' hs b u h
  obtain ⟨a, t, ht, hu⟩ := Action.bind_eq_ok h
  obtain ⟨t', ht', hagree⟩ := hx s s' hs a t ht
  obtain ⟨u', hu', hagree'⟩ := hf a t t' hagree b u hu
  refine ⟨u', ?_, hagree'⟩
  simp only [Bind.bind, EStateM.bind, ht']
  exact hu'

/-- An action that goes on with the state must not use its meter. -/
theorem get {f f' : State → Action α}
    (hf : ∀ s meter, Follows R (f s) (f' { s with meter := meter })) :
    Follows R (MonadState.get >>= f) (MonadState.get >>= f') := by
  rintro s _ ⟨meter, hmeter, rfl⟩ a t h
  exact hf s meter s _ ⟨meter, hmeter, rfl⟩ a t h

theorem ite {c : Prop} [Decidable c] {x x' y y' : Action α} (hx : Follows R x x')
    (hy : Follows R y y') : Follows R (if c then x else y) (if c then x' else y') := by
  by_cases hc : c
  · simpa only [if_pos hc] using hx
  · simpa only [if_neg hc] using hy

/-- A check that fails before the rest of an action. -/
theorem guard {c : Prop} [Decidable c] {fault : Fault} {f f' : β → Action α} {x x' : Action α}
    (hx : Follows R x x') :
    Follows R (if c then MonadExcept.throw fault >>= f else x)
      (if c then MonadExcept.throw fault >>= f' else x') := by
  apply ite _ hx
  intro s s' hs b t h
  obtain ⟨a, u, hu, -⟩ := Action.bind_eq_ok h
  cases hu

/-! ## Elementary actions -/

theorem modifyState {f f' : State → State}
    (hf : ∀ s meter, R s.meter meter → Agree R (f s) (f' { s with meter := meter })) :
    Follows R (modify f) (modify f') := by
  rintro s _ ⟨meter, hmeter, rfl⟩ a t h
  cases h
  exact ⟨_, rfl, hf s meter hmeter⟩

theorem meter {f f' : Meter → Meter} (hf : ∀ {m m'}, R m m' → R (f m) (f' m')) :
    Follows R (Action.meter f) (Action.meter f') := by
  rintro s _ ⟨meter, hmeter, rfl⟩ a t h
  cases h
  exact ⟨_, rfl, f' meter, hf hmeter, rfl⟩

theorem pop : Follows R Action.pop Action.pop := by
  rintro s _ ⟨meter, hmeter, rfl⟩ a t h
  unfold Action.pop at *
  cases hs : s.stack with
  | nil => simp [hs] at h
  | cons top rest =>
    simp only [hs] at h ⊢
    cases h
    exact ⟨_, rfl, meter, hmeter, rfl⟩

theorem popAlt : Follows R Action.popAlt Action.popAlt := by
  rintro s _ ⟨meter, hmeter, rfl⟩ a t h
  unfold Action.popAlt at *
  cases hs : s.alt with
  | nil => simp [hs] at h
  | cons top rest =>
    simp only [hs] at h ⊢
    cases h
    exact ⟨_, rfl, meter, hmeter, rfl⟩

theorem popMany (count : Nat) : Follows R (Action.popMany count) (Action.popMany count) := by
  rintro s _ ⟨meter, hmeter, rfl⟩ a t h
  unfold Action.popMany at *
  split at h
  · cases h
  · rename_i hs
    cases h
    exact ⟨_, if_neg hs, meter, hmeter, rfl⟩

theorem inspect (f : List Bytes → Option α) : Follows R (Action.inspect f) (Action.inspect f) := by
  rintro s _ ⟨meter, hmeter, rfl⟩ a t h
  unfold Action.inspect at *
  cases hs : f s.stack with
  | none => simp [hs] at h
  | some b =>
    simp only [hs] at h ⊢
    cases h
    exact ⟨_, rfl, meter, hmeter, rfl⟩

theorem rearrange (f : List Bytes → Option (List Bytes)) :
    Follows R (Action.rearrange f) (Action.rearrange f) := by
  rintro s _ ⟨meter, hmeter, rfl⟩ a t h
  unfold Action.rearrange at *
  cases hs : f s.stack with
  | none => simp [hs] at h
  | some stack =>
    simp only [hs] at h ⊢
    cases h
    exact ⟨_, rfl, meter, hmeter, rfl⟩

theorem pushAlt (item : Bytes) : Follows R (Action.pushAlt item) (Action.pushAlt item) := by
  rintro s _ ⟨meter, hmeter, rfl⟩ a t h
  cases h
  exact ⟨_, rfl, meter, hmeter, rfl⟩

theorem readNumber (limit : Nat) (item : Bytes) :
    Follows R (Action.readNumber limit item) (Action.readNumber limit item) := by
  unfold Action.readNumber
  split
  · exact pure _
  · exact throw _ _

theorem require (condition : Bool) (op : Opcode) :
    Follows R (Action.require condition op) (Action.require condition op) :=
  ite (pure _) (throw _ _)

section Policy

variable (h : p.Relaxes R p')
include h

theorem push (item : Bytes) : Follows R (Action.push p item) (Action.push p' item) := by
  rintro s _ ⟨meter, hmeter, rfl⟩ a t ht
  unfold Action.push at *
  rw [h.limits_eq]
  split at ht
  · cases ht
  · rename_i hs
    cases ht
    exact ⟨_, if_neg hs, _, h.push _ hmeter, rfl⟩

theorem pushBool (b : Bool) : Follows R (Action.pushBool p b) (Action.pushBool p' b) := push h _

theorem pushNumber (v : Int) : Follows R (Action.pushNumber p v) (Action.pushNumber p' v) := by
  unfold Action.pushNumber
  rw [h.limits_eq]
  exact ite (throw _ _) (push h _)

theorem popSized : Follows R (Action.popSized p) (Action.popSized p') := by
  unfold Action.popSized
  rw [h.limits_eq]
  exact bind pop fun _ ↦ bind (readNumber _ _) fun _ ↦ pure _

theorem popNumber : Follows R (Action.popNumber p) (Action.popNumber p') :=
  bind (popSized h) fun _ ↦ pure _

end Policy

end Follows

/-! ## Opcodes -/

section Opcodes

variable (h : p.Relaxes R p')
include h

theorem Follows.popStackIndex : Follows R (Action.popStackIndex p) (Action.popStackIndex p') :=
  .bind (.popNumber h) fun _ ↦ .get fun _ _ ↦ .ite (.pure _) (.throw _ _)

theorem StackOp.follows (op : StackOp) : Follows R (op.perform p) (op.perform p') := by
  unfold StackOp.perform
  cases op with
  | toAlt => exact .bind .pop fun _ ↦ .pushAlt _
  | fromAlt => exact .bind .popAlt fun _ ↦ .push h _
  | drop2 | rot2 | swap2 | nip | rot | swap => exact .rearrange _
  | dup2 | over2 => exact .bind (.inspect _) fun _ ↦ .bind (.push h _) fun _ ↦ .push h _
  | dup3 =>
    exact .bind (.inspect _) fun _ ↦ .bind (.push h _) fun _ ↦ .bind (.push h _) fun _ ↦ .push h _
  | ifDup => exact .bind (.inspect _) fun _ ↦ .ite (.push h _) (.pure _)
  | depth => exact .get fun _ _ ↦ .pushNumber h _
  | drop => exact .bind .pop fun _ ↦ .pure _
  | dup | «over» => exact .bind (.inspect _) fun _ ↦ .push h _
  | pick => exact .bind (.popStackIndex h) fun _ ↦ .bind (.inspect _) fun _ ↦ .push h _
  | roll => exact .bind (.popStackIndex h) fun _ ↦ .rearrange _
  | tuck =>
    exact .bind (.inspect _) fun _ ↦ .bind (.meter (h.push _)) fun _ ↦ .rearrange _

theorem SpliceOp.follows (op : SpliceOp) : Follows R (op.perform p) (op.perform p') := by
  unfold SpliceOp.perform
  rw [h.limits_eq]
  cases op with
  | cat => exact .bind .pop fun _ ↦ .bind .pop fun _ ↦ .push h _
  | split =>
    exact .bind (.popNumber h) fun _ ↦ .bind .pop fun _ ↦
      .ite (.bind (.push h _) fun _ ↦ .push h _) (.throw _ _)
  | numToBin =>
    refine .bind (.popNumber h) fun size ↦ .bind .pop fun item ↦ .guard (.guard ?_)
    split
    · exact .push h _
    · exact .throw _ _
  | binToNum => exact .bind .pop fun _ ↦ .guard (.push h _)
  | size => exact .bind (.inspect _) fun _ ↦ .pushNumber h _
  | reverse => exact .bind .pop fun _ ↦ .push h _

theorem BitwiseOp.follows (op : BitwiseOp) : Follows R (op.perform p) (op.perform p') :=
  .bind .pop fun _ ↦ .bind .pop fun _ ↦ .guard (.push h _)

theorem UnaryOp.follows (op : UnaryOp) : Follows R (op.perform p) (op.perform p') :=
  .bind (.popSized h) fun _ ↦ .bind (.meter (h.arithmetic _)) fun _ ↦ .pushNumber h _

theorem BinaryOp.follows (op : BinaryOp) : Follows R (op.perform p) (op.perform p') :=
  .bind (.popSized h) fun _ ↦ .bind (.popSized h) fun _ ↦ .bind (.meter (h.arithmetic _)) fun _ ↦
    .ite (.throw _ _) (.ite (.require _ _) (.pushNumber h _))

theorem Follows.within : Follows R (Action.within p) (Action.within p') :=
  .bind (.popSized h) fun _ ↦ .bind (.popSized h) fun _ ↦ .bind (.popSized h) fun _ ↦
    .bind (.meter (h.arithmetic _)) fun _ ↦ .pushBool h _

theorem Follows.popCount (limit : Nat) :
    Follows R (Action.popCount p limit) (Action.popCount p' limit) :=
  .bind (.popNumber h) fun _ ↦ .ite (.pure _) (.throw _ _)

theorem Follows.popElement {α : Type} (elements : List α) :
    Follows R (Action.popElement p elements) (Action.popElement p' elements) := by
  refine .bind (.popNumber h) fun _ ↦ .ite (.throw _ _) ?_
  split
  · exact .pure _
  · exact .throw _ _

theorem Follows.popSource (ctx : Context) :
    Follows R (Action.popSource p ctx) (Action.popSource p' ctx) := by
  refine .bind (.popElement h _) fun _ ↦ ?_
  split
  · exact .pure _
  · exact .throw _ _

end Opcodes

theorem Follows.compareItems : Follows R Action.compareItems Action.compareItems :=
  .bind .pop fun _ ↦ .bind .pop fun _ ↦ .pure _

theorem Follows.verifyTop (op : Opcode) : Follows R (Action.verifyTop op) (Action.verifyTop op) :=
  .bind .pop fun _ ↦ .require _ _

theorem Follows.peekLockTime : Follows R Action.peekLockTime Action.peekLockTime :=
  .bind (.inspect _) fun _ ↦ .bind (.readNumber _ _) fun _ ↦ .guard (.pure _)

theorem Follows.currentInput (ctx : Context) :
    Follows R (Action.currentInput ctx) (Action.currentInput ctx) := by
  unfold Action.currentInput
  split
  · exact .pure _
  · exact .throw _ _

theorem LocktimeOp.follows (ctx : Context) (op : LocktimeOp) :
    Follows R (op.perform ctx) (op.perform ctx) := by
  cases op with
  | lockTime =>
    exact .bind .peekLockTime fun _ ↦ .bind (.currentInput ctx) fun _ ↦ .guard <| .guard <|
      .ite (.throw _ _) (.pure _)
  | sequence =>
    exact .bind .peekLockTime fun _ ↦ .ite (.pure _) <| .bind (.currentInput ctx) fun _ ↦
      .guard <| .guard <| .ite (.throw _ _) (.pure _)

theorem IntrospectionOp.follows (h : p.Relaxes R p') (ctx : Context) (op : IntrospectionOp) :
    Follows R (op.perform p ctx) (op.perform p' ctx) := by
  refine .bind (.currentInput ctx) fun _ ↦ ?_
  unfold IntrospectionOp.read
  cases op with
  | inputIndex | version | inputCount | outputCount | lockTime => exact .pushNumber h _
  | activeBytecode => exact .get fun _ _ ↦ .push h _
  | utxoValue => exact .bind (.popSource h ctx) fun _ ↦ .pushNumber h _
  | utxoBytecode => exact .bind (.popSource h ctx) fun _ ↦ .push h _
  | outpointHash | inputBytecode | outputBytecode =>
    exact .bind (.popElement h _) fun _ ↦ .push h _
  | outpointIndex | sequenceNumber | outputValue =>
    exact .bind (.popElement h _) fun _ ↦ .pushNumber h _

/-! ## Digests and signatures -/

section Signatures

variable {m m' : Machine} {ctx : Context} (h : m.Relaxes R m')
include h

theorem HashOp.follows (op : HashOp) : Follows R (op.perform m) (op.perform m') := by
  unfold HashOp.perform
  rw [h.digests_eq]
  exact .bind .pop fun _ ↦ .bind (.meter (h.hash _)) fun _ ↦ .push h.toRelaxes _

theorem Follows.verifySignature (signature key : Bytes) :
    Follows R (Action.verifySignature m ctx signature key)
      (Action.verifySignature m' ctx signature key) := by
  unfold Action.verifySignature Machine.signingMessage
  rw [h.checker_eq, h.digests_eq]
  split
  · exact .throw _ _
  · refine .guard (.get fun s meter ↦ ?_)
    have hactive : ({ s with meter := meter } : State).activeBytecode = s.activeBytecode := rfl
    rw [hactive]
    split
    · exact .throw _ _
    · exact .bind (.meter (h.hash _)) fun _ ↦ .pure _

theorem Follows.checkTransaction :
    Follows R (Action.checkTransaction m ctx) (Action.checkTransaction m' ctx) :=
  .bind .pop fun _ ↦ .bind .pop fun _ ↦ .ite (.pure _) <|
    .bind (.verifySignature h _ _) fun _ ↦ .bind (.meter (h.signatureChecks _)) fun _ ↦
      .ite (.pure _) (.throw _ _)

theorem Follows.checkData : Follows R (Action.checkData m) (Action.checkData m') := by
  unfold Action.checkData
  rw [h.checker_eq, h.digests_eq]
  exact .bind .pop fun _ ↦ .bind .pop fun _ ↦ .bind .pop fun _ ↦ .ite (.pure _) <| .guard <|
    .guard <| .bind (.meter (h.hash _)) fun _ ↦ .bind (.meter (h.signatureChecks _)) fun _ ↦
      .ite (.pure _) (.throw _ _)

theorem Follows.matchSignatures (signatures keys : List Bytes) :
    Follows R (Action.matchSignatures m ctx signatures keys)
      (Action.matchSignatures m' ctx signatures keys) := by
  induction keys generalizing signatures with
  | nil =>
    cases signatures with
    | nil => exact .pure _
    | cons signature signatures => exact .pure _
  | cons key keys ih =>
    cases signatures with
    | nil => exact .pure _
    | cons signature signatures =>
      have hrest : ∀ verified : Bool, Follows R
          (let remaining := if verified then signatures else signature :: signatures
          if keys.length < remaining.length then Pure.pure false
          else Action.matchSignatures m ctx remaining keys)
          (let remaining := if verified then signatures else signature :: signatures
          if keys.length < remaining.length then Pure.pure false
          else Action.matchSignatures m' ctx remaining keys) :=
        fun verified ↦ .ite (.pure _) (ih _)
      rw [Action.matchSignatures, Action.matchSignatures]
      exact .guard (.ite (.bind (.pure _) hrest) (.bind (.verifySignature h _ _) hrest))

theorem Follows.checkLegacyMultisig (signatures keys : List Bytes) :
    Follows R (Action.checkLegacyMultisig m ctx signatures keys)
      (Action.checkLegacyMultisig m' ctx signatures keys) := by
  have hmatch : ∀ anySigned : Bool, Follows R
      (do
        let matched ← Action.matchSignatures m ctx signatures keys
        if !matched && anySigned then MonadExcept.throw .nonNullSignatureFailure
        return matched)
      (do
        let matched ← Action.matchSignatures m' ctx signatures keys
        if !matched && anySigned then MonadExcept.throw .nonNullSignatureFailure
        return matched) :=
    fun _ ↦ .bind (.matchSignatures h _ _) fun _ ↦ .guard (.pure _)
  exact .ite (.bind (.meter (h.signatureChecks _)) fun _ ↦ hmatch _) (hmatch _)

theorem Follows.checkSelected (bits index : Nat) (signatures keys : List Bytes) :
    Follows R (Action.checkSelected m ctx bits index signatures keys)
      (Action.checkSelected m' ctx bits index signatures keys) := by
  induction keys generalizing index signatures with
  | nil => exact .pure _
  | cons key keys ih =>
    rw [Action.checkSelected.eq_def, Action.checkSelected.eq_def m']
    refine .ite ?_ (ih _ _)
    cases signatures with
    | nil => exact .throw _ _
    | cons signature signatures =>
      exact .guard (.bind (.verifySignature h _ _) fun _ ↦ .guard (ih _ _))

theorem Follows.checkSchnorrMultisig (bitfield : Bytes) (signatures keys : List Bytes) :
    Follows R (Action.checkSchnorrMultisig m ctx bitfield signatures keys)
      (Action.checkSchnorrMultisig m' ctx bitfield signatures keys) :=
  .guard <| .guard <| .bind (.checkSelected h _ _ _ _) fun _ ↦
    .bind (.meter (h.signatureChecks _)) fun _ ↦ .pure _

theorem Follows.checkMulti : Follows R (Action.checkMulti m ctx) (Action.checkMulti m' ctx) :=
  .bind (.popCount h.toRelaxes _) fun _ ↦ .bind (.popMany _) fun _ ↦
    .bind (.popCount h.toRelaxes _) fun _ ↦ .bind (.popMany _) fun _ ↦ .bind .pop fun _ ↦
      .ite (.checkLegacyMultisig h _ _) (.checkSchnorrMultisig h _ _ _)

theorem CheckOp.follows (op : CheckOp) (verify : Bool) :
    Follows R (op.perform m ctx verify) (op.perform m' ctx verify) := by
  refine .bind ?_ fun _ ↦ .ite (.require _ _) (.pushBool h.toRelaxes _)
  cases op with
  | transaction => exact .checkTransaction h
  | multi => exact .checkMulti h
  | data => exact .checkData h

end Signatures

/-! ## Branches and loops -/

theorem Follows.openBranch (executing negate : Bool) :
    Follows R (Action.openBranch executing negate) (Action.openBranch executing negate) := by
  have hopen : ∀ taken, Follows R
      (modify fun s ↦ { s with control := .branch taken :: s.control })
      (modify fun s ↦ { s with control := .branch taken :: s.control }) :=
    fun _ ↦ .modifyState fun _ meter hmeter ↦ ⟨meter, hmeter, rfl⟩
  exact .ite (.bind .pop fun _ ↦ .bind (.pure _) hopen) (.bind (.pure _) hopen)

theorem Follows.turnBranch : Follows R Action.turnBranch Action.turnBranch := by
  rintro s _ ⟨meter, hmeter, rfl⟩ a t h
  unfold Action.turnBranch at *
  split at h
  · rename_i hs
    cases h
    simp only [hs]
    exact ⟨_, rfl, meter, hmeter, rfl⟩
  · cases h
  · cases h

theorem Follows.closeBranch : Follows R Action.closeBranch Action.closeBranch := by
  rintro s _ ⟨meter, hmeter, rfl⟩ a t h
  unfold Action.closeBranch at *
  split at h
  · rename_i hs
    cases h
    simp only [hs]
    exact ⟨_, rfl, meter, hmeter, rfl⟩
  · rename_i hs
    cases h
    simp only [hs]
    exact ⟨_, rfl, meter, hmeter, rfl⟩
  · cases h

theorem Follows.closeLoop (h : p.Relaxes R p') (index : Nat) (executing : Bool) :
    Follows R (Action.closeLoop p index executing) (Action.closeLoop p' index executing) := by
  have hleave : Follows R Action.leave Action.leave :=
    .modifyState fun _ meter hmeter ↦ ⟨meter, hmeter, rfl⟩
  refine .get fun s meter ↦ ?_
  dsimp only
  split
  · exact .ite (.bind .pop fun _ ↦ .ite hleave
      (.modifyState fun _ meter hmeter ↦ ⟨_, h.repeated _ hmeter, rfl⟩)) hleave
  · exact .throw _ _

/-! ## Steps -/

namespace Machine

variable {m m' : Machine} (h : m.Relaxes R m') (ctx : Context)
include h

theorem Relaxes.perform (index : Nat) (executing : Bool) (op : Opcode) :
    Follows R (m.perform ctx index executing op) (m'.perform ctx index executing op) := by
  unfold Machine.perform
  cases op with
  | pushing op => exact .throw _ _
  | negativeOne => exact .pushNumber h.toRelaxes _
  | small n => exact .pushNumber h.toRelaxes _
  | reserved op => exact .throw _ _
  | disabled op => exact .throw _ _
  | nop => exact .pure _
  | upgradable op =>
    change Follows R (if m.policy.standard then _ else _) (if m'.policy.standard then _ else _)
    by_cases hstandard : m.policy.standard = true
    · rw [if_pos hstandard]
      exact .throw _ _
    · have hstandard' : ¬ m'.policy.standard = true := fun hs ↦ hstandard (h.standard hs)
      rw [if_neg hstandard, if_neg hstandard']
      exact .pure _
  | flow op =>
    cases op with
    | branch | branchNot => exact .openBranch _ _
    | «otherwise» => exact .turnBranch
    | endBranch => exact .closeBranch
    | verify => exact .verifyTop _
    | halt => exact .throw _ _
  | loop op =>
    cases op with
    | begin => exact .modifyState fun _ meter hmeter ↦ ⟨meter, hmeter, rfl⟩
    | «until» => exact .closeLoop h.toRelaxes _ _
  | stack op => exact op.follows h.toRelaxes
  | splice op => exact op.follows h.toRelaxes
  | bitwise op => exact op.follows h.toRelaxes
  | equal => exact .bind .compareItems fun _ ↦ .pushBool h.toRelaxes _
  | equalVerify => exact .bind .compareItems fun _ ↦ .require _ _
  | unary op => exact op.follows h.toRelaxes
  | binary op => exact op.follows h.toRelaxes
  | within => exact .within h.toRelaxes
  | hash op => exact op.follows h
  | codeSeparator => exact .modifyState fun _ meter hmeter ↦ ⟨meter, hmeter, rfl⟩
  | check op verify => exact op.follows h verify
  | locktime op => exact op.follows ctx
  | introspection op => exact op.follows h.toRelaxes ctx

theorem Relaxes.countOperation (byte : UInt8) :
    Follows R (m.countOperation byte) (m'.countOperation byte) := by
  rintro s _ ⟨meter, hmeter, rfl⟩ a t ht
  unfold Machine.countOperation at *
  rw [h.limits_eq]
  split at ht
  · rename_i hbyte
    cases ht
    exact ⟨_, if_pos hbyte, meter, hmeter, rfl⟩
  · rename_i hbyte
    rw [if_neg hbyte]
    cases hlimit : m.policy.limits.operationCount with
    | none =>
      simp only [hlimit] at ht ⊢
      cases ht
      exact ⟨_, rfl, meter, hmeter, rfl⟩
    | some limit =>
      simp only [hlimit] at ht ⊢
      split at ht
      · cases ht
      · rename_i hle
        cases ht
        exact ⟨_, if_neg hle, meter, hmeter, rfl⟩

theorem Relaxes.execute (index : Nat) (executing : Bool) (i : Instruction) :
    Follows R (m.execute ctx index executing i) (m'.execute ctx index executing i) := by
  cases i with
  | truncated opcode shortfall => exact .throw _ _
  | push opcode data =>
    change Follows R (m.pushData executing _ data) (m'.pushData executing _ data)
    unfold pushData
    rw [h.limits_eq]
    exact .ite (.throw _ _) (.ite (.pure _) (.ite (.push h.toRelaxes _) (.throw _ _)))
  | operation byte =>
    refine .bind (h.countOperation byte) fun _ ↦ ?_
    cases hop : Opcode.ofByte? m.policy.edition byte with
    | none =>
      rw [h.unknown byte hop]
      exact .ite (.throw _ _) (.pure _)
    | some op =>
      cases hfails : failsAlways op with
      | some fault =>
        simp only [hfails]
        exact .throw _ _
      | none =>
        rw [h.opcode byte op hop hfails]
        simp only [hfails]
        exact .ite (h.perform ctx index executing op) (.pure _)

theorem Relaxes.checkLimits : Follows R m.checkLimits m'.checkLimits := by
  rintro s _ ⟨meter, hmeter, rfl⟩ a t ht
  obtain ⟨hdepth, hcontrol, hbudget, rfl⟩ := checkLimits_eq_ok ht
  rw [← h.limits_eq] at hdepth hcontrol
  exact ⟨_, checkLimits_of_le hdepth hcontrol (h.budget hmeter hbudget), _, h.memory _ hmeter, rfl⟩

theorem Relaxes.agree_step {s s' : State} (hs : Agree R s s')
    (hfault : (m.step ctx s).fault = none) : Agree R (m.step ctx s) (m'.step ctx s') := by
  obtain ⟨meter, hmeter, rfl⟩ := hs
  cases hhalt : s.isHalted with
  | true =>
    have hhalt' : ({ s with meter := meter } : State).isHalted = true := hhalt
    rw [m.step_of_isHalted ctx hhalt, m'.step_of_isHalted ctx hhalt']
    exact ⟨meter, hmeter, rfl⟩
  | false =>
    have hlt := State.pointer_lt_of_not_halted hhalt
    have hnext : s.next? = some s.program[s.pointer] := List.getElem?_eq_getElem hlt
    have hadvance : Agree R (m.advance s) (m'.advance { s with meter := meter }) :=
      ⟨_, h.instruction hmeter, rfl⟩
    have hfollows := Follows.bind (h.execute ctx s.pointer s.isExecuting s.program[s.pointer])
      fun _ ↦ h.checkLimits
    rw [step_eq_settle hhalt hnext] at hfault ⊢
    rw [step_eq_settle (s := { s with meter := meter }) hhalt hnext]
    cases hresult : (m.execute ctx s.pointer s.isExecuting s.program[s.pointer] >>=
        fun _ ↦ m.checkLimits) (m.advance s) with
    | error fault t =>
      rw [hresult] at hfault
      cases hfault
    | ok a t =>
      obtain ⟨t', ht', hagree⟩ := hfollows _ _ hadvance a t hresult
      change Agree R (settle (.ok a t)) (settle ((m'.execute ctx s.pointer s.isExecuting
        s.program[s.pointer] >>= fun _ ↦ m'.checkLimits) (m'.advance { s with meter := meter })))
      rw [ht']
      exact hagree

/-! ## Evaluations -/

theorem Relaxes.agree_traceFor {limit : Nat} {s s' : State} (hs : Agree R s s')
    (hfault : (m.runFor ctx limit s).fault = none) :
    List.Forall₂ (Agree R) (m.traceFor ctx limit s) (m'.traceFor ctx limit s') ∧
      Agree R (m.runFor ctx limit s) (m'.runFor ctx limit s') := by
  induction limit generalizing s s' with
  | zero => exact ⟨.cons hs .nil, hs⟩
  | succ limit ih =>
    have hhalt : s'.isHalted = s.isHalted := by
      obtain ⟨meter, -, rfl⟩ := hs
      rfl
    rw [traceFor, traceFor, runFor, runFor, hhalt]
    rw [runFor] at hfault
    split
    · exact ⟨.cons hs .nil, hs⟩
    · rename_i hrunning
      rw [if_neg hrunning] at hfault
      have hstep : (m.step ctx s).fault = none := by
        rw [runFor_eq_iterate] at hfault
        exact fault_iterate_eq_none (Nat.zero_le limit) hfault
      obtain ⟨htrace, hlast⟩ := ih (h.agree_step ctx hs hstep) hfault
      exact ⟨.cons hs htrace, hlast⟩

/-- An evaluation that does not fail has the same states under laxer rules, but for their meters. -/
theorem Relaxes.agree_trace {s s' : State} (hs : Agree R s s')
    (hfault : (m.evaluate ctx s).fault = none) :
    List.Forall₂ (Agree R) (m.trace ctx s) (m'.trace ctx s') ∧
      Agree R (m.evaluate ctx s) (m'.evaluate ctx s') := by
  have hbound : stepBound s' = stepBound s := by
    obtain ⟨meter, -, rfl⟩ := hs
    rfl
  unfold trace evaluate at *
  rw [hbound]
  exact h.agree_traceFor ctx hs hfault

theorem Relaxes.agree_load (bytecode : Bytes) (stack : List Bytes) {meter meter' : Meter}
    (hmeter : R meter meter') :
    Agree R (m.load bytecode stack meter) (m'.load bytecode stack meter') := by
  refine ⟨meter', hmeter, ?_⟩
  unfold load
  rw [h.limits_eq]

theorem Relaxes.agree_start (bytecode : Bytes) :
    Agree R (m.start ctx bytecode) (m'.start ctx bytecode) :=
  h.agree_load bytecode [] (h.start _)

end Machine

theorem Agree.complete {s s' : State} (h : Agree R s s') (completion : Completion) :
    Agree R (s.complete completion) (s'.complete completion) := by
  obtain ⟨meter, hmeter, rfl⟩ := h
  exact ⟨meter, hmeter, rfl⟩

end ScriptMachine
