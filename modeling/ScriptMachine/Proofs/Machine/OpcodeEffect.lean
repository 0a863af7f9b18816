import ScriptMachine.Proofs.Machine.Effect

/-!
# Opcodes that only move data

Every opcode but those of branches and loops, and but the code separator, only moves data. The proof
goes through the opcodes group by group and follows their definitions.
-/

namespace ScriptMachine

variable {p : Policy}

/-! ## Stack opcodes -/

theorem IsData.popStackIndex : IsData p (Action.popStackIndex p) :=
  .bind .popNumber fun _ ↦ .bind .get fun _ ↦ .ite (.pure _) (.throw _)

/-- On the way to the alternate stack the item is on neither stack, so the two halves are one
move. -/
theorem IsData.popPushAlt : IsData p (Action.pop >>= Action.pushAlt) := by
  intro s
  cases h : s.stack with
  | nil =>
    have hs : (Action.pop >>= Action.pushAlt).after s = s := by
      simp [Action.after, Bind.bind, EStateM.bind, Action.pop, h]
    rw [hs]
  | cons top rest =>
    have hs : (Action.pop >>= Action.pushAlt).after s =
        { s with stack := rest, alt := top :: s.alt } := by
      simp [Action.after, Bind.bind, EStateM.bind, Action.pop, Action.pushAlt, h]
    rw [hs]
    refine .single (.shuffle rest (top :: s.alt) ?_)
    intro item hitem
    simp only [h, List.mem_append, List.mem_cons] at hitem ⊢
    tauto

theorem StackOp.isData (op : StackOp) : IsData p (op.perform p) := by
  unfold StackOp.perform
  cases op with
  | toAlt => exact .popPushAlt
  | fromAlt => exact .bind .popAlt fun _ ↦ .push _
  | drop2 =>
    refine .rearrange fun old new h item hitem ↦ ?_
    split at h <;> simp_all
  | dup2 => exact .bind (.inspect _) fun _ ↦ .bind (.push _) fun _ ↦ .push _
  | dup3 =>
    exact .bind (.inspect _) fun _ ↦ .bind (.push _) fun _ ↦ .bind (.push _) fun _ ↦ .push _
  | over2 => exact .bind (.inspect _) fun _ ↦ .bind (.push _) fun _ ↦ .push _
  | rot2 =>
    refine .rearrange fun old new h item hitem ↦ ?_
    split at h <;> aesop
  | swap2 =>
    refine .rearrange fun old new h item hitem ↦ ?_
    split at h <;> aesop
  | ifDup => exact .bind (.inspect _) fun _ ↦ .ite (.push _) (.pure _)
  | depth => exact .bind .get fun _ ↦ .pushNumber _
  | drop => exact .bind .pop fun _ ↦ .pure _
  | dup => exact .bind (.inspect _) fun _ ↦ .push _
  | nip =>
    refine .rearrange fun old new h item hitem ↦ ?_
    split at h <;> aesop
  | «over» => exact .bind (.inspect _) fun _ ↦ .push _
  | pick => exact .bind .popStackIndex fun _ ↦ .bind (.inspect _) fun _ ↦ .push _
  | roll =>
    refine .bind .popStackIndex fun n ↦ .rearrange fun old new h item hitem ↦ ?_
    obtain ⟨moved, hmoved, rfl⟩ := Option.map_eq_some_iff.mp h
    rcases List.mem_cons.mp hitem with rfl | hrest
    · exact List.mem_of_getElem? hmoved
    · exact List.mem_of_mem_eraseIdx hrest
  | rot =>
    refine .rearrange fun old new h item hitem ↦ ?_
    split at h <;> aesop
  | swap =>
    refine .rearrange fun old new h item hitem ↦ ?_
    split at h <;> aesop
  | tuck =>
    refine .bind (.inspect _) fun _ ↦ .bind (.meter fun _ ↦ .push _) fun _ ↦
      .rearrange fun old new h item hitem ↦ ?_
    split at h <;> aesop

/-! ## Byte strings and numbers -/

theorem SpliceOp.isData (op : SpliceOp) : IsData p (op.perform p) := by
  cases op with
  | cat => exact .bind .pop fun _ ↦ .bind .pop fun _ ↦ .push _
  | split =>
    exact .bind .popNumber fun _ ↦ .bind .pop fun _ ↦
      .ite (.bind (.push _) fun _ ↦ .push _) (.throw _)
  | numToBin =>
    refine .bind .popNumber fun size ↦ .bind .pop fun item ↦ .guard (.guard ?_)
    split
    · exact .push _
    · exact .throw _
  | binToNum => exact .bind .pop fun _ ↦ .guard (.push _)
  | size => exact .bind (.inspect _) fun _ ↦ .pushNumber _
  | reverse => exact .bind .pop fun _ ↦ .push _

theorem BitwiseOp.isData (op : BitwiseOp) : IsData p (op.perform p) :=
  .bind .pop fun _ ↦ .bind .pop fun _ ↦ .guard (.push _)

theorem IsData.compareItems : IsData p Action.compareItems :=
  .bind .pop fun _ ↦ .bind .pop fun _ ↦ .pure _

theorem UnaryOp.isData (op : UnaryOp) : IsData p (op.perform p) :=
  .bind .popSized fun _ ↦ .bind (.meter fun _ ↦ .arithmetic _) fun _ ↦ .pushNumber _

theorem BinaryOp.isData (op : BinaryOp) : IsData p (op.perform p) :=
  .bind .popSized fun _ ↦ .bind .popSized fun _ ↦ .bind (.meter fun _ ↦ .arithmetic _) fun _ ↦
    .ite (.throw _) (.ite (.require _ _) (.pushNumber _))

theorem IsData.within : IsData p (Action.within p) :=
  .bind .popSized fun _ ↦ .bind .popSized fun _ ↦ .bind .popSized fun _ ↦
    .bind (.meter fun _ ↦ .arithmetic _) fun _ ↦ .pushBool _

theorem IsData.verifyTop (op : Opcode) : IsData p (Action.verifyTop op) :=
  .bind .pop fun _ ↦ .require _ _

/-! ## Digests and signatures -/

section Signatures

variable {m : Machine} {ctx : Context}

theorem HashOp.isData (op : HashOp) : IsData m.policy (op.perform m) :=
  .bind .pop fun _ ↦ .bind (.meter fun _ ↦ .hash _) fun _ ↦ .push _

theorem IsData.verifySignature (signature key : Bytes) :
    IsData m.policy (Action.verifySignature m ctx signature key) := by
  unfold Action.verifySignature
  split
  · exact .throw _
  · refine .guard (.bind .get fun s ↦ ?_)
    split
    · exact .throw _
    · exact .bind (.meter fun _ ↦ .hash _) fun _ ↦ .pure _

theorem IsData.checkTransaction : IsData m.policy (Action.checkTransaction m ctx) :=
  .bind .pop fun _ ↦ .bind .pop fun _ ↦ .ite (.pure _) <|
    .bind (.verifySignature _ _) fun _ ↦ .bind (.meter fun _ ↦ .signatureChecks _) fun _ ↦
      .ite (.pure _) (.throw _)

theorem IsData.checkData : IsData m.policy (Action.checkData m) :=
  .bind .pop fun _ ↦ .bind .pop fun _ ↦ .bind .pop fun _ ↦ .ite (.pure _) <| .guard <| .guard <|
    .bind (.meter fun _ ↦ .hash _) fun _ ↦ .bind (.meter fun _ ↦ .signatureChecks _) fun _ ↦
      .ite (.pure _) (.throw _)

theorem IsData.popCount (limit : Nat) : IsData p (Action.popCount p limit) :=
  .bind .popNumber fun _ ↦ .ite (.pure _) (.throw _)

theorem IsData.matchSignatures (signatures keys : List Bytes) :
    IsData m.policy (Action.matchSignatures m ctx signatures keys) := by
  induction keys generalizing signatures with
  | nil =>
    cases signatures with
    | nil => exact .pure _
    | cons signature signatures => exact .pure _
  | cons key keys ih =>
    cases signatures with
    | nil => exact .pure _
    | cons signature signatures =>
      have hrest : ∀ verified : Bool, IsData m.policy
          (let remaining := if verified then signatures else signature :: signatures
          if keys.length < remaining.length then Pure.pure false
          else Action.matchSignatures m ctx remaining keys) :=
        fun verified ↦ .ite (.pure _) (ih _)
      rw [Action.matchSignatures]
      exact .guard (.ite (.bind (.pure _) hrest) (.bind (.verifySignature _ _) hrest))

theorem IsData.checkLegacyMultisig (signatures keys : List Bytes) :
    IsData m.policy (Action.checkLegacyMultisig m ctx signatures keys) := by
  have hmatch : IsData m.policy (do
      let matched ← Action.matchSignatures m ctx signatures keys
      if !matched && signatures.any (!·.isEmpty) then MonadExcept.throw .nonNullSignatureFailure
      return matched) :=
    .bind (.matchSignatures _ _) fun _ ↦ .guard (.pure _)
  exact .ite (.bind (.meter fun _ ↦ .signatureChecks _) fun _ ↦ hmatch) hmatch

theorem IsData.checkSelected (bits index : Nat) (signatures keys : List Bytes) :
    IsData m.policy (Action.checkSelected m ctx bits index signatures keys) := by
  induction keys generalizing index signatures with
  | nil => exact .pure _
  | cons key keys ih =>
    rw [Action.checkSelected.eq_def]
    refine .ite ?_ (ih _ _)
    cases signatures with
    | nil => exact .throw _
    | cons signature signatures =>
      exact .guard (.bind (.verifySignature _ _) fun _ ↦ .guard (ih _ _))

theorem IsData.checkSchnorrMultisig (bitfield : Bytes) (signatures keys : List Bytes) :
    IsData m.policy (Action.checkSchnorrMultisig m ctx bitfield signatures keys) :=
  .guard <| .guard <| .bind (.checkSelected _ _ _ _) fun _ ↦
    .bind (.meter fun _ ↦ .signatureChecks _) fun _ ↦ .pure _

theorem IsData.checkMulti : IsData m.policy (Action.checkMulti m ctx) :=
  .bind (.popCount _) fun _ ↦ .bind (.popMany _) fun _ ↦ .bind (.popCount _) fun _ ↦
    .bind (.popMany _) fun _ ↦ .bind .pop fun _ ↦
      .ite (.checkLegacyMultisig _ _) (.checkSchnorrMultisig _ _ _)

theorem CheckOp.isData (op : CheckOp) (verify : Bool) :
    IsData m.policy (op.perform m ctx verify) := by
  refine .bind ?_ fun _ ↦ .ite (.require _ _) (.pushBool _)
  cases op with
  | transaction => exact .checkTransaction
  | multi => exact .checkMulti
  | data => exact .checkData

end Signatures

/-! ## The spending transaction -/

theorem IsData.peekLockTime : IsData p Action.peekLockTime :=
  .bind (.inspect _) fun _ ↦ .bind (.readNumber _ _) fun _ ↦ .guard (.pure _)

theorem IsData.currentInput (ctx : Context) : IsData p (Action.currentInput ctx) := by
  unfold Action.currentInput
  split
  · exact .pure _
  · exact .throw _

theorem LocktimeOp.isData (ctx : Context) (op : LocktimeOp) : IsData p (op.perform ctx) := by
  cases op with
  | lockTime =>
    exact .bind .peekLockTime fun _ ↦ .bind (.currentInput ctx) fun _ ↦ .guard <| .guard <|
      .ite (.throw _) (.pure _)
  | sequence =>
    exact .bind .peekLockTime fun _ ↦ .ite (.pure _) <| .bind (.currentInput ctx) fun _ ↦
      .guard <| .guard <| .ite (.throw _) (.pure _)

theorem IsData.popElement {α : Type} (elements : List α) :
    IsData p (Action.popElement p elements) := by
  refine .bind .popNumber fun _ ↦ .ite (.throw _) ?_
  split
  · exact .pure _
  · exact .throw _

theorem IsData.popSource (ctx : Context) : IsData p (Action.popSource p ctx) := by
  refine .bind (.popElement _) fun _ ↦ ?_
  split
  · exact .pure _
  · exact .throw _

theorem IntrospectionOp.isData (ctx : Context) (op : IntrospectionOp) :
    IsData p (op.perform p ctx) := by
  refine .bind (.currentInput ctx) fun _ ↦ ?_
  unfold IntrospectionOp.read
  cases op with
  | inputIndex | version | inputCount | outputCount | lockTime => exact .pushNumber _
  | activeBytecode => exact .bind .get fun _ ↦ .push _
  | utxoValue => exact .bind (.popSource ctx) fun _ ↦ .pushNumber _
  | utxoBytecode => exact .bind (.popSource ctx) fun _ ↦ .push _
  | outpointHash | inputBytecode | outputBytecode => exact .bind (.popElement _) fun _ ↦ .push _
  | outpointIndex | sequenceNumber | outputValue =>
    exact .bind (.popElement _) fun _ ↦ .pushNumber _

/-! ## All opcodes -/

/-- Outside control flow only the code separator does more than move data. -/
theorem Machine.isData_perform (m : Machine) (ctx : Context) (index : Nat) (executing : Bool)
    {op : Opcode} (hflow : op.isConditional = false) (hsep : op ≠ .codeSeparator) :
    IsData m.policy (m.perform ctx index executing op) := by
  unfold Machine.perform
  cases op with
  | pushing op => exact .throw _
  | negativeOne => exact .pushNumber _
  | small n => exact .pushNumber _
  | reserved op => exact .throw _
  | disabled op => exact .throw _
  | nop => exact .pure _
  | upgradable op => exact .ite (.throw _) (.pure _)
  | flow op =>
    cases op with
    | branch | branchNot | «otherwise» | endBranch => simp [Opcode.isConditional] at hflow
    | verify => exact .verifyTop _
    | halt => exact .throw _
  | loop op => simp [Opcode.isConditional] at hflow
  | stack op => exact op.isData
  | splice op => exact op.isData
  | bitwise op => exact op.isData
  | equal => exact .bind .compareItems fun _ ↦ .pushBool _
  | equalVerify => exact .bind .compareItems fun _ ↦ .require _ _
  | unary op => exact op.isData
  | binary op => exact op.isData
  | within => exact .within
  | hash op => exact op.isData
  | codeSeparator => exact absurd rfl hsep
  | check op verify => exact op.isData verify
  | locktime op => exact op.isData ctx
  | introspection op => exact op.isData ctx

/-- Pushes in bytecode only move data. -/
theorem Machine.isData_pushData (m : Machine) (executing : Bool) (instruction : Instruction)
    (data : Bytes) : IsData m.policy (m.pushData executing instruction data) :=
  .ite (.throw _) (.ite (.pure _) (.ite (.push _) (.throw _)))

end ScriptMachine
