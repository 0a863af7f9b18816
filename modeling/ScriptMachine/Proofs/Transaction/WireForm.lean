import ScriptMachine.Proofs.Transaction.Delimiting

/-!
# The wire form of a transaction

A counted list says where it ends: the count says how many parts there are, and each part where it
ends itself. So the wire form of a transaction can be taken apart again, whatever follows it. Sizes
are counted without keeping the wire form, and agree with what is kept.
-/

namespace ScriptMachine

/-! ## Unambiguity -/

namespace Delimits

variable {α : Type} {P : α → Prop} {encode : α → Bytes}

/-- Once the number of parts is known, it is known which bytes come after them. -/
theorem flatMap_append_inj (h : Delimits P encode) {as bs : List α} (has : ∀ a ∈ as, P a)
    (hbs : ∀ b ∈ bs, P b) (hlength : as.length = bs.length) {r s : Bytes}
    (heq : as.flatMap encode ++ r = bs.flatMap encode ++ s) : as = bs ∧ r = s := by
  induction as generalizing bs with
  | nil =>
    obtain rfl := List.eq_nil_of_length_eq_zero hlength.symm
    exact ⟨rfl, heq⟩
  | cons a as ih =>
    cases bs with
    | nil => cases hlength
    | cons b bs =>
      rw [List.forall_mem_cons] at has hbs
      rw [List.flatMap_cons, List.flatMap_cons, List.append_assoc, List.append_assoc] at heq
      obtain ⟨rfl, hrest⟩ := h a b has.1 hbs.1 _ _ heq
      obtain ⟨rfl, rfl⟩ := ih has.2 hbs.2 (Nat.succ.inj hlength) hrest
      exact ⟨rfl, rfl⟩

theorem counted (h : Delimits P encode) :
    Delimits (fun as : List α ↦ as.length < 2 ^ 64 ∧ ∀ a ∈ as, P a)
      fun as ↦ Wire.compactSize as.length ++ as.flatMap encode := by
  intro as bs has hbs r s heq
  dsimp only at heq
  rw [List.append_assoc, List.append_assoc] at heq
  obtain ⟨hlength, hrest⟩ := Wire.delimits_compactSize _ _ has.1 hbs.1 _ _ heq
  exact h.flatMap_append_inj has.2 hbs.2 hlength hrest

end Delimits

theorem delimits_input :
    Delimits (fun i : Input ↦ i.unlocking.length < 2 ^ 64) Input.encode := by
  rintro ⟨outpoint, unlocking, sequence⟩ ⟨outpoint', unlocking', sequence'⟩ ha hb r s h
  simp only [Input.encode_eq, List.append_assoc] at h
  obtain ⟨rfl, hrest⟩ := delimits_outpoint _ _ trivial trivial _ _ h
  obtain ⟨rfl, hsequence⟩ := Wire.delimits_byteString _ _ ha hb _ _ hrest
  obtain ⟨rfl, rfl⟩ := Wire.delimits_word32 _ _ trivial trivial _ _ hsequence
  exact ⟨rfl, rfl⟩

/-- The numbers of inputs and outputs and the lengths of their bytecode can be written down. -/
structure Transaction.Bounded (tx : Transaction) : Prop where
  inputs : tx.inputs.length < 2 ^ 64
  outputs : tx.outputs.length < 2 ^ 64
  unlocking : ∀ i ∈ tx.inputs, i.unlocking.length < 2 ^ 64
  locking : ∀ o ∈ tx.outputs, o.locking.length < 2 ^ 64

theorem delimits_transaction : Delimits Transaction.Bounded Transaction.encode := by
  rintro ⟨version, inputs, outputs, lockTime⟩ ⟨version', inputs', outputs', lockTime'⟩ ha hb r s h
  simp only [Transaction.encode_eq, List.append_assoc] at h
  -- Each count is read together with the list that it counts.
  simp only [← List.append_assoc (Wire.compactSize _)] at h
  obtain ⟨rfl, hlists⟩ := Wire.delimits_word32 _ _ trivial trivial _ _ h
  obtain ⟨rfl, hrest⟩ := delimits_input.counted _ _ ⟨ha.inputs, ha.unlocking⟩
    ⟨hb.inputs, hb.unlocking⟩ _ _ hlists
  obtain ⟨rfl, hlockTime⟩ := delimits_output.counted _ _ ⟨ha.outputs, ha.locking⟩
    ⟨hb.outputs, hb.locking⟩ _ _ hrest
  obtain ⟨rfl, rfl⟩ := Wire.delimits_word32 _ _ trivial trivial _ _ hlockTime
  exact ⟨rfl, rfl⟩

/-! ## Sizes -/

/-- The closed form for budgets counts the same bytes. -/
theorem Input.densityLength_eq (i : Input) : i.densityLength = i.encode.length := by
  rw [densityLength, ScriptMachine.densityLength, encode_eq, Wire.byteString_eq]
  simp [Wire.length_compactSize, Nat.add_assoc]

/-- Whatever follows it, the wire form of a transaction says which transaction it is of and where it
ends. The sizes of transactions, inputs and outputs are the lengths of their wire forms, and so is
the density length of an input. -/
theorem Transaction.wire_form_unambiguous_and_measured :
    (∀ tx tx' : Transaction, tx.Bounded → tx'.Bounded → ∀ r r' : Bytes,
      tx.encode ++ r = tx'.encode ++ r' → tx = tx' ∧ r = r') ∧
      (∀ tx : Transaction, tx.encodedLength = tx.encode.length) ∧
      (∀ i : Input, i.encodedLength = i.encode.length ∧ i.densityLength = i.encode.length) ∧
      ∀ o : Output, o.encodedLength = o.encode.length := by
  refine ⟨delimits_transaction, fun tx ↦ Sink.collect_counter tx.parts, fun i ↦ ?_,
    fun o ↦ Sink.collect_counter o.parts⟩
  exact ⟨Sink.collect_counter i.parts, i.densityLength_eq⟩

/-- Bytecode of 253 bytes is the shortest whose length takes more than one byte. -/
theorem Transaction.wire_form_unambiguous_and_measured_wide :
    let input : Input := { unlocking := List.replicate 253 0x51 }
    let tx : Transaction := { inputs := [input], outputs := [{}] }
    let tx' : Transaction := { inputs := [input, input] }
    tx.Bounded ∧ tx'.Bounded ∧ (∀ r r', tx.encode ++ r ≠ tx'.encode ++ r') ∧
      tx.encode.length = 315 ∧ input.encode.length = 296 ∧ input.densityLength = 296 := by
  intro input tx tx'
  obtain ⟨hinj, htx, hinput, -⟩ := wire_form_unambiguous_and_measured
  have hb : tx.Bounded := by constructor <;> decide +kernel
  have hb' : tx'.Bounded := by constructor <;> decide +kernel
  refine ⟨hb, hb', fun r r' h ↦ ?_, ?_, ?_, by decide +kernel⟩
  · have hcount := congrArg (·.inputs.length) (hinj tx tx' hb hb' r r' h).1
    cases hcount
  · rw [← htx]
    decide +kernel
  · rw [← (hinput input).1]
    decide +kernel

end ScriptMachine
