import ScriptMachine.Proofs.Transaction.Delimiting
import ScriptMachine.Signing

/-!
# What a signing message commits to

A signing message holds digests of the lists that its type covers, and zeros for those it leaves
out. As far as the digests tell the lists apart, two messages are equal exactly when they were asked
for the same type and agree in all that this type covers.
-/

namespace ScriptMachine

/-- The transaction with this unlocking bytecode in its inputs. -/
def Transaction.unlockedBy (unlocking : Nat → Bytes) (tx : Transaction) : Transaction :=
  { tx with inputs := tx.inputs.mapIdx fun i input ↦ { input with unlocking := unlocking i } }

theorem Transaction.map_unlockedBy {α : Type} {f : Input → α}
    (hf : ∀ input unlocking, f { input with unlocking } = f input) (unlocking : Nat → Bytes)
    (tx : Transaction) : (tx.unlockedBy unlocking).inputs.map f = tx.inputs.map f := by
  apply List.ext_getElem (by simp [unlockedBy])
  intro i hi hi'
  simp [unlockedBy, hf]

namespace Signing

theorem SignatureType.ofByte_byte (t : SignatureType) : ofByte t.byte = .ok t := by
  obtain ⟨coverage, utxos, anyoneCanPay, hcompatible⟩ := t
  revert hcompatible
  cases coverage <;> cases utxos <;> cases anyoneCanPay <;> decide

theorem SignatureType.byte_injective : Function.Injective byte := by
  intro t t' h
  have hread := t.ofByte_byte
  rw [h, t'.ofByte_byte] at hread
  exact (Except.ok.inj hread).symm

/-- The digest of a part that is covered, and otherwise what stands in its place. -/
def digestOr (d : DigestFamily) (absent : Bytes) (part : Option Bytes) : Bytes :=
  part.elim absent d.hash256

@[simp] theorem length_digestOr_uncovered (d : DigestFamily) (part : Option Bytes) :
    (digestOr d uncovered part).length = 32 := by
  cases part with
  | none => rfl
  | some part => exact d.length_hash256 part

/-- All that a signing message depends on. -/
structure Request where
  tx : Transaction
  sources : List Output
  index : Nat
  covered : Bytes
  type : SignatureType

namespace Request

variable (a b : Request) (d : DigestFamily)

def message : Except Fault Bytes := Signing.message d a.tx a.sources a.index a.covered a.type

def outpointsPart : Option Bytes :=
  if a.type.anyoneCanPay then none
  else some ((a.tx.inputs.map (·.outpoint)).flatMap Outpoint.encode)

def utxosPart : Option Bytes :=
  if a.type.utxos then some (a.sources.flatMap Output.encode) else none

def sequencesPart : Option Bytes :=
  if a.type.anyoneCanPay ∨ a.type.coverage ≠ .all then none
  else some ((a.tx.inputs.map (·.sequence)).flatMap Wire.word32)

def outputsPart : Option Bytes :=
  match a.type.coverage with
  | .all => some (a.tx.outputs.flatMap Output.encode)
  | .none => none
  | .single => a.tx.outputs[a.index]?.map Output.encode

def parts : List (Option Bytes) :=
  [a.outpointsPart, a.utxosPart, a.sequencesPart, a.outputsPart]

/-- The strings whose digests the message holds. -/
def preimages : List Bytes := a.parts.reduceOption

/-- The message but for its type, which comes last. -/
def body (input : Input) (source : Output) : Bytes :=
  Wire.word32 a.tx.version ++ (digestOr d uncovered a.outpointsPart ++ (digestOr d [] a.utxosPart ++
    (digestOr d uncovered a.sequencesPart ++ (input.outpoint.encode ++ (Wire.byteString a.covered ++
      (Wire.word64 source.value ++ (Wire.word32 input.sequence ++
        (digestOr d uncovered a.outputsPart ++ Wire.word32 a.tx.lockTime))))))))

theorem outpointsDigest_eq :
    outpointsDigest d a.tx a.type = digestOr d uncovered a.outpointsPart := by
  unfold outpointsDigest outpointsPart
  split
  · rfl
  · rw [List.flatMap_map]
    rfl

theorem utxosDigest_eq : utxosDigest d a.sources a.type = digestOr d [] a.utxosPart := by
  unfold utxosDigest utxosPart
  split <;> rfl

theorem sequencesDigest_eq :
    sequencesDigest d a.tx a.type = digestOr d uncovered a.sequencesPart := by
  unfold sequencesDigest sequencesPart
  split
  · rfl
  · rw [List.flatMap_map]
    rfl

theorem outputsDigest_eq :
    outputsDigest d a.tx a.index a.type = digestOr d uncovered a.outputsPart := by
  unfold outputsDigest outputsPart
  cases a.type.coverage with
  | all | none => rfl
  | single => cases a.tx.outputs[a.index]? <;> rfl

theorem message_eq :
    a.message d = match a.tx.inputs[a.index]? with
      | none => .error (.inputOutOfRange a.index a.tx.inputs.length)
      | some input =>
        if a.sources.length ≠ a.tx.inputs.length then
          .error (.sourceCountMismatch a.tx.inputs.length a.sources.length)
        else
          .ok (a.body d input (a.sources.getD a.index {}) ++ Wire.word32 a.type.byte.toUInt32) := by
  unfold message Signing.message body
  cases a.tx.inputs[a.index]? with
  | none => rfl
  | some input =>
    simp only [outpointsDigest_eq, utxosDigest_eq, sequencesDigest_eq, outputsDigest_eq,
      List.append_assoc]

variable {a b d}

theorem exists_body {m : Bytes} (h : a.message d = .ok m) :
    ∃ input source, a.tx.inputs[a.index]? = some input ∧ a.sources[a.index]? = some source ∧
      m = a.body d input source ++ Wire.word32 a.type.byte.toUInt32 := by
  rw [message_eq] at h
  cases hinput : a.tx.inputs[a.index]? with
  | none =>
    rw [hinput] at h
    cases h
  | some input =>
    rw [hinput] at h
    dsimp only at h
    by_cases hcount : a.sources.length = a.tx.inputs.length
    · rw [if_neg (not_not_intro hcount)] at h
      obtain ⟨hindex, -⟩ := List.getElem?_eq_some_iff.mp hinput
      rw [← hcount] at hindex
      have hsource : a.sources[a.index]? = some (a.sources.getD a.index {}) := by
        rw [List.getD_eq_getElem _ _ hindex, List.getElem?_eq_getElem hindex]
      exact ⟨input, _, rfl, hsource, (Except.ok.inj h).symm⟩
    · rw [if_pos hcount] at h
      cases h

/-- The lengths can be written down. -/
structure Bounded (a : Request) : Prop where
  covered : a.covered.length < 2 ^ 64
  outputs : ∀ o ∈ a.tx.outputs, o.locking.length < 2 ^ 64
  sources : ∀ o ∈ a.sources, o.locking.length < 2 ^ 64

/-- No digest of one message is also that of another string of the other message, and none is that
of a part left out. -/
structure DigestsApart (d : DigestFamily) (a b : Request) : Prop where
  collisionFree : ∀ x ∈ a.preimages, ∀ y ∈ b.preimages,
    d.hash256 x = d.hash256 y → x = y
  ne_uncovered : ∀ x ∈ a.preimages ++ b.preimages, d.hash256 x ≠ uncovered

/-- The requests are for the same type, and agree in all that this type covers. -/
structure Agree (a b : Request) : Prop where
  type : a.type = b.type
  covered : a.covered = b.covered
  version : a.tx.version = b.tx.version
  lockTime : a.tx.lockTime = b.tx.lockTime
  outpoint : a.tx.inputs[a.index]?.map (·.outpoint) = b.tx.inputs[b.index]?.map (·.outpoint)
  sequence : a.tx.inputs[a.index]?.map (·.sequence) = b.tx.inputs[b.index]?.map (·.sequence)
  value : a.sources[a.index]?.map (·.value) = b.sources[b.index]?.map (·.value)
  outpoints : a.type.anyoneCanPay = false →
    a.tx.inputs.map (·.outpoint) = b.tx.inputs.map (·.outpoint)
  sequences : a.type.anyoneCanPay = false → a.type.coverage = .all →
    a.tx.inputs.map (·.sequence) = b.tx.inputs.map (·.sequence)
  outputs : a.type.coverage = .all → a.tx.outputs = b.tx.outputs
  output : a.type.coverage = .single → a.tx.outputs[a.index]? = b.tx.outputs[b.index]?
  utxos : a.type.utxos = true → a.sources = b.sources

theorem outpointsPart_eq_iff (htype : a.type = b.type) :
    a.outpointsPart = b.outpointsPart ↔ (a.type.anyoneCanPay = false →
      a.tx.inputs.map (·.outpoint) = b.tx.inputs.map (·.outpoint)) := by
  unfold outpointsPart
  rw [← htype]
  cases a.type.anyoneCanPay with
  | true => simp
  | false =>
    refine ⟨fun h _ ↦ ?_, fun h ↦ by rw [h rfl]⟩
    refine delimits_outpoint.eq_of_flatMap_eq ?_ (by simp) (by simp) (Option.some.inj h)
    exact fun o _ ↦ List.ne_nil_of_length_pos (by simp)

theorem utxosPart_eq_iff (htype : a.type = b.type) (ha : a.Bounded) (hb : b.Bounded) :
    a.utxosPart = b.utxosPart ↔ (a.type.utxos = true → a.sources = b.sources) := by
  unfold utxosPart
  rw [← htype]
  cases a.type.utxos with
  | false => simp
  | true =>
    refine ⟨fun h _ ↦ ?_, fun h ↦ by rw [h rfl]⟩
    exact delimits_output.eq_of_flatMap_eq (fun o _ ↦ o.encode_ne_nil) ha.sources hb.sources
      (Option.some.inj h)

theorem sequencesPart_eq_iff (htype : a.type = b.type) :
    a.sequencesPart = b.sequencesPart ↔
      (a.type.anyoneCanPay = false → a.type.coverage = .all →
        a.tx.inputs.map (·.sequence) = b.tx.inputs.map (·.sequence)) := by
  unfold sequencesPart
  rw [← htype]
  by_cases hcovered : a.type.anyoneCanPay = true ∨ a.type.coverage ≠ .all
  · rw [if_pos hcovered, if_pos hcovered]
    refine ⟨fun _ hothers hall ↦ ?_, fun _ ↦ rfl⟩
    exact absurd hcovered (by simp [hothers, hall])
  · rw [if_neg hcovered, if_neg hcovered]
    push Not at hcovered
    refine ⟨fun h _ _ ↦ ?_, fun h ↦ by rw [h (by simpa using hcovered.1) hcovered.2]⟩
    refine Wire.delimits_word32.eq_of_flatMap_eq ?_ (by simp) (by simp) (Option.some.inj h)
    exact fun n _ ↦ List.ne_nil_of_length_pos (by simp)

theorem outputsPart_eq_iff (htype : a.type = b.type) (ha : a.Bounded) (hb : b.Bounded) :
    a.outputsPart = b.outputsPart ↔ (a.type.coverage = .all → a.tx.outputs = b.tx.outputs) ∧
      (a.type.coverage = .single → a.tx.outputs[a.index]? = b.tx.outputs[b.index]?) := by
  unfold outputsPart
  rw [← htype]
  cases a.type.coverage with
  | none => simp
  | all =>
    refine ⟨fun h ↦ ⟨fun _ ↦ ?_, by simp⟩, fun h ↦ by rw [h.1 rfl]⟩
    exact delimits_output.eq_of_flatMap_eq (fun o _ ↦ o.encode_ne_nil) ha.outputs hb.outputs
      (Option.some.inj h)
  | single =>
    refine ⟨fun h ↦ ⟨by simp, fun _ ↦ ?_⟩, fun h ↦ by rw [h.2 rfl]⟩
    cases houtput : a.tx.outputs[a.index]? with
    | none => simpa [houtput, eq_comm] using h
    | some o =>
      cases houtput' : b.tx.outputs[b.index]? with
      | none => simp [houtput, houtput'] at h
      | some o' =>
        rw [houtput, houtput'] at h
        exact congrArg some (delimits_output.eq_of_eq (ha.outputs o (List.mem_of_getElem? houtput))
          (hb.outputs o' (List.mem_of_getElem? houtput')) (Option.some.inj h))

theorem length_digestOr_utxosPart :
    (digestOr d [] a.utxosPart).length = if a.type.utxos then 32 else 0 := by
  unfold utxosPart
  split
  · exact d.length_hash256 _
  · rfl

theorem DigestsApart.part_eq (h : a.DigestsApart d b) {absent : Bytes} {p q : Option Bytes}
    (hp : p ∈ a.parts) (hq : q ∈ b.parts)
    (habsent : ∀ x ∈ a.preimages ++ b.preimages, d.hash256 x ≠ absent)
    (heq : digestOr d absent p = digestOr d absent q) : p = q := by
  have hmem {c : Request} {x : Bytes} (hx : some x ∈ c.parts) : x ∈ c.preimages :=
    List.reduceOption_mem_iff.mpr hx
  cases p with
  | none =>
    cases q with
    | none => rfl
    | some y => exact absurd heq.symm (habsent y (List.mem_append_right _ (hmem hq)))
  | some x =>
    cases q with
    | none => exact absurd heq (habsent x (List.mem_append_left _ (hmem hp)))
    | some y => rw [h.collisionFree x (hmem hp) y (hmem hq) heq]

variable {input input' : Input} {source source' : Output}

theorem agree_of_body_eq (htype : a.type = b.type) (ha : a.Bounded) (hb : b.Bounded)
    (hapart : a.DigestsApart d b)
    (hinput : a.tx.inputs[a.index]? = some input) (hinput' : b.tx.inputs[b.index]? = some input')
    (hsource : a.sources[a.index]? = some source) (hsource' : b.sources[b.index]? = some source')
    (h : a.body d input source = b.body d input' source') : a.Agree b := by
  -- Read from the start, every field but the covered bytecode has a width that the type fixes.
  obtain ⟨hversion, h⟩ := Wire.delimits_word32 _ _ trivial trivial _ _ h
  obtain ⟨houtpoints, h⟩ := List.append_inj h (by simp)
  have hwidth : (digestOr d [] a.utxosPart).length = (digestOr d [] b.utxosPart).length := by
    rw [length_digestOr_utxosPart, length_digestOr_utxosPart, htype]
  obtain ⟨hutxos, h⟩ := List.append_inj h hwidth
  obtain ⟨hsequences, h⟩ := List.append_inj h (by simp)
  obtain ⟨houtpoint, h⟩ := delimits_outpoint _ _ trivial trivial _ _ h
  obtain ⟨hcovered, h⟩ := Wire.delimits_byteString _ _ ha.covered hb.covered _ _ h
  obtain ⟨hvalue, h⟩ := Wire.delimits_word64 _ _ trivial trivial _ _ h
  obtain ⟨hsequence, h⟩ := Wire.delimits_word32 _ _ trivial trivial _ _ h
  obtain ⟨houtputs, hlockTime⟩ := List.append_inj h (by simp)
  -- The type fixes which parts are covered, but the output of one index may still be absent.
  have houtpoints := hapart.part_eq (by simp [parts]) (by simp [parts])
    hapart.ne_uncovered houtpoints
  have hsequences := hapart.part_eq (by simp [parts]) (by simp [parts])
    hapart.ne_uncovered hsequences
  have houtputs := hapart.part_eq (by simp [parts]) (by simp [parts])
    hapart.ne_uncovered houtputs
  have hutxos := hapart.part_eq (by simp [parts]) (by simp [parts])
    (fun _ _ ↦ List.ne_nil_of_length_pos (by simp)) hutxos
  obtain ⟨hall, hsingle⟩ := (outputsPart_eq_iff htype ha hb).mp houtputs
  exact {
    type := htype
    covered := hcovered
    version := hversion
    lockTime := Wire.word32_injective hlockTime
    outpoint := by rw [hinput, hinput', Option.map_some, Option.map_some, houtpoint]
    sequence := by rw [hinput, hinput', Option.map_some, Option.map_some, hsequence]
    value := by rw [hsource, hsource', Option.map_some, Option.map_some, hvalue]
    outpoints := (outpointsPart_eq_iff htype).mp houtpoints
    sequences := (sequencesPart_eq_iff htype).mp hsequences
    outputs := hall
    output := hsingle
    utxos := (utxosPart_eq_iff htype ha hb).mp hutxos }

theorem Agree.body_eq (h : a.Agree b) (ha : a.Bounded) (hb : b.Bounded)
    (hinput : a.tx.inputs[a.index]? = some input) (hinput' : b.tx.inputs[b.index]? = some input')
    (hsource : a.sources[a.index]? = some source) (hsource' : b.sources[b.index]? = some source') :
    a.body d input source = b.body d input' source' := by
  have houtpoint := h.outpoint
  have hsequence := h.sequence
  have hvalue := h.value
  rw [hinput, hinput', Option.map_some, Option.map_some] at houtpoint hsequence
  rw [hsource, hsource', Option.map_some, Option.map_some] at hvalue
  unfold body
  rw [h.version, h.covered, h.lockTime, Option.some.inj houtpoint, Option.some.inj hsequence,
    Option.some.inj hvalue, (outpointsPart_eq_iff h.type).mpr h.outpoints,
    (utxosPart_eq_iff h.type ha hb).mpr h.utxos, (sequencesPart_eq_iff h.type).mpr h.sequences,
    (outputsPart_eq_iff h.type ha hb).mpr ⟨h.outputs, h.output⟩]

/-- The request with this unlocking bytecode in the inputs. -/
def unlockedBy (a : Request) (unlocking : Nat → Bytes) : Request :=
  { a with tx := a.tx.unlockedBy unlocking }

theorem body_unlockedBy (unlocking : Nat → Bytes) (bytecode : Bytes) :
    (a.unlockedBy unlocking).body d { input with unlocking := bytecode } source =
      a.body d input source := by
  have htype : (a.unlockedBy unlocking).type = a.type := rfl
  have houtpoints := (outpointsPart_eq_iff htype).mpr fun _ ↦
    Transaction.map_unlockedBy (fun _ _ ↦ rfl) unlocking a.tx
  have hsequences := (sequencesPart_eq_iff htype).mpr fun _ _ ↦
    Transaction.map_unlockedBy (fun _ _ ↦ rfl) unlocking a.tx
  unfold body
  rw [houtpoints, hsequences]
  rfl

variable (a) in
theorem message_unlockedBy (unlocking : Nat → Bytes) :
    (a.unlockedBy unlocking).message d = a.message d := by
  have hinput : (a.unlockedBy unlocking).tx.inputs[a.index]? = a.tx.inputs[a.index]?.map
      fun input ↦ { input with unlocking := unlocking a.index } := List.getElem?_mapIdx
  have hlength : (a.unlockedBy unlocking).tx.inputs.length = a.tx.inputs.length :=
    List.length_mapIdx
  rw [message_eq, message_eq, hlength]
  change (match (a.unlockedBy unlocking).tx.inputs[a.index]? with | none => _ | some _ => _) = _
  rw [hinput]
  cases a.tx.inputs[a.index]? with
  | none => rfl
  | some input =>
    dsimp only [Option.map_some]
    rw [body_unlockedBy]
    rfl

/-- Signing messages commit to exactly what their type covers, as far as the digests in them tell
apart what they are of. No unlocking bytecode is ever covered. -/
theorem message_commits (d : DigestFamily) (a b : Request) :
    (∀ m n, a.message d = .ok m → b.message d = .ok n → a.Bounded → b.Bounded →
      a.DigestsApart d b → (m = n ↔ a.Agree b)) ∧
      ∀ unlocking, (a.unlockedBy unlocking).message d = a.message d := by
  refine ⟨fun m n hm hn ha hb hapart ↦ ?_, a.message_unlockedBy⟩
  obtain ⟨input, source, hinput, hsource, rfl⟩ := exists_body hm
  obtain ⟨input', source', hinput', hsource', rfl⟩ := exists_body hn
  constructor
  · intro h
    -- Where the optional digest stands is only known once the type is read, from the end.
    obtain ⟨hbody, hword⟩ := List.append_inj' h (by simp)
    have htype := SignatureType.byte_injective (UInt8.toUInt32_inj.mp (Wire.word32_injective hword))
    exact agree_of_body_eq htype ha hb hapart hinput hinput' hsource hsource' hbody
  · intro h
    rw [h.body_eq ha hb hinput hinput' hsource hsource', h.type]

/-- Where one output is covered and anyone can pay, the message stays the same if the other output,
all of the other input and the unlocking bytecode change, but not if the covered output is gone. -/
theorem message_commits_single :
    let tx : Transaction :=
      { inputs := [{ outpoint := { index := 4 }, sequence := 7 }, { unlocking := [0x51] }]
        outputs := [{ value := 5 }, { value := 3, locking := [0x51] }] }
    let tx' : Transaction :=
      { inputs := [{}, {}]
        outputs := [{}, { value := 3, locking := [0x51] }] }
    let a : Request := ⟨tx, [{}, { value := 9 }], 1, [0xac], ⟨.single, false, true, rfl⟩⟩
    let b : Request := { a with tx := tx' }
    let c : Request := { a with tx := { tx' with outputs := [{}] } }
    ∃ m n, a.message .standard = .ok m ∧ b.message .standard = .ok m ∧
      c.message .standard = .ok n ∧ m ≠ n := by
  intro tx tx' a b c
  obtain ⟨m, hm⟩ : ∃ m, a.message .standard = .ok m := ⟨_, rfl⟩
  obtain ⟨m', hm'⟩ : ∃ m', b.message .standard = .ok m' := ⟨_, rfl⟩
  obtain ⟨n, hn⟩ : ∃ n, c.message .standard = .ok n := ⟨_, rfl⟩
  have ha : a.Bounded := by constructor <;> decide +kernel
  have hb : b.Bounded := by constructor <;> decide +kernel
  have hc : c.Bounded := by constructor <;> decide +kernel
  have hab : a.DigestsApart .standard b := by constructor <;> decide +kernel
  have hac : a.DigestsApart .standard c := by constructor <;> decide +kernel
  have hagree : a.Agree b := by constructor <;> decide +kernel
  have hdiffer : ¬ a.Agree c := fun h ↦ absurd (h.output rfl) (by decide +kernel)
  have heq := ((message_commits .standard a b).1 m m' hm hm' ha hb hab).mpr hagree
  have hne := ((message_commits .standard a c).1 m n hm hn ha hc hac).not.mpr hdiffer
  exact ⟨m, n, hm, heq ▸ hm', hn, hne⟩

end Request

end Signing

end ScriptMachine
