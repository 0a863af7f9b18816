import ScriptMachine.Proofs.Instruction.Codec
import ScriptMachine.Proofs.Source.Reach
import ScriptMachine.Proofs.Source.Sampling

/-!
# Compiled texts and their traces

A compiled text accounts for every byte of its bytecode, and so for every instruction that is
evaluated, also in the evaluations inside it. The range of a sample is the smallest one around the
nodes that share a byte with its instructions.
-/

namespace ScriptMachine.Source

open Instruction (serialize encodedLength)

/-- A node of a script owns the instruction with this index where they share a byte of the
bytecode. -/
def Owns (t : Tree) (script : List Nat) (program : List Instruction) (index : Nat) (n : Node) :
    Prop :=
  ∃ earlier id later, script = earlier ++ id :: later ∧ t.get? id = some n ∧
    ∃ byte, (t.bytecode earlier).length ≤ byte ∧
      byte < (t.bytecode earlier).length + n.bytecode.length ∧
      (serialize (program.take index)).length ≤ byte ∧
      byte < (serialize (program.take (index + 1))).length

/-! ## Spans -/

section Spans

variable {t : Tree} {script : List Nat} {span : Span} {offset : Nat}

theorem bytecode_cons (t : Tree) (id : Nat) (script : List Nat) :
    t.bytecode (id :: script) = t.bytecode [id] ++ t.bytecode script := by
  simp [Tree.bytecode]

theorem length_bytecode_singleton {id : Nat} {n : Node} (h : t.get? id = some n) :
    (t.bytecode [id]).length = n.bytecode.length := by
  simp [Tree.bytecode, h]

theorem mem_spansFrom_cons_iff {first : Nat} :
    span ∈ spansFrom offset ((first :: script).filterMap t.get?) ↔
      (∃ n, t.get? first = some n ∧ 0 < n.bytecode.length ∧
        span = ⟨offset, offset + n.bytecode.length, n.range⟩) ∨
      span ∈ spansFrom (offset + (t.bytecode [first]).length) (script.filterMap t.get?) := by
  cases hfirst : t.get? first with
  | none => simp [hfirst, Tree.bytecode]
  | some n =>
    rw [List.filterMap_cons_some hfirst, spansFrom]
    have hlength := length_bytecode_singleton hfirst
    by_cases hn : 0 < n.bytecode.length
    · simp [hlength, hn]
    · simp [hlength, hn]

/-- The spans of a script are those of its nodes that have bytes. -/
theorem mem_spansFrom_iff :
    span ∈ spansFrom offset (script.filterMap t.get?) ↔
      ∃ earlier id later n, script = earlier ++ id :: later ∧ t.get? id = some n ∧
        0 < n.bytecode.length ∧
        span = ⟨offset + (t.bytecode earlier).length,
          offset + (t.bytecode earlier).length + n.bytecode.length, n.range⟩ := by
  induction script generalizing offset with
  | nil => simp [spansFrom]
  | cons first script ih =>
    rw [mem_spansFrom_cons_iff, ih]
    constructor
    · rintro (⟨n, hn, hpos, rfl⟩ | ⟨earlier, id, later, n, rfl, hn, hpos, rfl⟩)
      · exact ⟨[], first, script, n, rfl, hn, hpos, rfl⟩
      · refine ⟨first :: earlier, id, later, n, rfl, hn, hpos, ?_⟩
        simp only [bytecode_cons t first earlier, List.length_append, Nat.add_assoc]
    · rintro ⟨_ | ⟨head, earlier⟩, id, later, n, heq, hn, hpos, rfl⟩
      · cases heq
        exact .inl ⟨n, hn, hpos, rfl⟩
      · cases heq
        refine .inr ⟨earlier, id, later, n, rfl, hn, hpos, ?_⟩
        simp only [bytecode_cons t first earlier, List.length_append, Nat.add_assoc]

/-- Every byte of the bytecode of a script is in a span. -/
theorem exists_span_of_lt {byte : Nat} (hstart : offset ≤ byte)
    (hstop : byte < offset + (t.bytecode script).length) :
    ∃ span ∈ spansFrom offset (script.filterMap t.get?), span.start ≤ byte ∧ byte < span.stop := by
  induction script generalizing offset with
  | nil =>
    have hnil : (t.bytecode []).length = 0 := rfl
    omega
  | cons first script ih =>
    rw [bytecode_cons, List.length_append] at hstop
    by_cases hbyte : byte < offset + (t.bytecode [first]).length
    · cases hfirst : t.get? first with
      | none =>
        simp [Tree.bytecode, hfirst] at hbyte
        omega
      | some n =>
        have hlength := length_bytecode_singleton hfirst
        refine ⟨⟨offset, offset + n.bytecode.length, n.range⟩, ?_, hstart, hlength ▸ hbyte⟩
        exact mem_spansFrom_cons_iff.mpr (.inl ⟨n, hfirst, by omega, rfl⟩)
    · obtain ⟨span, hspan, hcovers⟩ := ih (Nat.le_of_not_lt hbyte) (by omega)
      exact ⟨span, mem_spansFrom_cons_iff.mpr (.inr hspan), hcovers⟩

end Spans

/-! ## Places of instructions -/

section Places

variable {t : Tree} {script : List Nat} {program : List Instruction} {index : Nat}

theorem encodedLength_pos (i : Instruction) : 0 < i.encodedLength := by
  rcases i with _ | _ | ⟨_, _, _, _ | _, _⟩ <;> simp only [encodedLength] <;> omega

theorem offset_eq (index : Nat) :
    (NodeMap.ofNodes t script program).offset index = (serialize (program.take index)).length := by
  rw [Instruction.length_serialize]
  rfl

theorem length_serialize_take_lt (h : index < program.length) :
    (serialize (program.take index)).length < (serialize (program.take (index + 1))).length := by
  have hpos := encodedLength_pos program[index]
  rw [List.take_add_one, List.getElem?_eq_getElem h]
  simp only [Instruction.length_serialize, total_append, Option.toList_some, total_cons, total_nil]
  omega

theorem length_serialize_take_le (index : Nat) :
    (serialize (program.take index)).length ≤ (serialize program).length := by
  have hsplit := total_append encodedLength (program.take index) (program.drop index)
  rw [List.take_append_drop] at hsplit
  simp only [Instruction.length_serialize]
  omega

/-- The spans that share a byte with an instruction are those of the nodes that own it. -/
theorem exists_owner_iff (h : index < program.length) (r : Range) :
    (∃ span ∈ (NodeMap.ofNodes t script program).owners (serialize (program.take index)).length
        (serialize (program.take (index + 1))).length, span.range = r) ↔
      ∃ n, Owns t script program index n ∧ n.range = r := by
  have hlt := length_serialize_take_lt h
  simp only [NodeMap.owners, List.mem_filter, decide_eq_true_eq]
  constructor
  · rintro ⟨span, ⟨hspan, hstart, hstop⟩, rfl⟩
    obtain ⟨earlier, id, later, n, hscript, hn, hpos, rfl⟩ := mem_spansFrom_iff.mp hspan
    dsimp only at hstart hstop
    rw [Nat.zero_add] at hstart hstop
    refine ⟨n, ⟨earlier, id, later, hscript, hn,
      max (t.bytecode earlier).length (serialize (program.take index)).length, ?_⟩, rfl⟩
    omega
  · rintro ⟨n, ⟨earlier, id, later, hscript, hn, byte, hbyte⟩, rfl⟩
    refine ⟨_, ⟨mem_spansFrom_iff.mpr ⟨earlier, id, later, n, hscript, hn, by omega, rfl⟩, ?_⟩, rfl⟩
    dsimp only
    omega

/-- Nodes that have the bytecode of a program account for each of its instructions. -/
theorem exists_locate? (hprogram : serialize program = t.bytecode script)
    (h : index < program.length) :
    ∃ place, (NodeMap.ofNodes t script program).locate? index = some place ∧
      Range.IsHull {r | ∃ n, Owns t script program index n ∧ n.range = r} place.range := by
  have hlt := length_serialize_take_lt h
  have hle : (serialize (program.take (index + 1))).length ≤ (t.bytecode script).length :=
    hprogram ▸ length_serialize_take_le (index + 1)
  have hmatched : (NodeMap.ofNodes t script program).matched = (t.bytecode script).length := by
    simp [NodeMap.ofNodes, hprogram]
  have hhull : ∀ r, (∃ n, Owns t script program index n ∧ n.range = r) ↔ _ := fun r ↦
    (exists_owner_iff h r).symm
  rw [NodeMap.locate?]
  simp only [offset_eq, hmatched]
  rw [if_neg (by simp only [NodeMap.ofNodes]; omega)]
  cases howners : (NodeMap.ofNodes t script program).owners
      (serialize (program.take index)).length (serialize (program.take (index + 1))).length with
  | nil =>
    -- The first byte of the instruction is in a span, which is an owner.
    have hcovered : (serialize (program.take index)).length < 0 + (t.bytecode script).length := by
      omega
    obtain ⟨span, hspan, hcovers⟩ := exists_span_of_lt (Nat.zero_le _) hcovered
    have hmem : span ∈ (NodeMap.ofNodes t script program).owners
        (serialize (program.take index)).length (serialize (program.take (index + 1))).length := by
      simp only [NodeMap.owners, List.mem_filter, decide_eq_true_eq]
      exact ⟨hspan, by omega, hcovers.2⟩
    rw [howners] at hmem
    cases hmem
  | cons first others =>
    refine ⟨_, rfl, ?_⟩
    simp only [hhull, howners]
    simpa [eq_comm] using Range.isHull_foldl_merge first.range (others.map Span.range)

theorem Sample.Represents.isHull_owners {sample : Sample} {steps : List (State × State)}
    (h : sample.Represents (.ofNodes t script program) steps)
    (hprogram : serialize program = t.bytecode script)
    (hsteps : ∀ step ∈ steps, step.1.pointer < program.length) :
    Range.IsHull {r | ∃ step ∈ steps, ∃ n, Owns t script program step.1.pointer n ∧ n.range = r}
      sample.range := by
  apply h.hull.of_parts
  · rintro _ ⟨step, hstep, place, hplace, rfl⟩
    obtain ⟨place', hplace', hhull⟩ := exists_locate? hprogram (hsteps step hstep)
    obtain rfl : place' = place := Option.some.inj (hplace'.symm.trans hplace)
    exact ⟨_, fun r hr ↦ ⟨step, hstep, hr⟩, hhull⟩
  · rintro _ ⟨step, hstep, howner⟩
    obtain ⟨place, hplace, hhull⟩ := exists_locate? hprogram (hsteps step hstep)
    exact ⟨place.range, ⟨step, hstep, place, hplace, rfl⟩, hhull.contains _ howner⟩

end Places

/-! ## Traces -/

section Traces

variable (m : Machine) (ctx : Context) {s : State}

variable {m ctx} in
theorem pointer_lt_of_mem_stepsOf {step : State × State} (h : step ∈ stepsOf (m.trace ctx s)) :
    step.1.pointer < s.program.length := by
  have hrunning := (Machine.of_mem_stepsOf_traceFor h).1
  have hmem : step.1 ∈ m.trace ctx s := (List.of_mem_zip h).1
  rw [← program_eq_of_mem_trace hmem]
  exact State.pointer_lt_of_not_halted hrunning

/-- Where the nodes have the bytecode of the program, all steps are sampled but for a last one that
fails, and no state is unmatched. The range of a sample is the smallest one around the nodes that
own one of its instructions. -/
theorem exists_groups_of_matching {t : Tree} {script : List Nat}
    (hprogram : serialize s.program = t.bytecode script) (evaluationRange : Range)
    (completion : Completion) :
    ∃ later groups left,
      (samples t evaluationRange script (m.debug ctx s completion)).1 =
          .opening evaluationRange s :: later ∧
        List.Forall₂ (fun sample steps ↦
          Sample.Represents (.ofNodes t script s.program) sample steps ∧
            Range.IsHull {r | ∃ step ∈ steps, ∃ n,
              Owns t script s.program step.1.pointer n ∧ n.range = r} sample.range) later groups ∧
        groups.flatten ++ left = stepsOf (m.debug ctx s completion).dropLast ∧
        (∀ step ∈ left, step.2.fault ≠ none) ∧
        (samples t evaluationRange script (m.debug ctx s completion)).2 = [] := by
  obtain ⟨later, groups, left, hsamples, hgroups, hsteps, hleft⟩ :=
    exists_groups_of_debug t evaluationRange script m ctx s completion
  have hlt : ∀ step ∈ groups.flatten ++ left, step.1.pointer < s.program.length := by
    intro step hstep
    rw [hsteps] at hstep
    exact pointer_lt_of_mem_stepsOf hstep
  rw [Machine.dropLast_debug]
  refine ⟨later, groups, left, hsamples, ?_, hsteps, ?_⟩
  · rw [List.forall₂_iff_zip] at hgroups ⊢
    refine ⟨hgroups.1, fun {sample steps} hzip ↦ ⟨hgroups.2 hzip, ?_⟩⟩
    apply (hgroups.2 hzip).isHull_owners hprogram
    intro step hstep
    apply hlt
    exact List.mem_append_left _ (List.mem_flatten_of_mem (List.of_mem_zip hzip).2 hstep)
  · generalize (samples t evaluationRange script (m.debug ctx s completion)).2 = unmatched
      at hleft ⊢
    cases hleft with
    | dropped step hfails =>
      rw [← hsteps] at hfails
      exact ⟨by simpa using hfails.fault_ne_none, rfl⟩
    | unmatched left hfails hunlocated =>
      cases left with
      | nil => exact ⟨by simp, rfl⟩
      | cons step left =>
        obtain ⟨place, hplace, -⟩ := exists_locate? hprogram (hlt step (by simp))
        have hnone := hunlocated step rfl
        rw [hplace] at hnone
        cases hnone

end Traces

/-! ## Evaluations inside -/

theorem Extraction.allUnmatchedIn_eq_nil_iff {es : List (Nat × Extraction)} :
    allUnmatchedIn es = [] ↔ ∀ e ∈ es, e.2.allUnmatched = [] := by
  induction es with
  | nil => simp [allUnmatchedIn]
  | cons e es ih => simp [allUnmatchedIn, ih]

theorem serialize_program_start (m : Machine) (ctx : Context) (bytecode : Bytes) :
    serialize (m.start ctx bytecode).program = bytecode :=
  Instruction.serialize_parse bytecode

theorem serialize_program_of_compile {m : Machine} {source : String} {c : Compilation}
    (hc : compile m source = .ok c) (ctx : Context) :
    serialize (m.start ctx c.script.bytecode).program = c.tree.bytecode c.script.script :=
  (serialize_program_start m ctx c.script.bytecode).trans (valid_of_compile hc).2

/-- The evaluations made for a node have no unmatched states. -/
theorem allUnmatched_of_mem_nestedAt {m : Machine} {whole : Range} {t : Tree}
    (h : t.Valid m whole) {id : Nat} {e : Nat × Extraction} (he : e ∈ nestedAt t id) :
    e.2.allUnmatched = [] := by
  induction id using Nat.strongRecOn generalizing e with
  | ind id ih =>
    have hwithin : ∀ script : List Nat, ∀ e ∈ script.flatMap fun child ↦
        if child < id then nestedAt t child else [], e.2.allUnmatched = [] := by
      intro script e he
      obtain ⟨child, -, hchild⟩ := List.mem_flatMap.mp he
      split at hchild
      · exact ih child ‹_› hchild
      · cases hchild
    rw [nestedAt] at he
    cases hnode : t.get? id with
    | none => simp [hnode] at he
    | some node =>
      rw [hnode] at he
      rcases List.mem_append.mp he with hown | hpush
      · cases hevaluation : node.evaluation? with
        | none => simp [hevaluation] at hown
        | some evaluation =>
          obtain ⟨source, trace⟩ := evaluation
          rw [hevaluation] at hown
          obtain rfl := List.mem_singleton.mp hown
          obtain rfl := h.trace_eq id node hnode source trace hevaluation
          obtain ⟨-, -, -, -, -, -, -, hunmatched⟩ := exists_groups_of_matching m {}
            (serialize_program_start m {} (t.bytecode source.script)) source.range .partway
          rw [Extraction.allUnmatched, List.append_eq_nil_iff]
          exact ⟨Extraction.allUnmatchedIn_eq_nil_iff.mpr (hwithin source.script), hunmatched⟩
      · cases hinside : node.push with
        | none => simp [hinside] at hpush
        | some inside =>
          rw [hinside] at hpush
          exact hwithin inside.script e hpush

/-- A compiled text matches the trace of its bytecode: no state is unmatched, neither in this
evaluation nor in those inside it. All steps but a last one that fails are sampled in groups, and
each sample has the smallest range around the nodes that own one of its instructions, which is
within the text. Positions of a text that is not too long are words of 32 bits. -/
theorem compiled_text_matches (m : Machine) (source : String) (c : Compilation)
    (hc : compile m source = .ok c) (ctx : Context) (completion : Completion) :
    let s := m.start ctx c.script.bytecode
    let trace := m.debug ctx s completion
    let e := extract c.tree c.script.range c.script.script trace
    e.allUnmatched = [] ∧
      (∃ groups left,
        groups.flatten ++ left = stepsOf trace.dropLast ∧
        (∀ step ∈ left, step.2.fault ≠ none) ∧
        List.Forall₂ (fun (sample : Sample) steps ↦
          steps ≠ [] ∧ sample.records = steps.map (fun step ↦ (step.1.next?, step.2)) ∧
          Range.IsHull {r | ∃ step ∈ steps, ∃ n,
            Owns c.tree c.script.script s.program step.1.pointer n ∧ n.range = r} sample.range ∧
          c.script.range.contains sample.range = true) e.samples.tail groups) ∧
      (source.length + 1 < 2 ^ 32 → c.EndsAt Position.FitsWords) := by
  intro s trace e
  obtain ⟨hvalid, -⟩ := valid_of_compile hc
  obtain ⟨later, groups, left, hsamples, hgroups, hsteps, hleft, hunmatched⟩ :=
    exists_groups_of_matching m ctx (serialize_program_of_compile hc ctx) c.script.range completion
  have htail : e.samples.tail = later := congrArg List.tail hsamples
  refine ⟨?_, ?_, fitsWords_of_compile hc⟩
  · change Extraction.allUnmatched (.mk _ _ _) = []
    rw [Extraction.allUnmatched, List.append_eq_nil_iff]
    refine ⟨Extraction.allUnmatchedIn_eq_nil_iff.mpr fun e he ↦ ?_, hunmatched⟩
    obtain ⟨id, -, hid⟩ := List.mem_flatMap.mp he
    exact allUnmatched_of_mem_nestedAt hvalid hid
  · rw [htail]
    refine ⟨groups, left, hsteps, hleft, hgroups.imp ?_⟩
    rintro sample steps ⟨hrepresents, hhull⟩
    refine ⟨hrepresents.ne_nil, hrepresents.records_eq, hhull, hhull.least _ ?_⟩
    rintro _ ⟨step, -, n, ⟨earlier, id, later, -, hn, -⟩, rfl⟩
    exact hvalid.within id n hn

/-- A push whose opcode is the result of an evaluation and whose data is the next node, and a node
of two instructions. -/
theorem compiled_text_matches_straddling :
    let m : Machine := {}
    ∃ c, compile m "$(OP_1 OP_2 OP_ADD) 0xaabbcc 0x5175" = .ok c ∧
      let trace := m.debug {} (m.start {} c.script.bytecode) .final
      let e := extract c.tree c.script.range c.script.script trace
      e.samples.tail.map (fun sample ↦ (sample.range, sample.records.length)) =
          [(⟨⟨1, 1⟩, ⟨1, 29⟩⟩, 1), (⟨⟨1, 30⟩, ⟨1, 36⟩⟩, 2)] ∧
        e.nested.map (·.2.samples.length) = [4] ∧ e.allUnmatched = [] ∧
        c.EndsAt Position.FitsWords := by
  intro m
  obtain ⟨c, hc, hranges, hnested⟩ :
      ∃ c, compile m "$(OP_1 OP_2 OP_ADD) 0xaabbcc 0x5175" = .ok c ∧
        let trace := m.debug {} (m.start {} c.script.bytecode) .final
        let e := extract c.tree c.script.range c.script.script trace
        e.samples.tail.map (fun sample ↦ (sample.range, sample.records.length)) =
            [(⟨⟨1, 1⟩, ⟨1, 29⟩⟩, 1), (⟨⟨1, 30⟩, ⟨1, 36⟩⟩, 2)] ∧
          e.nested.map (·.2.samples.length) = [4] :=
    exists_of_compile (by decide +kernel)
  obtain ⟨hunmatched, -, hwords⟩ := compiled_text_matches m _ c hc {} .final
  exact ⟨c, hc, hranges, hnested, hunmatched, hwords (by decide)⟩

end ScriptMachine.Source
