import ScriptMachine.Proofs.Machine.DeadRun
import ScriptMachine.Proofs.Source.Matching
import ScriptMachine.Source.Coverage

/-!
# Coverage

The gaps that ranges leave overlap none of them. So no instruction that took effect is in a part of
the text which is reported as not executed.
-/

namespace ScriptMachine.Source

/-! ## Gaps -/

namespace Position

variable {a cursor : Position} {whole : Range}

theorem le_of_lt_clampTo (hcursor : whole.start ≤ cursor) (h : cursor < a.clampTo whole) :
    a.clampTo whole ≤ a ∧ a.clampTo whole ≤ whole.stop := by
  unfold clampTo at *
  simp only [le_iff, lt_iff] at *
  split at h
  · omega
  · split at h
    · rename_i hstart hstop
      rw [if_neg hstart, if_pos hstop]
      omega
    · rename_i hstart hstop
      rw [if_neg hstart, if_neg hstop]
      omega

theorem le_of_clampTo_le (hstop : cursor < whole.stop)
    (h : a.clampTo whole ≤ cursor) : a ≤ cursor := by
  unfold clampTo at h
  simp only [le_iff, lt_iff] at *
  split at h
  · omega
  · split at h <;> omega

end Position

namespace Range

theorem ble_iff {a b : Range} :
    a.ble b = true ↔ a.start < b.start ∨ a.start = b.start ∧ a.stop ≤ b.stop := by
  simp [ble]

theorem start_le_of_ble {a b : Range} (h : a.ble b = true) : a.start ≤ b.start := by
  rcases ble_iff.mp h with hlt | ⟨heq, -⟩
  · exact hlt.1
  · exact heq ▸ Position.le_refl _

theorem ble_trans (a b c : Range) (hab : a.ble b = true) (hbc : b.ble c = true) :
    a.ble c = true := by
  obtain ⟨⟨_, _⟩, _, _⟩ := a
  obtain ⟨⟨_, _⟩, _, _⟩ := b
  obtain ⟨⟨_, _⟩, _, _⟩ := c
  simp only [ble_iff, Position.lt_iff, Position.le_iff, Position.mk.injEq] at *
  omega

theorem ble_total (a b : Range) : (a.ble b || b.ble a) = true := by
  obtain ⟨⟨_, _⟩, _, _⟩ := a
  obtain ⟨⟨_, _⟩, _, _⟩ := b
  simp only [Bool.or_eq_true, ble_iff, Position.lt_iff, Position.le_iff, Position.mk.injEq]
  omega

end Range

/-- A gap between `cursor` and the end of the whole, which overlaps none of the ranges. -/
structure IsGap (whole : Range) (cursor : Position) (ranges : List Range) (gap : Range) :
    Prop where
  start : cursor ≤ gap.start
  nonempty : gap.start < gap.stop
  stop : gap.stop ≤ whole.stop
  disjoint : ∀ r ∈ ranges, gap.overlaps r = false

theorem mem_gaps_cons_iff {whole : Range} {cursor : Position} {r : Range} {rest : List Range}
    {gap : Range} :
    gap ∈ gaps whole cursor (r :: rest) ↔
      (cursor < r.start.clampTo whole ∧ gap = ⟨cursor, r.start.clampTo whole⟩) ∨
        gap ∈ gaps whole (cursor.max (r.stop.clampTo whole)) rest := by
  rw [gaps]
  by_cases hlt : cursor < r.start.clampTo whole
  · simp [hlt]
  · simp [hlt]

theorem isGap_of_mem_gaps {whole : Range} {cursor : Position} {ranges : List Range} {gap : Range}
    (hsorted : ranges.Pairwise fun a b ↦ a.start ≤ b.start) (hcursor : whole.start ≤ cursor)
    (h : gap ∈ gaps whole cursor ranges) : IsGap whole cursor ranges gap := by
  induction ranges generalizing cursor with
  | nil =>
    rw [gaps] at h
    split at h
    · rename_i hlt
      obtain rfl := List.mem_singleton.mp h
      exact ⟨Position.le_refl _, hlt, Position.le_refl _, by simp⟩
    · cases h
  | cons r rest ih =>
    obtain ⟨hfirst, hrest⟩ := List.pairwise_cons.mp hsorted
    rcases mem_gaps_cons_iff.mp h with ⟨hlt, rfl⟩ | hgap
    · -- The gap ends where the first range starts, and all others start later.
      obtain ⟨hstart, hstop⟩ := Position.le_of_lt_clampTo hcursor hlt
      refine ⟨Position.le_refl _, hlt, hstop, fun other hother ↦ ?_⟩
      have hle : r.start ≤ other.start := by
        rcases List.mem_cons.mp hother with rfl | hother
        · exact Position.le_refl _
        · exact hfirst other hother
      rw [← Bool.not_eq_true, Range.overlaps_iff]
      rintro ⟨-, hoverlap⟩
      exact Position.not_lt.mpr (Position.le_trans hstart hle) hoverlap
    · have hle := cursor.le_max_left (r.stop.clampTo whole)
      have hclamp := cursor.le_max_right (r.stop.clampTo whole)
      have hlater := ih hrest (Position.le_trans hcursor hle) hgap
      have hstart : cursor ≤ gap.start := Position.le_trans hle hlater.start
      refine ⟨hstart, hlater.nonempty, hlater.stop, fun other hother ↦ ?_⟩
      rcases List.mem_cons.mp hother with rfl | hother
      · rw [← Bool.not_eq_true, Range.overlaps_iff]
        rintro ⟨hoverlap, -⟩
        have hinside := Position.lt_of_lt_of_le hlater.nonempty hlater.stop
        have hstop := Position.le_of_clampTo_le hinside (Position.le_trans hclamp hlater.start)
        exact Position.not_lt.mpr hstop hoverlap
      · exact hlater.disjoint other hother

theorem pairwise_ble_mergeSort (covered : List Range) :
    (covered.mergeSort Range.ble).Pairwise fun a b ↦ a.ble b = true :=
  List.pairwise_mergeSort Range.ble_trans Range.ble_total covered

theorem isGap_of_mem_uncovered {whole : Range} {covered : List Range} {gap : Range}
    (h : gap ∈ uncovered whole covered) : IsGap whole whole.start covered gap := by
  have hsorted := (pairwise_ble_mergeSort covered).imp Range.start_le_of_ble
  have hgap := isGap_of_mem_gaps hsorted (Position.le_refl _) h
  exact ⟨hgap.start, hgap.nonempty, hgap.stop,
    fun r hr ↦ hgap.disjoint r (List.mem_mergeSort.mpr hr)⟩

/-- What was not executed overlaps no executed sample. -/
theorem not_overlaps_of_mem_unexecuted {whole gap : Range} {hint : Option Position}
    {samples : List Sample} {sample : Sample}
    (h : gap ∈ unexecuted whole (samples.map Sample.brief) hint) (hsample : sample ∈ samples)
    (hexecuted : sample.executed = true) : gap.overlaps sample.range = false := by
  apply (isGap_of_mem_uncovered h).disjoint
  have hne : samples ≠ [] := List.ne_nil_of_mem hsample
  simp only [executedRanges, List.isEmpty_map, List.isEmpty_eq_false_iff.mpr hne]
  simp only [Bool.false_eq_true, if_false, List.mem_map, List.mem_filter]
  exact ⟨sample.brief, ⟨⟨sample, hsample, rfl⟩, hexecuted⟩, rfl⟩

/-! ## Steps that take effect -/

/-- The step changes a stack or the code separator. -/
def HasEffect (step : State × State) : Prop :=
  step.2.stack ≠ step.1.stack ∨ step.2.alt ≠ step.1.alt ∨ step.2.separator ≠ step.1.separator

instance (step : State × State) : Decidable (HasEffect step) :=
  inferInstanceAs (Decidable (_ ∨ _ ∨ _))

theorem executesNext_of_hasEffect {m : Machine} {ctx : Context} {s : State}
    {step : State × State} (h : step ∈ stepsOf (m.trace ctx s)) (heffect : HasEffect step) :
    step.1.executesNext = true := by
  obtain ⟨-, hstep⟩ := Machine.of_mem_stepsOf_traceFor h
  apply m.executesNext_of_not_sameData ctx
  intro hsame
  rw [← hstep] at hsame
  rcases heffect with hstack | halt | hseparator
  · exact hstack hsame.stack
  · exact halt hsame.alt
  · exact hseparator hsame.separator

theorem exists_sample_of_mem_flatten {R : Sample → List (State × State) → Prop}
    {later : List Sample} {groups : List (List (State × State))} {step : State × State}
    (h : List.Forall₂ R later groups) (hstep : step ∈ groups.flatten) :
    ∃ sample ∈ later, ∃ steps, step ∈ steps ∧ R sample steps := by
  induction h with
  | nil => cases hstep
  | @cons sample steps later groups hfirst hrest ih =>
    rw [List.flatten_cons, List.mem_append] at hstep
    rcases hstep with hstep | hstep
    · exact ⟨sample, List.mem_cons_self, steps, hstep, hfirst⟩
    · obtain ⟨other, hother, others, hmem, hR⟩ := ih hstep
      exact ⟨other, List.mem_cons_of_mem sample hother, others, hmem, hR⟩

/-- Where a compiled text is evaluated, and a step that does not fail changes a stack or the code
separator, no part that is reported as not executed overlaps a node which owns its instruction.
Positions of a text that is not too long are words of 32 bits. -/
theorem effects_are_executed (m : Machine) (source : String) (c : Compilation)
    (hc : compile m source = .ok c) (ctx : Context) (completion : Completion) :
    let s := m.start ctx c.script.bytecode
    let trace := m.debug ctx s completion
    let e := extract c.tree c.script.range c.script.script trace
    (∀ step ∈ stepsOf trace.dropLast, step.2.fault = none → HasEffect step →
      ∀ n, Owns c.tree c.script.script s.program step.1.pointer n →
        ∀ gap ∈ unexecuted c.script.range (e.samples.map Sample.brief) none,
          gap.overlaps n.range = false) ∧
      (source.length + 1 < 2 ^ 32 → c.EndsAt Position.FitsWords) := by
  intro s trace e
  refine ⟨fun step hstep hfault heffect n howns gap hgap ↦ ?_, fitsWords_of_compile hc⟩
  obtain ⟨later, groups, left, hsamples, hgroups, hsteps, hleft, -⟩ :=
    exists_groups_of_matching m ctx (serialize_program_of_compile hc ctx) c.script.range completion
  have hgroup : step ∈ groups.flatten := by
    rw [← hsteps, List.mem_append] at hstep
    exact hstep.resolve_right fun hmem ↦ hleft step hmem hfault
  obtain ⟨sample, hsample, steps, hmem, hrepresents, hhull⟩ :=
    exists_sample_of_mem_flatten hgroups hgroup
  have hexecuted : sample.executed = true := by
    rw [Machine.dropLast_debug] at hstep
    rw [hrepresents.executed_eq, List.any_eq_true]
    exact ⟨step, hmem, by simp [executesNext_of_hasEffect hstep heffect]⟩
  have hgap' : gap.overlaps sample.range = false := by
    have hsamples' : e.samples = .opening c.script.range s :: later := hsamples
    apply not_overlaps_of_mem_unexecuted hgap _ hexecuted
    rw [hsamples']
    exact List.mem_cons_of_mem _ hsample
  rw [← Bool.not_eq_true] at hgap' ⊢
  intro hoverlap
  apply hgap'
  exact Range.overlaps_of_contains (hhull.contains n.range ⟨step, hmem, n, howns, rfl⟩) hoverlap

/-- The branch that is taken pushes a number; the other one is reported, and so are the blanks. -/
theorem effects_are_executed_branch :
    let m : Machine := {}
    ∃ c, compile m "OP_1 OP_IF OP_2 OP_ELSE OP_3 OP_ENDIF" = .ok c ∧
      let s := m.start {} c.script.bytecode
      let trace := m.debug {} s .final
      let e := extract c.tree c.script.range c.script.script trace
      let unexecuted := unexecuted c.script.range (e.samples.map Sample.brief) none
      unexecuted = [⟨⟨1, 5⟩, ⟨1, 6⟩⟩, ⟨⟨1, 11⟩, ⟨1, 12⟩⟩, ⟨⟨1, 16⟩, ⟨1, 17⟩⟩, ⟨⟨1, 24⟩, ⟨1, 30⟩⟩] ∧
        ∃ step ∈ stepsOf trace.dropLast, step.2.fault = none ∧ HasEffect step ∧
          ∃ n, Owns c.tree c.script.script s.program step.1.pointer n ∧
            n.range = ⟨⟨1, 12⟩, ⟨1, 16⟩⟩ ∧ ∀ gap ∈ unexecuted, gap.overlaps n.range = false := by
  intro m
  obtain ⟨c, hc, hsorted, hgaps, hscript, hnode, hlength, step, hstep, hfault, heffect, hbyte⟩ :
      ∃ c, compile m "OP_1 OP_IF OP_2 OP_ELSE OP_3 OP_ENDIF" = .ok c ∧
        let s := m.start {} c.script.bytecode
        let trace := m.debug {} s .final
        let e := extract c.tree c.script.range c.script.script trace
        let executed := executedRanges (e.samples.map Sample.brief) none
        executed.Pairwise (fun a b ↦ a.ble b = true) ∧
          gaps c.script.range c.script.range.start executed =
            [⟨⟨1, 5⟩, ⟨1, 6⟩⟩, ⟨⟨1, 11⟩, ⟨1, 12⟩⟩, ⟨⟨1, 16⟩, ⟨1, 17⟩⟩, ⟨⟨1, 24⟩, ⟨1, 30⟩⟩] ∧
          c.script.script = [0, 1] ++ 2 :: [3, 4, 5] ∧
          c.tree.get? 2 = some { bytecode := [0x52], range := ⟨⟨1, 12⟩, ⟨1, 16⟩⟩ } ∧
          (c.tree.bytecode [0, 1]).length = 2 ∧
          ∃ step ∈ stepsOf trace.dropLast, step.2.fault = none ∧ HasEffect step ∧
            (Instruction.serialize (s.program.take step.1.pointer)).length ≤ 2 ∧
            2 < (Instruction.serialize (s.program.take (step.1.pointer + 1))).length :=
    exists_of_compile (by decide +kernel)
  have howns : Owns c.tree c.script.script (m.start {} c.script.bytecode).program
      step.1.pointer { bytecode := [0x52], range := ⟨⟨1, 12⟩, ⟨1, 16⟩⟩ } :=
    ⟨[0, 1], 2, [3, 4, 5], hscript, hnode, 2, hlength.le, by simp [hlength], hbyte⟩
  rw [← List.mergeSort_of_pairwise hsorted] at hgaps
  exact ⟨c, hc, hgaps, step, hstep, hfault, heffect, _, howns, rfl,
    (effects_are_executed m _ c hc {} .final).1 step hstep hfault heffect _ howns⟩

end ScriptMachine.Source
