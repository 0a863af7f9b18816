import ScriptMachine.Proofs.Machine.Trace
import ScriptMachine.Proofs.Machine.Transition
import ScriptMachine.Proofs.Source.Range
import ScriptMachine.Source.Extraction

/-!
# Samples and steps

The samples of a trace, but for the first, stand for groups of steps that follow each other. No step
is lost between the groups. The steps that are left at the end were not sampled because one of them
could not be located, or because the last one failed at the start of a node.
-/

namespace ScriptMachine.Source

namespace Sample

/-- The instructions of a sample, each with the state that it led to. -/
def records (s : Sample) : List (Option Instruction × State) :=
  s.internal.map (fun (i, state) ↦ (some i, state)) ++ [(s.instruction, s.state)]

/-- The states of a sample, its own one last. -/
def states (s : Sample) : List State := s.internal.map Prod.snd ++ [s.state]

theorem map_snd_records (s : Sample) : s.records.map Prod.snd = s.states := by
  simp [records, states, Function.comp_def]

theorem records_extend {s : Sample} (h : s.instruction.isSome = true) (i : Instruction)
    (state : State) (range : Range) (executed : Bool) :
    (s.extend i state range executed).records = s.records ++ [(some i, state)] := by
  obtain ⟨prior, hprior⟩ := Option.isSome_iff_exists.mp h
  simp [records, extend, hprior]

/-- A sample of steps has their instructions, the smallest range around the places of these, and is
executed where one of them took effect or failed. -/
structure Represents (map : NodeMap) (s : Sample) (steps : List (State × State)) : Prop where
  records_eq : s.records = steps.map fun step ↦ (step.1.next?, step.2)
  begun : s.instruction.isSome = true
  hull : Range.IsHull
    {r | ∃ step ∈ steps, ∃ place ∈ map.locate? step.1.pointer, place.range = r} s.range
  executed_eq : s.executed = steps.any fun step ↦ step.2.fault.isSome || step.1.executesNext

variable {map : NodeMap} {before after : State} {i : Instruction} {place : Location}

theorem represents_fresh (evaluationRange : Range) (hnext : before.next? = some i)
    (hplace : map.locate? before.pointer = some place) :
    Represents map
      { evaluationRange := evaluationRange, range := place.range, state := after,
        instruction := some i, executed := after.fault.isSome || before.executesNext }
      [(before, after)] where
  records_eq := by simp [records, hnext]
  begun := rfl
  hull := by simpa [hplace] using Range.isHull_singleton place.range
  executed_eq := by simp

theorem Represents.extend {s : Sample} {steps : List (State × State)} (h : s.Represents map steps)
    (hnext : before.next? = some i) (hplace : map.locate? before.pointer = some place) :
    (s.extend i after place.range (after.fault.isSome || before.executesNext)).Represents map
      (steps ++ [(before, after)]) where
  records_eq := by simp [records_extend h.begun, h.records_eq, hnext]
  begun := rfl
  hull := by
    have hunion := h.hull.union (Range.isHull_singleton place.range)
    have hset : {r | ∃ step ∈ steps ++ [(before, after)],
        ∃ place ∈ map.locate? step.1.pointer, place.range = r} =
        {r | ∃ step ∈ steps, ∃ place ∈ map.locate? step.1.pointer, place.range = r} ∪
          {place.range} := by
      ext r
      simp [or_and_right, exists_or, hplace, eq_comm, or_comm]
    rw [hset]
    exact hunion
  executed_eq := by simp [Sample.extend, h.executed_eq]

theorem Represents.ne_nil {s : Sample} {steps : List (State × State)} (h : s.Represents map steps) :
    steps ≠ [] := by
  rintro rfl
  have hrecords := h.records_eq
  simp [records] at hrecords

end Sample

/-! ## Steps without a sample -/

namespace NodeMap

variable (map : NodeMap)

/-- The instruction starts after the first byte of its node and follows the one evaluated before it,
in the state `prior`. -/
def Continues (prior : Option State) (before : State) : Prop :=
  (∃ place ∈ map.locate? before.pointer, place.continuesNode = true) ∧
    ∃ earlier ∈ prior, earlier.pointer + 1 = before.pointer

/-- All steps are located, and the last one fails at an instruction that does not continue the node
of the step before it. -/
structure FailsAtStart (prior : Option State) (steps : List (State × State)) : Prop where
  located : ∀ step ∈ steps, (map.locate? step.1.pointer).isSome = true
  failed : ∃ last ∈ steps.getLast?, last.2.fault ≠ none ∧
    ¬ map.Continues ((steps.dropLast.getLast?.map Prod.fst).or prior) last.1

instance (prior : Option State) (before : State) : Decidable (map.Continues prior before) :=
  inferInstanceAs (Decidable (_ ∧ _))

instance (prior : Option State) (steps : List (State × State)) :
    Decidable (map.FailsAtStart prior steps) :=
  decidable_of_iff (_ ∧ _) ⟨fun h ↦ ⟨h.1, h.2⟩, fun h ↦ ⟨h.located, h.failed⟩⟩

variable {map} {prior : Option State} {step : State × State} {steps : List (State × State)}

theorem not_failsAtStart_nil : ¬ map.FailsAtStart prior [] := by
  rintro ⟨-, last, hlast, -⟩
  simp at hlast

theorem failsAtStart_singleton_iff :
    map.FailsAtStart prior [step] ↔
      (map.locate? step.1.pointer).isSome = true ∧ step.2.fault ≠ none ∧
        ¬ map.Continues prior step.1 := by
  constructor
  · rintro ⟨hlocated, last, hlast, hfault, hcontinues⟩
    obtain rfl : step = last := by simpa using hlast
    exact ⟨hlocated step (by simp), hfault, hcontinues⟩
  · rintro ⟨hlocated, hfault, hcontinues⟩
    exact ⟨by simpa using hlocated, step, by simp, hfault, hcontinues⟩

theorem failsAtStart_cons_cons_iff {next : State × State} :
    map.FailsAtStart prior (step :: next :: steps) ↔
      (map.locate? step.1.pointer).isSome = true ∧
        map.FailsAtStart (some step.1) (next :: steps) := by
  have hprior : ((step :: next :: steps).dropLast.getLast?.map Prod.fst).or prior =
      ((next :: steps).dropLast.getLast?.map Prod.fst).or (some step.1) := by
    rw [List.dropLast_cons_cons, List.getLast?_cons]
    cases (next :: steps).dropLast.getLast? <;> rfl
  constructor
  · rintro ⟨hlocated, last, hlast, hfault, hcontinues⟩
    rw [List.forall_mem_cons] at hlocated
    rw [List.getLast?_cons_cons] at hlast
    rw [hprior] at hcontinues
    exact ⟨hlocated.1, hlocated.2, last, hlast, hfault, hcontinues⟩
  · rintro ⟨hfirst, hlocated, last, hlast, hfault, hcontinues⟩
    rw [← hprior] at hcontinues
    exact ⟨List.forall_mem_cons.mpr ⟨hfirst, hlocated⟩, last, by rwa [List.getLast?_cons_cons],
      hfault, hcontinues⟩

/-- A step that gets a sample decides nothing. -/
theorem failsAtStart_cons_iff (hlocated : (map.locate? step.1.pointer).isSome = true)
    (hsampled : map.Continues prior step.1 ∨ step.2.fault = none) :
    map.FailsAtStart prior (step :: steps) ↔ map.FailsAtStart (some step.1) steps := by
  cases steps with
  | nil =>
    rw [failsAtStart_singleton_iff]
    have hnil : ¬ map.FailsAtStart (some step.1) [] := not_failsAtStart_nil
    tauto
  | cons next steps => simp [failsAtStart_cons_cons_iff, hlocated]

theorem FailsAtStart.fault_ne_none {earlier : List (State × State)}
    (h : map.FailsAtStart prior (earlier ++ [step])) : step.2.fault ≠ none := by
  obtain ⟨-, last, hlast, hfault, -⟩ := h
  obtain rfl : step = last := by simpa using hlast
  exact hfault

end NodeMap

/-- The steps that are left without a sample, and the states that are reported for them: the last
step, for which none is reported, or all steps from the first one that is not located. -/
inductive Leftover (map : NodeMap) (prior : Option State) (steps : List (State × State)) :
    List (State × State) → List State → Prop
  | dropped (step : State × State) (h : map.FailsAtStart prior steps) :
      Leftover map prior steps [step] []
  | unmatched (left : List (State × State)) (h : ¬ map.FailsAtStart prior steps)
      (hleft : ∀ step ∈ left.head?, map.locate? step.1.pointer = none) :
      Leftover map prior steps left (left.map Prod.snd)

theorem Leftover.congr {map : NodeMap} {prior prior' : Option State}
    {steps steps' left : List (State × State)} {unmatched : List State}
    (heq : map.FailsAtStart prior steps ↔ map.FailsAtStart prior' steps')
    (h : Leftover map prior' steps' left unmatched) : Leftover map prior steps left unmatched := by
  cases h with
  | dropped step h => exact .dropped step (heq.mpr h)
  | unmatched left h hleft => exact .unmatched left (fun hfails ↦ h (heq.mp hfails)) hleft

theorem leftover_of_locate?_eq_none {map : NodeMap} {before : State}
    (hplace : map.locate? before.pointer = none) (prior : Option State) (after : State)
    (rest : List State) :
    Leftover map prior (stepsOf (before :: after :: rest)) (stepsOf (before :: after :: rest))
      (after :: rest) := by
  have hfails : ¬ map.FailsAtStart prior (stepsOf (before :: after :: rest)) := by
    intro hfails
    have hlocated := hfails.located (before, after) (by simp)
    simp [hplace] at hlocated
  have hleft := Leftover.unmatched (stepsOf (before :: after :: rest)) hfails
    (by simpa using hplace)
  rwa [map_snd_stepsOf] at hleft

/-! ## Collecting samples -/

/-- What can happen to the rest of a trace: it is at its end, its next step is not located, fails at
the start of a node, continues the current sample, or starts a new one. -/
inductive Collected (map : NodeMap) (evaluationRange : Range) :
    Sample → Option State → State → List State → List Sample → List State → Prop
  | finished {current : Sample} {prior : Option State} {before : State} :
      Collected map evaluationRange current prior before [] [current] []
  | unmatched {current : Sample} {prior : Option State} {before after : State}
      {rest : List State} (hplace : map.locate? before.pointer = none) :
      Collected map evaluationRange current prior before (after :: rest) [current] (after :: rest)
  | failed {current : Sample} {prior : Option State} {before after : State} {place : Location}
      (hplace : map.locate? before.pointer = some place) (hnew : ¬ map.Continues prior before)
      (hfault : after.fault ≠ none) :
      Collected map evaluationRange current prior before [after] [current] []
  | extended {current : Sample} {prior : Option State} {before after : State} {rest : List State}
      {samples : List Sample} {unmatched : List State} {i : Instruction} {place : Location}
      (hnext : before.next? = some i) (hplace : map.locate? before.pointer = some place)
      (hcontinues : map.Continues prior before)
      (h : Collected map evaluationRange
        (current.extend i after place.range (after.fault.isSome || before.executesNext))
        (some before) after rest samples unmatched) :
      Collected map evaluationRange current prior before (after :: rest) samples unmatched
  | started {current : Sample} {prior : Option State} {before after : State} {rest : List State}
      {samples : List Sample} {unmatched : List State} {i : Instruction} {place : Location}
      (hnext : before.next? = some i) (hplace : map.locate? before.pointer = some place)
      (hfault : after.fault = none)
      (h : Collected map evaluationRange
        { evaluationRange := evaluationRange, range := place.range, state := after,
          instruction := some i, executed := after.fault.isSome || before.executesNext }
        (some before) after rest samples unmatched) :
      Collected map evaluationRange current prior before (after :: rest) (current :: samples)
        unmatched

section Collected

variable {map : NodeMap} {evaluationRange : Range}

theorem NodeMap.index_lt_of_locate? {index : Nat} {place : Location}
    (h : map.locate? index = some place) : index < map.program.length := by
  by_contra hlength
  rw [locate?] at h
  simp [Nat.le_of_not_lt hlength] at h

theorem exists_next?_of_locate? {before : State} {place : Location}
    (hprogram : before.program = map.program) (h : map.locate? before.pointer = some place) :
    ∃ i, before.next? = some i := by
  have hlt := NodeMap.index_lt_of_locate? h
  rw [← hprogram] at hlt
  exact ⟨_, List.getElem?_eq_getElem hlt⟩

theorem continues_iff {prior : Option State} {before : State} {place : Location}
    (hplace : map.locate? before.pointer = some place) :
    map.Continues prior before ↔
      (place.continuesNode && (prior.map State.pointer).any (· + 1 == before.pointer)) = true := by
  simp [NodeMap.Continues, hplace, Option.any_eq_true]

/-- Where only the last state may have a fault, samples are collected in one of these ways. -/
theorem collected_collect (map : NodeMap) (evaluationRange : Range) (current : Sample)
    (prior : Option State) (before : State) (rest : List State)
    (hsteps : ∀ step ∈ stepsOf (before :: rest),
      step.1.fault = none ∧ step.1.program = map.program) :
    Collected map evaluationRange current prior before rest
      (collect map evaluationRange current (prior.map State.pointer) before rest).1
      (collect map evaluationRange current (prior.map State.pointer) before rest).2 := by
  induction rest generalizing current prior before with
  | nil => exact .finished
  | cons after rest ih =>
    rw [stepsOf_cons_cons, List.forall_mem_cons] at hsteps
    obtain ⟨⟨-, hprogram⟩, hrest⟩ := hsteps
    -- A fault ends the trace, so that there is no further step to sample.
    have hlast : after.fault ≠ none → rest = [] := by
      intro hfault
      cases rest with
      | nil => rfl
      | cons next rest => exact absurd (hrest (after, next) (by simp)).1 hfault
    rw [collect]
    cases hplace : map.locate? before.pointer with
    | none =>
      cases before.next? <;> exact .unmatched hplace
    | some place =>
      obtain ⟨i, hnext⟩ := exists_next?_of_locate? hprogram hplace
      simp only [hnext]
      split
      · rename_i hcontinues
        have hcontinues' := (continues_iff hplace).mpr hcontinues
        split
        · rename_i hfault
          obtain rfl := hlast (Option.isSome_iff_ne_none.mp hfault)
          exact .extended hnext hplace hcontinues' .finished
        · exact .extended hnext hplace hcontinues' (ih _ (some before) after hrest)
      · rename_i hnew
        have hnew' := mt (continues_iff hplace).mp hnew
        split
        · rename_i hfault
          have hfault' := Option.isSome_iff_ne_none.mp hfault
          obtain rfl := hlast hfault'
          exact .failed hplace hnew' hfault'
        · rename_i hfault
          have hfault' : after.fault = none := by simpa using hfault
          exact .started hnext hplace hfault' (ih _ (some before) after hrest)

variable {current : Sample} {prior : Option State} {before : State} {rest : List State}
  {samples : List Sample} {unmatched : List State}

/-- From a sample of steps on, the samples stand for these steps and those that follow, up to some
that are left over. -/
theorem Collected.exists_groups {group : List (State × State)}
    (h : Collected map evaluationRange current prior before rest samples unmatched)
    (hcurrent : current.Represents map group) :
    ∃ groups left, List.Forall₂ (Sample.Represents map) samples groups ∧
      groups.flatten ++ left = group ++ stepsOf (before :: rest) ∧
      Leftover map prior (stepsOf (before :: rest)) left unmatched := by
  induction h generalizing group with
  | finished =>
    exact ⟨[group], [], by simpa using hcurrent, by simp,
      .unmatched [] NodeMap.not_failsAtStart_nil (by simp)⟩
  | @unmatched current prior before after rest hplace =>
    exact ⟨[group], _, by simpa using hcurrent, by simp,
      leftover_of_locate?_eq_none hplace prior after rest⟩
  | @failed current prior before after place hplace hnew hfault =>
    refine ⟨[group], [(before, after)], by simpa using hcurrent, by simp, .dropped _ ?_⟩
    exact NodeMap.failsAtStart_singleton_iff.mpr ⟨by simp [hplace], hfault, hnew⟩
  | @extended current prior before after rest samples unmatched i place hnext hplace hcontinues h
      ih =>
    obtain ⟨groups, left, hgroups, hsteps, hleft⟩ := ih (hcurrent.extend hnext hplace)
    refine ⟨groups, left, hgroups, by simpa using hsteps, hleft.congr ?_⟩
    exact NodeMap.failsAtStart_cons_iff (by simp [hplace]) (.inl hcontinues)
  | @started current prior before after rest samples unmatched i place hnext hplace hfault h ih =>
    obtain ⟨groups, left, hgroups, hsteps, hleft⟩ :=
      ih (Sample.represents_fresh evaluationRange hnext hplace)
    refine ⟨group :: groups, left, .cons hcurrent hgroups, by simp [hsteps], hleft.congr ?_⟩
    exact NodeMap.failsAtStart_cons_iff (by simp [hplace]) (.inr hfault)

/-- Nothing continues the sample that stands before all steps. -/
theorem Collected.exists_groups_of_start
    (h : Collected map evaluationRange current none before rest samples unmatched) :
    ∃ later groups left, samples = current :: later ∧
      List.Forall₂ (Sample.Represents map) later groups ∧
      groups.flatten ++ left = stepsOf (before :: rest) ∧
      Leftover map none (stepsOf (before :: rest)) left unmatched := by
  cases h with
  | finished =>
    exact ⟨[], [], [], rfl, .nil, rfl, .unmatched [] NodeMap.not_failsAtStart_nil (by simp)⟩
  | @unmatched _ _ _ after rest hplace =>
    exact ⟨[], [], _, rfl, .nil, rfl, leftover_of_locate?_eq_none hplace none after rest⟩
  | @failed _ _ _ after place hplace hnew hfault =>
    refine ⟨[], [], [(before, after)], rfl, .nil, rfl, .dropped _ ?_⟩
    exact NodeMap.failsAtStart_singleton_iff.mpr ⟨by simp [hplace], hfault, hnew⟩
  | extended hnext hplace hcontinues h =>
    obtain ⟨-, earlier, hearlier, -⟩ := hcontinues
    cases hearlier
  | @started _ _ _ after rest later _ i place hnext hplace hfault h =>
    obtain ⟨groups, left, hgroups, hsteps, hleft⟩ :=
      h.exists_groups (Sample.represents_fresh evaluationRange hnext hplace)
    refine ⟨later, groups, left, rfl, hgroups, by simp [hsteps], hleft.congr ?_⟩
    exact NodeMap.failsAtStart_cons_iff (by simp [hplace]) (.inr hfault)

end Collected

/-! ## Traces -/

/-- The sample that stands at the start of a text, before any step. -/
def Sample.opening (evaluationRange : Range) (s : State) : Sample where
  evaluationRange := evaluationRange
  range := .point evaluationRange.start
  state := s

section Traces

variable {m : Machine} {ctx : Context} {s : State}

theorem program_eq_of_mem_trace {t : State} (h : t ∈ m.trace ctx s) : t.program = s.program := by
  obtain ⟨earlier, later, htrace⟩ := List.append_of_mem h
  obtain ⟨rfl, -⟩ := Machine.traceFor_eq_append htrace
  exact Machine.iterate_invariant (P := fun t ↦ t.program = s.program)
    (fun _ _ hstep hprogram ↦ hstep.program_eq.trans hprogram) rfl _

theorem evaluatedStates_debug (completion : Completion) :
    evaluatedStates (m.debug ctx s completion) = m.trace ctx s := by
  obtain ⟨rest, hrest⟩ := m.trace_eq_cons ctx s
  rw [Machine.debug_eq, hrest]
  cases rest with
  | nil => rfl
  | cons t rest =>
    change (s :: t :: rest ++ [(m.evaluate ctx s).complete completion]).dropLast = _
    rw [List.dropLast_concat]

/-- The samples of a trace stand for groups of its steps, up to some that are left over. -/
theorem exists_groups_of_debug (t : Tree) (evaluationRange : Range) (script : List Nat)
    (m : Machine) (ctx : Context) (s : State) (completion : Completion) :
    ∃ later groups left,
      (samples t evaluationRange script (m.debug ctx s completion)).1 =
          .opening evaluationRange s :: later ∧
        List.Forall₂ (Sample.Represents (.ofNodes t script s.program)) later groups ∧
        groups.flatten ++ left = stepsOf (m.trace ctx s) ∧
        Leftover (.ofNodes t script s.program) none (stepsOf (m.trace ctx s)) left
          (samples t evaluationRange script (m.debug ctx s completion)).2 := by
  obtain ⟨rest, hrest⟩ := m.trace_eq_cons ctx s
  have hsteps : ∀ step ∈ stepsOf (s :: rest),
      step.1.fault = none ∧ step.1.program = (NodeMap.ofNodes t script s.program).program := by
    intro step hstep
    rw [← hrest] at hstep
    obtain ⟨hrunning, -⟩ := Machine.of_mem_stepsOf_traceFor hstep
    have hmem : step.1 ∈ m.trace ctx s := (List.of_mem_zip hstep).1
    exact ⟨State.fault_eq_none_of_not_halted hrunning, program_eq_of_mem_trace hmem⟩
  rw [samples, evaluatedStates_debug, hrest]
  exact (collected_collect _ evaluationRange (.opening evaluationRange s) none s rest
    hsteps).exists_groups_of_start

end Traces

end ScriptMachine.Source
