import ScriptMachine.Proofs.Source.Sampling

/-!
# States are conserved

Every state of a trace is in one sample or is reported as unmatched, and their order is kept. One
state at most is left out: that of a step which fails at the start of a node, where all steps before
it were located.
-/

namespace ScriptMachine.Source

theorem flatMap_records_eq {map : NodeMap} {later : List Sample}
    {groups : List (List (State × State))}
    (h : List.Forall₂ (Sample.Represents map) later groups) :
    later.flatMap Sample.records =
      groups.flatten.map fun step ↦ (step.1.next?, step.2) := by
  induction h with
  | nil => rfl
  | cons hfirst _ ih =>
    rw [List.flatMap_cons, hfirst.records_eq, ih, List.flatten_cons, List.map_append]

theorem flatMap_states_eq {map : NodeMap} {later : List Sample}
    {groups : List (List (State × State))}
    (h : List.Forall₂ (Sample.Represents map) later groups) :
    later.flatMap Sample.states = groups.flatten.map Prod.snd := by
  have hstates : later.flatMap Sample.states = (later.flatMap Sample.records).map Prod.snd := by
    simp only [List.map_flatMap, Sample.map_snd_records]
  rw [hstates, flatMap_records_eq h, List.map_map]
  rfl

theorem Leftover.map_snd_append {map : NodeMap} {prior : Option State} {s : State}
    {rest : List State} {sampled left : List (State × State)} {unmatched : List State}
    (h : Leftover map prior (stepsOf (s :: rest)) left unmatched)
    (hsteps : sampled ++ left = stepsOf (s :: rest)) :
    s :: sampled.map Prod.snd ++ unmatched =
      if map.FailsAtStart prior (stepsOf (s :: rest)) then (s :: rest).dropLast else s :: rest := by
  have hrest : rest = sampled.map Prod.snd ++ left.map Prod.snd := by
    rw [← List.map_append, hsteps, map_snd_stepsOf]
  cases h with
  | dropped step hfails =>
    rw [if_pos hfails, hrest, List.map_singleton, ← List.cons_append, List.dropLast_concat,
      List.append_nil]
  | unmatched left hfails hleft =>
    rw [if_neg hfails, hrest, List.cons_append]

/-- The samples of a trace hold its states in order, then come the unmatched ones, and only the last
state is left out, where its step fails at the start of a node and all steps were located. The first
sample holds the first state and no instruction; every later state of a sample stands with the
instruction that led to it. -/
theorem states_conserved (t : Tree) (evaluationRange : Range) (script : List Nat) (m : Machine)
    (ctx : Context) (s : State) (completion : Completion) :
    let states := (m.debug ctx s completion).dropLast
    let e := extractFlat t evaluationRange script (m.debug ctx s completion)
    let map := NodeMap.ofNodes t script s.program
    e.samples.flatMap Sample.states ++ e.unmatched =
        (if map.FailsAtStart none (stepsOf states) then states.dropLast else states) ∧
      (∃ first later, e.samples = first :: later ∧ first.instruction = none ∧
        first.internal = [] ∧ states[0]? = some first.state) ∧
      ∀ k i u, (e.samples.flatMap Sample.records)[k + 1]? = some (i, u) →
        states[k + 1]? = some u ∧
          ∃ before, states[k]? = some before ∧ i = before.program[before.pointer]? ∧
            i.isSome = true := by
  intro states e map
  obtain ⟨later, groups, left, hsamples, hgroups, hsteps, hleft⟩ :=
    exists_groups_of_debug t evaluationRange script m ctx s completion
  have hstates : states = m.trace ctx s := Machine.dropLast_debug s completion
  obtain ⟨rest, hrest⟩ := m.trace_eq_cons ctx s
  have hsamples' : e.samples = .opening evaluationRange s :: later := hsamples
  have hflat : e.samples.flatMap Sample.states = s :: groups.flatten.map Prod.snd := by
    rw [hsamples', List.flatMap_cons, flatMap_states_eq hgroups]
    rfl
  have hrecords : e.samples.flatMap Sample.records =
      (none, s) :: groups.flatten.map fun step ↦ (step.1.next?, step.2) := by
    rw [hsamples', List.flatMap_cons, flatMap_records_eq hgroups]
    rfl
  rw [hflat, hrecords, hstates]
  refine ⟨?_, ⟨_, later, hsamples', rfl, rfl, by simp [hrest, Sample.opening]⟩, ?_⟩
  · rw [hrest] at hleft hsteps ⊢
    exact hleft.map_snd_append hsteps
  · intro k i u hk
    rw [List.getElem?_cons_succ, List.getElem?_map, Option.map_eq_some_iff] at hk
    obtain ⟨step, hstep, hpair⟩ := hk
    obtain ⟨rfl, rfl⟩ := Prod.mk.inj hpair
    -- Sampled steps come first, so that a step has the same place in the trace.
    have hk' : (stepsOf (m.trace ctx s))[k]? = some step := by
      rw [← hsteps, List.getElem?_append_left (List.getElem?_eq_some_iff.mp hstep).1, hstep]
    obtain ⟨hbefore, hafter⟩ := List.getElem?_zip_eq_some.mp hk'
    rw [List.getElem?_tail] at hafter
    have hrunning := (Machine.of_mem_stepsOf_traceFor (List.mem_of_getElem? hk')).1
    have hlt := State.pointer_lt_of_not_halted hrunning
    exact ⟨hafter, step.1, hbefore, rfl, by simp [State.next?, hlt]⟩

/-- The second instruction of a node continues its sample, and a return at the start of the next
node has none. -/
theorem states_conserved_return :
    let m : Machine := {}
    let t : Tree := ⟨#[{ bytecode := [0x51, 0x52], range := ⟨⟨1, 1⟩, ⟨1, 7⟩⟩ },
      { bytecode := [0x6a], range := ⟨⟨1, 8⟩, ⟨1, 17⟩⟩ }]⟩
    let trace := m.debug {} (m.start {} [0x51, 0x52, 0x6a]) .final
    let e := extractFlat t ⟨⟨1, 1⟩, ⟨1, 17⟩⟩ [0, 1] trace
    let map := NodeMap.ofNodes t [0, 1] (Instruction.parse [0x51, 0x52, 0x6a])
    map.FailsAtStart none (stepsOf trace.dropLast) ∧
      e.samples.flatMap Sample.states ++ e.unmatched = trace.dropLast.dropLast ∧
      (e.samples.flatMap Sample.records).map Prod.fst =
        [none, some (.operation 0x51), some (.operation 0x52)] := by
  intro m t trace e map
  have hfails : map.FailsAtStart none (stepsOf trace.dropLast) := by decide +kernel
  have hstates := (states_conserved t ⟨⟨1, 1⟩, ⟨1, 17⟩⟩ [0, 1] m {}
    (m.start {} [0x51, 0x52, 0x6a]) .final).1
  exact ⟨hfails, hstates.trans (if_pos hfails), by decide +kernel⟩

/-- The last step fails at the start of a node that is located, but a step before it was not: a loop
that goes on after the nodes comes back to them. All states from that step on are unmatched, and
none is left out. -/
theorem failed_state_is_unmatched :
    let m : Machine := { policy := .ofEdition .y2026 }
    let t : Tree := ⟨#[{ bytecode := [0x51], range := ⟨⟨1, 1⟩, ⟨1, 5⟩⟩ },
      { bytecode := [0x65], range := ⟨⟨1, 6⟩, ⟨1, 14⟩⟩ },
      { bytecode := [0x69], range := ⟨⟨1, 15⟩, ⟨1, 24⟩⟩ }]⟩
    let s := m.start {} [0x51, 0x65, 0x69, 0x00, 0x66]
    let trace := m.debug {} s .final
    let states := trace.dropLast
    let e := extractFlat t ⟨⟨1, 1⟩, ⟨1, 24⟩⟩ [0, 1, 2] trace
    let map := NodeMap.ofNodes t [0, 1, 2] s.program
    (∃ last ∈ (stepsOf states).getLast?, last.2.fault ≠ none ∧
        ∃ place ∈ map.locate? last.1.pointer, place.continuesNode = false) ∧
      e.samples.flatMap Sample.states ++ e.unmatched ≠ states.dropLast ∧
      e.samples.flatMap Sample.states ++ e.unmatched = states := by
  decide +kernel

end ScriptMachine.Source
