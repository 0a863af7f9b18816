import ScriptMachine.Machine.Run
import ScriptMachine.Proofs.Machine.Transition

/-!
# Lexical control flow

Which branches and loops are open depends only on the place in the program, not on the data and not
on how often a loop was repeated: one scan of the instructions before that place finds them. A loop
that repeats goes back to a place where the scan had found what is open again.
-/

namespace ScriptMachine

/-- An open branch or loop, whether or not it is taken. -/
inductive Construct
  | branch
  | alternative
  | loop (start : Nat)
  deriving DecidableEq, Repr

/-- The construct that a marker stands for. -/
def Marker.construct : Marker → Construct
  | branch _ => .branch
  | alternative _ => .alternative
  | loop start => .loop start

/-- Where the body of a loop starts. -/
def Marker.start? : Marker → Option Nat
  | loop start => some start
  | _ => none

namespace Construct

/-- Where the body of a loop starts. -/
def start? : Construct → Option Nat
  | loop start => some start
  | _ => none

/-- The constructs that are open after the instruction with this index, innermost first. An
instruction that does not fit the innermost one has no result. -/
def visit (edition : Edition) (index : Nat) (i : Instruction) (opened : List Construct) :
    Option (List Construct) :=
  match i.called? edition with
  | some (.flow .branch) | some (.flow .branchNot) => some (branch :: opened)
  | some (.flow .otherwise) =>
    match opened with
    | branch :: rest => some (alternative :: rest)
    | _ => none
  | some (.flow .endBranch) =>
    match opened with
    | branch :: rest | alternative :: rest => some rest
    | _ => none
  | some (.loop .begin) => some (loop (index + 1) :: opened)
  | some (.loop .until) =>
    match opened with
    | loop _ :: rest => some rest
    | _ => none
  | _ => some opened

/-- The constructs that are open after instructions, the first of which has this index. -/
def scanFrom (edition : Edition) : (index : Nat) → List Construct → List Instruction →
    Option (List Construct)
  | _, opened, [] => some opened
  | index, opened, i :: rest =>
    (visit edition index i opened).bind (scanFrom edition (index + 1) · rest)

/-- The constructs that are open after instructions that stand at the start of a program. -/
def scan (edition : Edition) (program : List Instruction) : Option (List Construct) :=
  scanFrom edition 0 [] program

variable {edition : Edition}

theorem scanFrom_concat (index : Nat) (opened : List Construct) (program : List Instruction)
    (i : Instruction) :
    scanFrom edition index opened (program ++ [i]) =
      (scanFrom edition index opened program).bind (visit edition (index + program.length) i) := by
  induction program generalizing index opened with
  | nil => simp [scanFrom]
  | cons j program ih =>
    simp only [List.cons_append, scanFrom]
    cases visit edition index j opened with
    | none => rfl
    | some next =>
      simp only [Option.bind_some]
      rw [ih, List.length_cons, Nat.add_right_comm, Nat.add_assoc]

/-- The scan goes on by one instruction. -/
theorem scan_take_succ {program : List Instruction} {index : Nat} {i : Instruction}
    (hi : program[index]? = some i) :
    scan edition (program.take (index + 1)) =
      (scan edition (program.take index)).bind (visit edition index i) := by
  have hlength : (program.take index).length = index := by
    have hlt := (List.getElem?_eq_some_iff.mp hi).1
    simp only [List.length_take]
    omega
  rw [List.take_add_one, hi, scan, Option.toList_some, scanFrom_concat, hlength, Nat.zero_add]
  rfl

theorem visit_eq_some_self {index : Nat} {i : Instruction} {opened : List Construct}
    (hop : ∀ op, i.called? edition = some op → op.isConditional = false) :
    visit edition index i opened = some opened := by
  unfold visit
  split <;> first | rfl | simp_all [Opcode.isConditional]

/-! ## Where loops start -/

/-- Inner loops start after outer ones, and none starts after `bound`. -/
def OrderedBelow (bound : Nat) (opened : List Construct) : Prop :=
  (opened.filterMap start?).Pairwise (· > ·) ∧ ∀ start ∈ opened.filterMap start?, start ≤ bound

theorem OrderedBelow.mono {bound bound' : Nat} {opened : List Construct} (hle : bound ≤ bound')
    (h : OrderedBelow bound opened) : OrderedBelow bound' opened :=
  ⟨h.1, fun start hstart ↦ (h.2 start hstart).trans hle⟩

theorem OrderedBelow.tail {bound : Nat} {construct : Construct} {rest : List Construct}
    (h : OrderedBelow bound (construct :: rest)) : OrderedBelow bound rest := by
  cases construct with
  | branch | alternative => exact h
  | loop start =>
    exact ⟨(List.pairwise_cons.mp h.1).2, fun start' hstart ↦
      h.2 start' (List.mem_cons_of_mem _ hstart)⟩

theorem OrderedBelow.visit {index : Nat} {i : Instruction} {opened result : List Construct}
    (h : OrderedBelow index opened) (hvisit : visit edition index i opened = some result) :
    OrderedBelow (index + 1) result := by
  have hkeep : OrderedBelow (index + 1) opened := h.mono (Nat.le_succ index)
  unfold Construct.visit at hvisit
  split at hvisit
  · cases hvisit
    exact hkeep
  · cases hvisit
    exact hkeep
  · split at hvisit <;> cases hvisit
    exact hkeep
  · split at hvisit <;> cases hvisit
    · exact hkeep
    · exact hkeep
  · cases hvisit
    refine ⟨List.pairwise_cons.mpr ⟨fun start hstart ↦ ?_, h.1⟩, fun start hstart ↦ ?_⟩
    · exact Nat.lt_succ_of_le (h.2 start hstart)
    · rcases List.mem_cons.mp hstart with rfl | hrest
      · exact Nat.le_refl _
      · exact hkeep.2 start hrest
  · split at hvisit <;> cases hvisit
    exact hkeep.tail
  · cases hvisit
    exact hkeep

theorem OrderedBelow.scanFrom {index : Nat} {opened result : List Construct}
    {program : List Instruction} (h : OrderedBelow index opened)
    (hscan : scanFrom edition index opened program = some result) :
    OrderedBelow (index + program.length) result := by
  induction program generalizing index opened with
  | nil =>
    cases hscan
    exact h
  | cons i program ih =>
    obtain ⟨next, hnext, hrest⟩ := Option.bind_eq_some_iff.mp hscan
    have hresult := ih (h.visit hnext) hrest
    rwa [Nat.add_right_comm, Nat.add_assoc, ← List.length_cons] at hresult

/-- The loops that a scan finds are nested in the order in which they start. -/
theorem orderedBelow_of_scan {program : List Instruction} {result : List Construct}
    (h : scan edition program = some result) : OrderedBelow program.length result := by
  have hnil : OrderedBelow 0 [] := ⟨List.Pairwise.nil, by simp⟩
  simpa using hnil.scanFrom h

end Construct

/-! ## The invariant -/

open Construct

/-- The open constructs are those that the scan finds, and a loop among them starts where the scan
had found it and what is outside it. -/
structure Lexical (edition : Edition) (program : List Instruction) (pointer : Nat)
    (control : List Marker) : Prop where
  scan_eq : scan edition (program.take pointer) = some (control.map Marker.construct)
  scan_start : ∀ start rest, .loop start :: rest <:+ control →
    scan edition (program.take start) = some (.loop start :: rest.map Marker.construct)

namespace Lexical

variable {edition : Edition} {program : List Instruction} {pointer index : Nat}
  {control rest : List Marker} {i : Instruction}

/-- An instruction that opens or closes nothing. -/
theorem keep (h : Lexical edition program index control) (hi : program[index]? = some i)
    (hvisit : visit edition index i (control.map Marker.construct) =
      some (control.map Marker.construct)) :
    Lexical edition program (index + 1) control := by
  refine ⟨?_, h.scan_start⟩
  rw [scan_take_succ hi, h.scan_eq, Option.bind_some, hvisit]

/-- An instruction that opens a construct, or turns the innermost one, where the construct is no
loop. -/
theorem cons {marker : Marker} (h : Lexical edition program index control)
    (hi : program[index]? = some i) (hrest : rest <:+ control)
    (hmarker : ∀ start, marker ≠ .loop start)
    (hvisit : visit edition index i (control.map Marker.construct) =
      some ((marker :: rest).map Marker.construct)) :
    Lexical edition program (index + 1) (marker :: rest) := by
  refine ⟨?_, fun start inner hsuffix ↦ ?_⟩
  · rw [scan_take_succ hi, h.scan_eq, Option.bind_some, hvisit]
  · rcases List.suffix_cons_iff.mp hsuffix with heq | hinner
    · cases heq
      exact absurd rfl (hmarker start)
    · exact h.scan_start start inner (hinner.trans hrest)

/-- An instruction that closes the innermost construct. -/
theorem tail {marker : Marker} (h : Lexical edition program index (marker :: rest))
    (hi : program[index]? = some i)
    (hvisit : visit edition index i ((marker :: rest).map Marker.construct) =
      some (rest.map Marker.construct)) :
    Lexical edition program (index + 1) rest := by
  refine ⟨?_, fun start inner hsuffix ↦ ?_⟩
  · rw [scan_take_succ hi, h.scan_eq, Option.bind_some, hvisit]
  · exact h.scan_start start inner (hsuffix.trans (List.suffix_cons marker rest))

/-- An instruction that opens a loop. -/
theorem consLoop (h : Lexical edition program index control) (hi : program[index]? = some i)
    (hop : i.called? edition = some (.loop .begin)) :
    Lexical edition program (index + 1) (.loop (index + 1) :: control) := by
  have hscan : scan edition (program.take (index + 1)) =
      some (.loop (index + 1) :: control.map Marker.construct) := by
    rw [scan_take_succ hi, h.scan_eq, Option.bind_some]
    simp [visit, hop]
  refine ⟨hscan, fun start inner hsuffix ↦ ?_⟩
  rcases List.suffix_cons_iff.mp hsuffix with heq | hinner
  · cases heq
    exact hscan
  · exact h.scan_start start inner hinner

/-- A loop that repeats. -/
theorem back {start : Nat} (h : Lexical edition program index (.loop start :: rest)) :
    Lexical edition program start (.loop start :: rest) :=
  ⟨h.scan_start start rest List.suffix_rfl, h.scan_start⟩

end Lexical

/-- An instruction that is carried out leads from what the scan finds before it to what the scan
finds at the place where evaluation goes on. -/
theorem Turn.lexical {m : Machine} {index : Nat} {i : Instruction} {s t : State}
    (h : Turn m index i s t) (hpointer : s.pointer = index + 1) (hi : s.program[index]? = some i)
    (hs : Lexical m.policy.edition s.program index s.control) :
    Lexical m.policy.edition t.program t.pointer t.control := by
  cases h with
  | data hop h =>
    rw [h.frame]
    dsimp only
    rw [hpointer]
    exact hs.keep hi (visit_eq_some_self hop)
  | separator hop =>
    dsimp only
    rw [hpointer]
    refine hs.keep hi (visit_eq_some_self fun op hop' ↦ ?_)
    rw [hop] at hop'
    cases hop'
    rfl
  | openBranch taken hop h =>
    rw [h.frame]
    dsimp only
    rw [hpointer]
    refine hs.cons hi List.suffix_rfl (by simp) ?_
    rcases hop with hop | hop <;> simp [visit, hop, Marker.construct]
  | turnBranch hop hcontrol =>
    dsimp only
    rw [hpointer]
    refine hs.cons hi (hcontrol ▸ List.suffix_cons _ _) (by simp) ?_
    simp [visit, hop, hcontrol, Marker.construct]
  | @closeBranch marker rest hop hcontrol hmarker =>
    rw [hcontrol] at hs
    dsimp only
    rw [hpointer]
    refine hs.tail hi ?_
    cases marker with
    | branch taken | alternative taken => simp [visit, hop, Marker.construct]
    | loop start => exact absurd rfl (hmarker start)
  | openLoop hop =>
    dsimp only
    rw [hpointer]
    exact hs.consLoop hi hop
  | leaveLoop hop hcontrol h =>
    rw [hcontrol] at hs
    rw [h.frame]
    dsimp only
    rw [hpointer]
    refine hs.tail hi ?_
    simp [visit, hop, Marker.construct]
  | repeatLoop hop hcontrol h =>
    rw [hcontrol] at hs
    rw [h.frame]
    dsimp only
    rw [hcontrol]
    exact hs.back

/-- A step keeps the invariant, unless it adds a fault. -/
theorem Transition.lexical {m : Machine} {s t : State} (h : Transition m s t)
    (hs : s.fault = none → Lexical m.policy.edition s.program s.pointer s.control)
    (hfault : t.fault = none) : Lexical m.policy.edition t.program t.pointer t.control := by
  cases h with
  | halted hhalt => exact hs hfault
  | failed => cases hfault
  | exceeded => cases hfault
  | done operations hhalt hi hoperations h =>
    exact h.lexical rfl hi (hs (State.fault_eq_none_of_not_halted hhalt))

namespace Machine

variable (m : Machine) (ctx : Context)

theorem lexical_iterate (bytecode : Bytes) (n : Nat) :
    let s := (m.step ctx)^[n] (m.start ctx bytecode)
    s.program = Instruction.parse bytecode ∧
      (s.fault = none → Lexical m.policy.edition s.program s.pointer s.control) := by
  refine iterate_invariant (P := fun s ↦ s.program = Instruction.parse bytecode ∧
    (s.fault = none → Lexical m.policy.edition s.program s.pointer s.control)) ?_ ?_ n
  · rintro s t hstep ⟨hprogram, hs⟩
    exact ⟨hstep.program_eq.trans hprogram, hstep.lexical hs⟩
  · exact ⟨rfl, fun _ ↦ ⟨rfl, by simp [start, load]⟩⟩

/-- In every state without a fault that steps reach, the open constructs are those that a scan of
the instructions before the pointer finds. So loops start before the pointer, inner ones after outer
ones, and the instructions that a loop would repeat are all in the program. -/
theorem control_eq_scan (bytecode : Bytes) (n : Nat)
    (hfault : ((m.step ctx)^[n] (m.start ctx bytecode)).fault = none) :
    let s := (m.step ctx)^[n] (m.start ctx bytecode)
    s.program = Instruction.parse bytecode ∧
      scan m.policy.edition (s.program.take s.pointer) = some (s.control.map Marker.construct) ∧
      (∀ start, .loop start ∈ s.control → start ≤ s.pointer) ∧
      (s.control.reverse.filterMap Marker.start?).Pairwise (· < ·) ∧
      ∀ start rest, s.isHalted = false → s.control = .loop start :: rest →
        start ≤ s.pointer ∧ s.pointer < s.program.length := by
  intro s
  obtain ⟨hprogram, hlexical⟩ := m.lexical_iterate ctx bytecode n
  have hscan := (hlexical hfault).scan_eq
  have hordered := orderedBelow_of_scan hscan
  have hstarts : (s.control.map Marker.construct).filterMap Construct.start? =
      s.control.filterMap Marker.start? := by
    rw [List.filterMap_map]
    congr 1
    funext marker
    cases marker <;> rfl
  have hbound : ∀ start, .loop start ∈ s.control → start ≤ s.pointer := by
    intro start hstart
    have hmem : start ∈ (s.control.map Marker.construct).filterMap Construct.start? := by
      rw [hstarts]
      exact List.mem_filterMap.mpr ⟨_, hstart, rfl⟩
    exact (hordered.2 start hmem).trans (List.length_take_le _ _)
  refine ⟨hprogram, hscan, hbound, ?_, fun start rest hhalt hcontrol ↦ ?_⟩
  · rw [List.filterMap_reverse, List.pairwise_reverse, ← hstarts]
    exact hordered.1
  · exact ⟨hbound start (by simp [hcontrol]), State.pointer_lt_of_not_halted hhalt⟩

/-- A loop that has repeated, in the alternative of a branch that was passed over with a loop of its
own. -/
theorem control_eq_scan_repeated :
    let m : Machine := { policy := .ofEdition .y2026 }
    let s := (m.step {})^[10]
      (m.start {} [0x00, 0x63, 0x65, 0x51, 0x66, 0x67, 0x65, 0x00, 0x66, 0x68])
    s.fault = none ∧ s.control = [.loop 7, .alternative true] ∧
      scan .y2026 (s.program.take s.pointer) = some [.loop 7, .alternative] := by
  intro m s
  have hfault : s.fault = none := by decide +kernel
  have hcontrol : s.control = [.loop 7, .alternative true] := by decide +kernel
  obtain ⟨-, hscan, -⟩ := control_eq_scan m {} _ 10 hfault
  refine ⟨hfault, hcontrol, ?_⟩
  change scan .y2026 (s.program.take s.pointer) = some (s.control.map Marker.construct) at hscan
  rw [hscan, hcontrol]
  rfl

end Machine

end ScriptMachine
