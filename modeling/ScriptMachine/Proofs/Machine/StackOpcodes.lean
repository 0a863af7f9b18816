import ScriptMachine.Proofs.Machine.Arithmetic
import ScriptMachine.Proofs.Machine.Pushing
import ScriptMachine.Proofs.Machine.StackWindow
import ScriptMachine.Proofs.Machine.Trace

/-!
# Stack opcodes

A step on a stack opcode with a fixed window fails before it changes a stack if the window is not
whole, and otherwise lays the window out again unless that passes a limit. Two opcodes find an item
by its index below the top: one copies the item to the top, and the other moves it there. Moving an
item from the same index again and again goes round the items down to that index.
-/

namespace ScriptMachine

open ScriptMachine.Action
open ScriptNumber (encode)

/-! ## Rolling -/

/-- The stack with the item at an index moved to the top. -/
def rolled (n : Nat) (stack : List Bytes) : List Bytes :=
  stack[n]?.elim stack (· :: stack.eraseIdx n)

section Rolling

variable {n : Nat} {x : Bytes} {stack above below : List Bytes}

theorem rolled_append : rolled above.length (above ++ x :: below) = x :: (above ++ below) := by
  simp [rolled, List.eraseIdx_append_of_length_le]

theorem rolled_of_getElem? (h : stack[n]? = some x) : rolled n stack = x :: stack.eraseIdx n := by
  rw [rolled, h, Option.elim_some]

/-- The items from the top down to the index are rotated. -/
theorem rolled_eq_rotate (h : above.length = n + 1) :
    rolled n (above ++ below) = above.rotate n ++ below := by
  rcases List.eq_nil_or_concat' above with rfl | ⟨init, last, rfl⟩
  · simp at h
  · obtain rfl : init.length = n := by simpa using h
    rw [List.rotate_append_length_eq, List.append_assoc, List.singleton_append, rolled_append]
    rfl

theorem rolled_iterate (k : Nat) (h : above.length = n + 1) :
    (rolled n)^[k] (above ++ below) = above.rotate (n * k) ++ below := by
  induction k with
  | zero => simp
  | succ k ih =>
    have hlength : (above.rotate (n * k)).length = n + 1 := by rw [List.length_rotate, h]
    rw [Function.iterate_succ_apply', ih, rolled_eq_rotate hlength, List.rotate_rotate,
      Nat.mul_succ]

/-- Rolling goes round. -/
theorem rolled_iterate_succ (h : n < stack.length) : (rolled n)^[n + 1] stack = stack := by
  have hlength : (stack.take (n + 1)).length = n + 1 := List.length_take_of_le h
  have hround : (stack.take (n + 1)).rotate (n * (n + 1)) = stack.take (n + 1) := by
    have hmul := List.rotate_length_mul (stack.take (n + 1)) n
    rwa [hlength, Nat.mul_comm] at hmul
  have hiterate : (rolled n)^[n + 1] (stack.take (n + 1) ++ stack.drop (n + 1)) = _ :=
    rolled_iterate (n + 1) hlength
  rwa [hround, List.take_append_drop] at hiterate

theorem length_rolled (h : n < stack.length) : (rolled n stack).length = stack.length := by
  rw [rolled_of_getElem? (List.getElem?_eq_getElem h), List.length_cons,
    List.length_eraseIdx_of_lt h]
  omega

end Rolling

/-! ## Opcodes with an index -/

section Index

variable {p : Policy} {s t : State} {item x : Bytes} {rest above below : List Bytes} {v : Int}

theorem Action.popStackIndex_of_valid (hread : p.Reads item v) (hs : s.stack = item :: rest)
    (hv : 0 ≤ v ∧ v < rest.length) :
    popStackIndex p s = .ok v.toNat { s with stack := rest } := by
  rw [popStackIndex, bind_of_ok (popNumber_of_reads hread hs)]
  exact congrFun (if_pos hv) _

theorem Action.popStackIndex_of_invalid (hread : p.Reads item v) (hs : s.stack = item :: rest)
    (hv : v < 0 ∨ rest.length ≤ v) :
    popStackIndex p s =
      .error (.invalidStackIndex (ScriptNumber.clamp v) rest.length) { s with stack := rest } := by
  have hnot : ¬ (0 ≤ v ∧ v < rest.length) := by omega
  rw [popStackIndex, bind_of_ok (popNumber_of_reads hread hs)]
  exact congrFun (if_neg hnot) _

theorem StackOp.perform_roll (hread : p.Reads item above.length)
    (hs : s.stack = item :: (above ++ x :: below)) :
    StackOp.roll.perform p s = .ok () { s with stack := x :: (above ++ below) } := by
  have hvalid : (0 : Int) ≤ above.length ∧ (above.length : Int) < (above ++ x :: below).length := by
    rw [List.length_append, List.length_cons]
    omega
  rw [StackOp.perform, bind_of_ok (popStackIndex_of_valid hread hs hvalid)]
  apply rearrange_of_some
  simp [List.eraseIdx_append_of_length_le]

theorem StackOp.perform_pick (hread : p.Reads item above.length)
    (hs : s.stack = item :: (above ++ x :: below)) :
    StackOp.pick.perform p s = pushAll p [x] { s with stack := above ++ x :: below } := by
  have hvalid : (0 : Int) ≤ above.length ∧ (above.length : Int) < (above ++ x :: below).length := by
    rw [List.length_append, List.length_cons]
    omega
  have hfound : inspect (·[above.length]?) { s with stack := above ++ x :: below } =
      .ok x { s with stack := above ++ x :: below } := inspect_of_some (by simp)
  rw [StackOp.perform, bind_of_ok (popStackIndex_of_valid hread hs hvalid)]
  exact bind_of_ok hfound

theorem StackOp.perform_of_invalid {op : StackOp} (hop : op = .pick ∨ op = .roll)
    (hread : p.Reads item v) (hs : s.stack = item :: rest) (hv : v < 0 ∨ rest.length ≤ v) :
    op.perform p s =
      .error (.invalidStackIndex (ScriptNumber.clamp v) rest.length) { s with stack := rest } := by
  obtain rfl | rfl := hop
  · exact bind_of_error (popStackIndex_of_invalid hread hs hv)
  · exact bind_of_error (popStackIndex_of_invalid hread hs hv)

theorem exists_reads_of_perform_roll (h : StackOp.roll.perform p s = .ok () t)
    (hs : s.stack = item :: rest) : ∃ v, p.Reads item v := by
  obtain ⟨_, _, hindex, -⟩ := bind_eq_ok h
  obtain ⟨v, _, hnumber, -⟩ := bind_eq_ok hindex
  exact ⟨v, (reads_of_popNumber_eq_ok hnumber hs).1⟩

end Index

/-! ## Steps -/

namespace Machine

/-- A step on an opcode with this layout fails without a change to the stacks where the window is
not whole, and otherwise lays the window out again, whatever is in it. -/
structure ActsOnWindow (m : Machine) (ctx : Context) (s : State) (l : Layout) : Prop where
  short : (l.source s).length < l.needs →
    (m.step ctx s).fault = some l.shortage ∧
      (m.step ctx s).stack = s.stack ∧ (m.step ctx s).alt = s.alt
  whole : ∀ base window, l.source s = (List.ofFn window).reverse ++ base →
    m.Yields ctx s (l.result m.policy (m.counted s) base window) (l.Fits m.policy window)

/-- A step on an opcode with an index into `rest` refuses exactly the indices that are not in it,
and otherwise finds the item there. -/
structure ActsAtIndex (m : Machine) (ctx : Context) (s : State) (rest : List Bytes) (v : Int)
    (reached : List Bytes → Bytes → List Bytes → State) (fits : Bytes → Prop) : Prop where
  invalid : (m.step ctx s).fault =
      some (.invalidStackIndex (ScriptNumber.clamp v) rest.length) ↔ v < 0 ∨ rest.length ≤ v
  valid : ∀ above x below, rest = above ++ x :: below → v = above.length →
    m.Yields ctx s (reached above x below) (fits x)

variable {m : Machine} {ctx : Context} {s t : State} {op : StackOp} {l : Layout} {item : Bytes}
  {items rest : List Bytes} {v : Int}

theorem yields_of_pushAll (ctx : Context) (hs : s.IsAt (.stack op)) (hcount : m.MayCount s)
    (h : op.perform m.policy (m.counted s) = pushAll m.policy items t) (hfault : t.fault = none) :
    m.Yields ctx s (t.pushItems m.policy items)
      (∀ item ∈ items, item.length ≤ m.policy.limits.itemLength) := by
  apply yields_of_perform hs (Opcode.isOrdinary_stack _ op) hcount
  · exact hfault
  · intro hfits
    exact h.trans (pushAll_of_le hfits t)
  · intro hlong
    obtain ⟨fault, u, hu, hlimit⟩ := pushAll_of_not_le hlong t
    exact ⟨fault, u, h.trans hu, hlimit⟩

theorem actsOnWindow (ctx : Context) (hs : s.IsAt (.stack op)) (hcount : m.MayCount s)
    (hop : op.layout? = some l) : m.ActsOnWindow ctx s l where
  short := by
    intro hshort
    have hperform : op.perform m.policy (m.counted s) = .error l.shortage (m.counted s) :=
      StackOp.perform_of_short hop hshort
    rw [step_of_perform_eq_error hs (Opcode.isOrdinary_stack _ op) hcount hperform]
    exact ⟨rfl, rfl, rfl⟩
  whole := by
    intro base window hwhole
    have hperform : op.perform m.policy (m.counted s) =
        pushAll m.policy (l.pushed.map window) (l.arranged m.policy (m.counted s) base window) :=
      StackOp.perform_of_window hop hwhole
    have hyields := yields_of_pushAll ctx hs hcount hperform hs.fault_eq_none
    rwa [Layout.pushItems_arranged, List.forall_mem_map] at hyields

theorem actsAtIndex_of_valid (hop : op = .pick ∨ op = .roll) (hs : s.IsAt (.stack op))
    (hcount : m.MayCount s) (hitem : s.stack = item :: rest) (hread : m.policy.Reads item v)
    {reached : List Bytes → Bytes → List Bytes → State} {fits : Bytes → Prop}
    (hvalid : ∀ above x below, rest = above ++ x :: below → v = above.length →
      m.Yields ctx s (reached above x below) (fits x)) :
    m.ActsAtIndex ctx s rest v reached fits where
  valid := hvalid
  invalid := by
    constructor
    · intro hfault
      by_contra hv
      have hlt : v.toNat < rest.length := by omega
      have hsplit : rest = rest.take v.toNat ++ rest[v.toNat] :: rest.drop (v.toNat + 1) := by
        rw [List.getElem_cons_drop, List.take_append_drop]
      have hlength : v = (rest.take v.toNat).length := by
        rw [List.length_take_of_le (Nat.le_of_lt hlt)]
        omega
      exact (hvalid _ _ _ hsplit hlength).isLimit _ hfault
    · intro hv
      have hperform : op.perform m.policy (m.counted s) =
          .error (.invalidStackIndex (ScriptNumber.clamp v) rest.length)
            { m.counted s with stack := rest } :=
        StackOp.perform_of_invalid hop hread hitem hv
      rw [step_of_perform_eq_error hs (Opcode.isOrdinary_stack _ op) hcount hperform]

theorem actsAtIndex_roll (ctx : Context) (hs : s.IsAt (.stack .roll)) (hcount : m.MayCount s)
    (hitem : s.stack = item :: rest) (hread : m.policy.Reads item v) :
    m.ActsAtIndex ctx s rest v
      (fun above x below ↦ { m.counted s with stack := x :: (above ++ below) })
      (fun _ ↦ True) := by
  apply actsAtIndex_of_valid (.inr rfl) hs hcount hitem hread
  rintro above x below rfl rfl
  apply yields_of_perform hs (Opcode.isOrdinary_stack _ _) hcount
  · exact hs.fault_eq_none
  · intro _
    exact StackOp.perform_roll hread hitem
  · intro hnot
    exact absurd trivial hnot

theorem actsAtIndex_pick (ctx : Context) (hs : s.IsAt (.stack .pick)) (hcount : m.MayCount s)
    (hitem : s.stack = item :: rest) (hread : m.policy.Reads item v) :
    m.ActsAtIndex ctx s rest v
      (fun above x below ↦
        ({ m.counted s with stack := above ++ x :: below } : State).pushItems m.policy [x])
      (fun x ↦ x.length ≤ m.policy.limits.itemLength) := by
  apply actsAtIndex_of_valid (.inl rfl) hs hcount hitem hread
  rintro above x below rfl rfl
  have hyields := yields_of_pushAll ctx hs hcount (StackOp.perform_pick hread hitem)
    hs.fault_eq_none
  rwa [List.forall_mem_singleton] at hyields

/-! ## Rolling again and again -/

/-- Instructions that roll by `n`, as often as `count` says. -/
def rollings (n count : Nat) : List Instruction :=
  (List.replicate count
    [Instruction.minimalPush (encode n), .operation (Opcode.stack .roll).byte]).flatten

/-- The second state is `count` instructions further on in the same code. -/
structure Passes (count : Nat) (s t : State) : Prop where
  program : t.program = s.program
  pointer : t.pointer = s.pointer + count
  control : t.control = s.control
  alt : t.alt = s.alt

theorem Passes.trans {j k : Nat} {u : State} (hst : Passes j s t) (htu : Passes k t u) :
    Passes (j + k) s u where
  program := htu.program.trans hst.program
  pointer := by rw [htu.pointer, hst.pointer, Nat.add_assoc]
  control := htu.control.trans hst.control
  alt := htu.alt.trans hst.alt

theorem isHalted_eq_false {i : Instruction} (hfault : s.fault = none) (hnext : s.next? = some i) :
    s.isHalted = false := by
  have hlt : s.pointer < s.program.length := (List.getElem?_eq_some_iff.mp hnext).1
  simp [State.isHalted, hfault, hlt]

theorem step_roll {n : Nat} (hs : s.IsAt (.stack .roll)) (hitem : s.stack = encode n :: rest)
    (hn : n < rest.length) (hfault : (m.step ctx s).fault = none) :
    Passes 1 s (m.step ctx s) ∧ (m.step ctx s).stack = rolled n rest := by
  have hcount := mayCount_of_step hs (Opcode.isOrdinary_stack _ _) hfault
  have hread : m.policy.Reads (encode n) n := by
    obtain ⟨t, hperform, -⟩ := exists_perform_of_step hs (Opcode.isOrdinary_stack _ _) hfault
    obtain ⟨v, hv⟩ := exists_reads_of_perform_roll hperform hitem
    obtain ⟨-, -, rfl⟩ := (ScriptNumber.decode_minimal_eq_ok_iff _ _ _).mp hv
    rwa [ScriptNumber.value_encode] at hv
  have hfound : rest = rest.take n ++ rest[n] :: rest.drop (n + 1) := by
    rw [List.getElem_cons_drop, List.take_append_drop]
  have hlength : (rest.take n).length = n := List.length_take_of_le (Nat.le_of_lt hn)
  have hyields := (actsAtIndex_roll ctx hs hcount hitem hread).valid _ _ _ hfound (by rw [hlength])
  obtain ⟨hfits, hallows⟩ := hyields.fault_eq_none_iff.mp hfault
  have hrolled : rolled n rest = rest[n] :: (rest.take n ++ rest.drop (n + 1)) := by
    have happend : rolled (rest.take n).length (rest.take n ++ rest[n] :: rest.drop (n + 1)) = _ :=
      rolled_append
    rwa [← hfound, hlength] at happend
  rw [hyields.step_eq hfits hallows, hrolled]
  exact ⟨⟨rfl, rfl, rfl, rfl⟩, rfl⟩

theorem step_minimalPush_passes {data : Bytes} (hhalt : s.isHalted = false)
    (hexecuting : s.isExecuting = true) (hnext : s.next? = some (.minimalPush data))
    (hfault : (m.step ctx s).fault = none) :
    Passes 1 s (m.step ctx s) ∧ (m.step ctx s).stack = data :: s.stack := by
  have hroom := hasRoom_of_step hhalt hexecuting hnext hfault
  rw [step_minimalPush ctx hhalt hexecuting hnext hroom]
  exact ⟨⟨rfl, rfl, rfl, rfl⟩, rfl⟩

/-- The run rolls once for each pair of instructions. -/
theorem iterate_rollings {n count : Nat} {more : List Instruction}
    (hexecuting : s.isExecuting = true) (hn : n < s.stack.length)
    (hprogram : s.program.drop s.pointer = rollings n count ++ more)
    (hfault : ((m.step ctx)^[2 * count] s).fault = none) :
    ((m.step ctx)^[2 * count] s).stack = (rolled n)^[count] s.stack ∧
      ((m.step ctx)^[2 * count] s).alt = s.alt := by
  induction count generalizing s with
  | zero => exact ⟨rfl, rfl⟩
  | succ count ih =>
    have hsplit : (m.step ctx)^[2 * (count + 1)] s =
        (m.step ctx)^[2 * count] (m.step ctx (m.step ctx s)) := rfl
    have hfirst : s.next? = some (.minimalPush (encode n)) := by
      have hhead := congrArg List.head? hprogram
      rwa [List.head?_drop] at hhead
    have hsecond : s.program[s.pointer + 1]? = some (.operation (Opcode.stack .roll).byte) := by
      have hhead := congrArg (·[1]?) hprogram
      simpa [rollings, List.replicate_succ] using hhead
    have hzero : s.fault = none := fault_iterate_eq_none (k := 0) (Nat.zero_le _) hfault
    have hone : (m.step ctx s).fault = none := fault_iterate_eq_none (k := 1) (by omega) hfault
    have htwo : (m.step ctx (m.step ctx s)).fault = none :=
      fault_iterate_eq_none (k := 2) (by omega) hfault
    obtain ⟨hpasses, hstack⟩ :=
      step_minimalPush_passes (isHalted_eq_false hzero hfirst) hexecuting hfirst hone
    have hnext : (m.step ctx s).next? = some (.operation (Opcode.stack .roll).byte) := by
      rw [State.next?, hpasses.program, hpasses.pointer, hsecond]
    have hat : (m.step ctx s).IsAt (.stack .roll) := by
      refine ⟨isHalted_eq_false hone hnext, ?_, hnext⟩
      rwa [State.isExecuting, hpasses.control]
    obtain ⟨hpasses', hstack'⟩ := step_roll hat hstack hn htwo
    have hboth := hpasses.trans hpasses'
    rw [hsplit] at hfault ⊢
    have hrest := ih (s := m.step ctx (m.step ctx s)) ?_ ?_ ?_ hfault
    · rw [hrest.1, hrest.2, hstack', hboth.alt]
      exact ⟨rfl, rfl⟩
    · rwa [State.isExecuting, hboth.control]
    · rwa [hstack', length_rolled hn]
    · rw [hboth.program, hboth.pointer, ← List.drop_drop, hprogram]
      rfl

end Machine

/-- A step on a stack opcode whose window is fixed fails without a change to the stacks where the
window is not whole, and otherwise lays it out again, whatever the items are, unless that passes a
limit. Picking copies and rolling moves the item at an index to the top, and both refuse exactly the
indices that are negative or reach below the stack. To roll by `n` as often as there are items down
to index `n` changes nothing. Before all this, an opcode that is one too many is refused. -/
theorem stack_opcodes_act_on_window (m : Machine) (ctx : Context) :
    (∀ s op, s.IsAt (.stack op) →
      (∀ limit, m.policy.limits.operationCount = some limit → limit < (m.counted s).operations →
        (m.step ctx s).fault = some (.tooManyOperations limit) ∧
          (m.step ctx s).stack = s.stack ∧ (m.step ctx s).alt = s.alt) ∧
      (m.MayCount s →
        (op ∉ [.depth, .ifDup, .pick, .roll] →
          ∃ l, op.layout? = some l ∧ m.ActsOnWindow ctx s l) ∧
        ∀ item rest v, s.stack = item :: rest → m.policy.Reads item v →
          (op = .pick → m.ActsAtIndex ctx s rest v
            (fun above x below ↦
              ({ m.counted s with stack := above ++ x :: below } : State).pushItems m.policy [x])
            (fun x ↦ x.length ≤ m.policy.limits.itemLength)) ∧
          (op = .roll → m.ActsAtIndex ctx s rest v
            (fun above x below ↦ { m.counted s with stack := x :: (above ++ below) })
            (fun _ ↦ True)))) ∧
    ∀ s n more, s.isExecuting = true → n < s.stack.length →
      s.program.drop s.pointer = Machine.rollings n (n + 1) ++ more →
      ((m.step ctx)^[2 * (n + 1)] s).fault = none →
        ((m.step ctx)^[2 * (n + 1)] s).stack = s.stack ∧
          ((m.step ctx)^[2 * (n + 1)] s).alt = s.alt := by
  refine ⟨fun s op hs ↦ ⟨fun limit hlimit hlt ↦ ?_, fun hcount ↦ ⟨fun hop ↦ ?_, ?_⟩⟩, ?_⟩
  · rw [Machine.step_of_overcount hs (Opcode.isOrdinary_stack _ op) hlimit hlt]
    exact ⟨rfl, rfl, rfl⟩
  · obtain ⟨l, hl⟩ := StackOp.exists_layout hop
    exact ⟨l, hl, Machine.actsOnWindow ctx hs hcount hl⟩
  · intro item rest v hitem hread
    constructor
    · rintro rfl
      exact Machine.actsAtIndex_pick ctx hs hcount hitem hread
    · rintro rfl
      exact Machine.actsAtIndex_roll ctx hs hcount hitem hread
  · intro s n more hexecuting hn hprogram hfault
    have hrun := Machine.iterate_rollings hexecuting hn hprogram hfault
    rwa [rolled_iterate_succ hn] at hrun

/-- Six of seven items change places, and rolling by two goes round three items. -/
theorem stack_opcodes_act_on_window_rotation :
    let m : Machine := {}
    let s : State :=
      { program := [.operation 0x71], stack := [[7], [6], [5], [4], [3], [2], [1]],
        meter := .start m.policy 100 }
    let u : State :=
      { program := Machine.rollings 2 3, stack := [[4], [3], [2], [1]],
        meter := .start m.policy 100 }
    (m.step {} s).stack = [[3], [2], [7], [6], [5], [4], [1]] ∧ (m.step {} s).fault = none ∧
      ((m.step {})^[6] u).stack = u.stack := by
  intro m s u
  have hat : s.IsAt (.stack .rot2) := ⟨rfl, rfl, rfl⟩
  have hcount : m.MayCount s := fun limit hlimit ↦ by cases hlimit
  obtain ⟨l, hl, hacts⟩ :=
    (((stack_opcodes_act_on_window m {}).1 s .rot2 hat).2 hcount).1 (by decide)
  cases hl
  have hyields := hacts.whole [[1]] ![[2], [3], [4], [5], [6], [7]] rfl
  have hfault : (m.step {} s).fault = none := by
    refine hyields.fault_eq_none_iff.mpr ⟨?_, ⟨by decide, by decide, ⟨?_, ?_, ?_⟩⟩⟩
    · intro i hi
      cases hi
    all_goals decide
  obtain ⟨hfits, hallows⟩ := hyields.fault_eq_none_iff.mp hfault
  refine ⟨?_, hfault, ?_⟩
  · rw [hyields.step_eq hfits hallows]
    rfl
  · have hrun := (stack_opcodes_act_on_window m {}).2 u 2 [] rfl (by decide) (by simp [u])
      (by decide +kernel)
    exact hrun.1

/-- After the last opcode that may be counted, an empty stack is not the reason to fail. -/
theorem short_window_unreported :
    let m : Machine := { policy := .ofEdition .y2023 }
    let s := (m.step {})^[201] (m.start {} (List.replicate 201 0x61 ++ [0x75]))
    s.IsAt (.stack .drop) ∧ s.stack.length < 1 ∧
      (m.step {} s).fault = some (.tooManyOperations 201) ∧
        (m.step {} s).fault ≠ some .emptyStack := by
  intro m s
  have hs : s.isHalted = false ∧ s.isExecuting = true ∧
      s.next? = some (.operation (Opcode.stack .drop).byte) ∧ s.stack.length < 1 ∧
        (m.step {} s).fault = some (.tooManyOperations 201) := by
    decide +kernel
  obtain ⟨hrunning, hexecuting, hnext, hshort, hfault⟩ := hs
  refine ⟨⟨hrunning, hexecuting, hnext⟩, hshort, hfault, ?_⟩
  rw [hfault]
  decide

end ScriptMachine
