import ScriptMachine.Proofs.Machine.OpcodeStep

/-!
# Windows of the stack

Most stack opcodes need a fixed number of items on top of a stack, the window, and lay these out
again in a way that depends on the opcode only. What lies below the window stays as it is.
-/

namespace ScriptMachine

open ScriptMachine.Action

/-! ## Layouts -/

/-- How an opcode lays out the items that it needs. They are numbered from the lowest one. -/
structure Layout where
  needs : Nat
  /-- The items are those on top of the alternate stack. -/
  ofAlt : Bool := false
  /-- What the stack has in the place of the items, the lowest first. -/
  kept : List (Fin needs) := []
  /-- What is then pushed, one item after the other. -/
  pushed : List (Fin needs) := []
  /-- What moves to the alternate stack. -/
  alt : List (Fin needs) := []
  /-- What is charged for like a push, but may have any length. -/
  charged : List (Fin needs) := []

/-- The layout of an opcode, unless it depends on the items. -/
def StackOp.layout? : StackOp → Option Layout
  | .toAlt => some { needs := 1, alt := [0] }
  | .fromAlt => some { needs := 1, ofAlt := true, pushed := [0] }
  | .drop => some { needs := 1 }
  | .drop2 => some { needs := 2 }
  | .dup => some { needs := 1, kept := [0], pushed := [0] }
  | .dup2 => some { needs := 2, kept := [0, 1], pushed := [0, 1] }
  | .dup3 => some { needs := 3, kept := [0, 1, 2], pushed := [0, 1, 2] }
  | .over => some { needs := 2, kept := [0, 1], pushed := [0] }
  | .over2 => some { needs := 4, kept := [0, 1, 2, 3], pushed := [0, 1] }
  | .nip => some { needs := 2, kept := [1] }
  | .swap => some { needs := 2, kept := [1, 0] }
  | .swap2 => some { needs := 4, kept := [2, 3, 0, 1] }
  | .rot => some { needs := 3, kept := [1, 2, 0] }
  | .rot2 => some { needs := 6, kept := [2, 3, 4, 5, 0, 1] }
  | .tuck => some { needs := 2, kept := [1, 0, 1], charged := [1] }
  | .depth | .ifDup | .pick | .roll => none

/-- The meter after items were charged for as pushes. -/
def Meter.countItems (meter : Meter) (p : Policy) (items : List Bytes) : Meter :=
  items.foldl (fun meter item ↦ meter.countPush p item.length) meter

/-- The state after items were pushed one after the other. -/
def State.pushItems (p : Policy) (s : State) (items : List Bytes) : State :=
  { s with stack := items.reverse ++ s.stack, meter := s.meter.countItems p items }

namespace Layout

variable (l : Layout) (p : Policy) (s : State) (base : List Bytes) (window : Fin l.needs → Bytes)

/-- The stack with the window. -/
def source : List Bytes := if l.ofAlt then s.alt else s.stack

/-- What it means that the window is not there. -/
def shortage : Fault := if l.ofAlt then .emptyAltStack else .emptyStack

/-- The state before items are pushed, where the window stood on `base`. -/
def arranged : State :=
  { s with
    stack := (l.kept.map window).reverse ++ if l.ofAlt then s.stack else base
    alt := (l.alt.map window).reverse ++ if l.ofAlt then base else s.alt
    meter := s.meter.countItems p (l.charged.map window) }

/-- The state with the new window, where the old one stood on `base`. -/
def result : State :=
  { s with
    stack := ((l.kept ++ l.pushed).map window).reverse ++ if l.ofAlt then s.stack else base
    alt := (l.alt.map window).reverse ++ if l.ofAlt then base else s.alt
    meter := s.meter.countItems p ((l.charged ++ l.pushed).map window) }

/-- Every item that is pushed has a permitted length. -/
def Fits : Prop := ∀ i ∈ l.pushed, (window i).length ≤ p.limits.itemLength

theorem pushItems_arranged :
    (l.arranged p s base window).pushItems p (l.pushed.map window) =
      l.result p s base window := by
  simp [State.pushItems, arranged, result, Meter.countItems]

end Layout

/-! ## Pushing several items -/

namespace Action

/-- Pushes items one after the other. -/
def pushAll (p : Policy) : List Bytes → Action Unit
  | [] => pure ()
  | [item] => push p item
  | item :: next :: rest => do
    push p item
    pushAll p (next :: rest)

variable {α : Type} {p : Policy} {s t : State} {item : Bytes} {items : List Bytes}

theorem push_of_le (h : item.length ≤ p.limits.itemLength) (s : State) :
    push p item s = .ok () (s.pushItems p [item]) :=
  if_neg (Nat.not_lt.mpr h)

theorem push_of_lt (h : p.limits.itemLength < item.length) (s : State) :
    push p item s = .error (.itemTooLong item.length p.limits.itemLength) s :=
  if_pos h

theorem pushAll_of_le (h : ∀ item ∈ items, item.length ≤ p.limits.itemLength) (s : State) :
    pushAll p items s = .ok () (s.pushItems p items) := by
  fun_induction pushAll p items generalizing s with
  | case1 => rfl
  | case2 item => exact push_of_le (h item List.mem_cons_self) s
  | case3 item next rest ih =>
    obtain ⟨hitem, hrest⟩ := List.forall_mem_cons.mp h
    rw [bind_of_ok (push_of_le hitem s), ih hrest]
    simp [State.pushItems, Meter.countItems]

/-- The first item that is too long is the reason to fail. -/
theorem pushAll_of_not_le (h : ¬ ∀ item ∈ items, item.length ≤ p.limits.itemLength) (s : State) :
    ∃ fault t, pushAll p items s = .error fault t ∧ fault.IsLimit := by
  fun_induction pushAll p items generalizing s with
  | case1 => simp at h
  | case2 item =>
    have hlong : p.limits.itemLength < item.length := by simpa using h
    exact ⟨_, s, push_of_lt hlong s, trivial⟩
  | case3 item next rest ih =>
    by_cases hitem : item.length ≤ p.limits.itemLength
    · have hrest : ¬ ∀ item ∈ next :: rest, item.length ≤ p.limits.itemLength :=
        fun hall ↦ h (List.forall_mem_cons.mpr ⟨hitem, hall⟩)
      rw [bind_of_ok (push_of_le hitem s)]
      exact ih hrest _
    · exact ⟨_, s, bind_of_error (push_of_lt (Nat.lt_of_not_le hitem) s), trivial⟩

theorem inspect_of_some {f : List Bytes → Option α} {a : α} (h : f s.stack = some a) :
    inspect f s = .ok a s := by
  rw [inspect, h]

theorem inspect_of_none {f : List Bytes → Option α} (h : f s.stack = none) :
    inspect f s = .error .emptyStack s := by
  rw [inspect, h]

theorem rearrange_of_some {f : List Bytes → Option (List Bytes)} {stack : List Bytes}
    (h : f s.stack = some stack) : rearrange f s = .ok () { s with stack := stack } := by
  rw [rearrange, h]

theorem rearrange_of_none {f : List Bytes → Option (List Bytes)} (h : f s.stack = none) :
    rearrange f s = .error .emptyStack s := by
  rw [rearrange, h]

end Action

/-! ## Opcodes with a window -/

namespace StackOp

variable {p : Policy} {s : State} {op : StackOp} {l : Layout}

theorem exists_layout (h : op ∉ [depth, ifDup, pick, roll]) : ∃ l, op.layout? = some l := by
  cases op with
  | depth | ifDup | pick | roll => simp at h
  | _ => exact ⟨_, rfl⟩

/-- Without a whole window, an opcode fails before it changes anything. -/
theorem perform_of_short (hop : op.layout? = some l) (h : (l.source s).length < l.needs) :
    op.perform p s = .error l.shortage s := by
  -- A pattern of as many items as the window cannot match the stack.
  cases op with
  | depth | ifDup | pick | roll => cases hop
  | drop2 | rot2 | swap2 | nip | rot | swap =>
    cases hop
    rw [perform]
    apply rearrange_of_none
    split
    · rename_i hs
      have hlength := congrArg List.length hs
      have hshort : s.stack.length < _ := h
      simp only [List.length_cons] at hlength hshort
      omega
    · rfl
  | dup2 | dup3 | over2 | «over» | tuck =>
    cases hop
    rw [perform]
    apply bind_of_error
    apply inspect_of_none
    split
    · rename_i hs
      have hlength := congrArg List.length hs
      have hshort : s.stack.length < _ := h
      simp only [List.length_cons] at hlength hshort
      omega
    · rfl
  | dup =>
    cases hop
    have hs : s.stack = [] := by simpa [Layout.source] using h
    rw [perform]
    apply bind_of_error
    apply inspect_of_none
    rw [hs, List.head?_nil]
  | drop | toAlt =>
    cases hop
    have hs : s.stack = [] := by simpa [Layout.source] using h
    have hpop : pop s = .error .emptyStack s := by rw [pop, hs]
    exact bind_of_error hpop
  | fromAlt =>
    cases hop
    have hs : s.alt = [] := by simpa [Layout.source] using h
    have hpop : popAlt s = .error .emptyAltStack s := by rw [popAlt, hs]
    exact bind_of_error hpop

/-- With a window, whatever its items are, an opcode lays it out again and pushes what is to be
pushed. -/
theorem perform_of_window (hop : op.layout? = some l) {base : List Bytes}
    {window : Fin l.needs → Bytes} (hs : l.source s = (List.ofFn window).reverse ++ base) :
    op.perform p s = pushAll p (l.pushed.map window) (l.arranged p s base window) := by
  -- On a stack of which as many items are known as the opcode needs, it can be carried out.
  cases op with
  | depth | ifDup | pick | roll => cases hop
  | fromAlt =>
    cases hop
    have halt : s.alt = (List.ofFn window).reverse ++ base := hs
    have hknown : { s with alt := (List.ofFn window).reverse ++ base } = s := by rw [← halt]
    rw [← hknown]
    rfl
  | _ =>
    cases hop
    have hstack : s.stack = (List.ofFn window).reverse ++ base := hs
    have hknown : { s with stack := (List.ofFn window).reverse ++ base } = s := by rw [← hstack]
    rw [← hknown]
    rfl

end StackOp

end ScriptMachine
