import Mathlib
import ScriptMachine.Machine.Step

/-!
# Effects on data

Most opcodes touch only the two stacks and the meter. Whatever such an opcode does is a sequence of
three kinds of moves: items change places, an item of a permitted length comes in, and work is
charged for. This holds where the opcode fails too, so a property of data has to be checked for the
three moves only.
-/

namespace ScriptMachine

/-- The state that an action leaves, whether or not it fails. -/
def Action.after {α : Type} (x : Action α) (s : State) : State :=
  match x s with
  | .ok _ t | .error _ t => t

theorem Action.after_of_ok {α : Type} {x : Action α} {s t : State} {a : α} (h : x s = .ok a t) :
    x.after s = t := by
  simp [after, h]

theorem Action.after_of_error {α : Type} {x : Action α} {s t : State} {fault : Fault}
    (h : x s = .error fault t) : x.after s = t := by
  simp [after, h]

theorem Action.after_bind_of_ok {α β : Type} {x : Action α} {s t : State} {a : α}
    (f : α → Action β) (h : x s = .ok a t) : (x >>= f).after s = (f a).after t := by
  simp [after, Bind.bind, EStateM.bind, h]

theorem Action.after_bind_of_error {α β : Type} {x : Action α} {s t : State} {fault : Fault}
    (f : α → Action β) (h : x s = .error fault t) : (x >>= f).after s = t := by
  simp [after, Bind.bind, EStateM.bind, h]

theorem Action.bind_of_ok {α β : Type} {x : Action α} {f : α → Action β} {s t : State} {a : α}
    (h : x s = .ok a t) : (x >>= f) s = f a t := by
  simp [Bind.bind, EStateM.bind, h]

theorem Action.bind_of_error {α β : Type} {x : Action α} {f : α → Action β} {s t : State}
    {fault : Fault} (h : x s = .error fault t) : (x >>= f) s = .error fault t := by
  simp [Bind.bind, EStateM.bind, h]

/-- A sequence succeeds where both parts do. -/
theorem Action.bind_eq_ok {α β : Type} {x : Action α} {f : α → Action β} {s u : State} {b : β}
    (h : (x >>= f) s = .ok b u) : ∃ a t, x s = .ok a t ∧ f a t = .ok b u := by
  change EStateM.bind x f s = .ok b u at h
  unfold EStateM.bind at h
  cases hx : x s with
  | ok a t => exact ⟨a, t, rfl, by simpa only [hx] using h⟩
  | error fault t => simp [hx] at h

/-- A sequence fails where one of its parts does. -/
theorem Action.bind_eq_error {α β : Type} {x : Action α} {f : α → Action β} {s u : State}
    {fault : Fault} (h : (x >>= f) s = .error fault u) :
    x s = .error fault u ∨ ∃ a t, x s = .ok a t ∧ f a t = .error fault u := by
  change EStateM.bind x f s = .error fault u at h
  unfold EStateM.bind at h
  cases hx : x s with
  | ok a t => exact .inr ⟨a, t, rfl, by simpa only [hx] using h⟩
  | error fault t =>
    simp only [hx, EStateM.Result.error.injEq] at h
    exact .inl (by rw [h.1, h.2])

/-- A charge for work on data. -/
inductive Charge (p : Policy) (m : Meter) : Meter → Prop
  | push (bytes : Nat) : Charge p m (m.countPush p bytes)
  | arithmetic (bytes : Nat) : Charge p m (m.countArithmetic p bytes)
  | hash (iterations : Nat) : Charge p m (m.countHash p iterations)
  | signatureChecks (count : Nat) : Charge p m (m.countSignatureChecks p count)

/-- One move of data. -/
inductive DataMove (p : Policy) (s : State) : State → Prop
  /-- Items are moved, copied or dropped. -/
  | shuffle (stack alt : List Bytes) (h : ∀ item ∈ stack ++ alt, item ∈ s.stack ++ s.alt) :
      DataMove p s { s with stack := stack, alt := alt }
  /-- An item comes in. -/
  | insert (item : Bytes) (h : item.length ≤ p.limits.itemLength) :
      DataMove p s { s with stack := item :: s.stack }
  /-- Work is charged for. -/
  | charge (meter : Meter) (h : Charge p s.meter meter) : DataMove p s { s with meter := meter }

/-- Any number of moves of data. -/
abbrev DataMoves (p : Policy) : State → State → Prop := Relation.ReflTransGen (DataMove p)

variable {p : Policy}

/-- A property that each move keeps is kept by all of them. -/
theorem DataMoves.invariant {P : State → Prop} (hmove : ∀ s t, DataMove p s t → P s → P t)
    {s t : State} (h : DataMoves p s t) (hs : P s) : P t := by
  induction h with
  | refl => exact hs
  | tail _ hlast ih => exact hmove _ _ hlast ih

/-- Moves of data change nothing but the stacks and the meter. -/
theorem DataMoves.frame {s t : State} (h : DataMoves p s t) :
    t = { s with stack := t.stack, alt := t.alt, meter := t.meter } := by
  refine h.invariant (P := fun t ↦ t = { s with stack := t.stack, alt := t.alt, meter := t.meter })
    ?_ rfl
  intro u v huv hu
  cases huv with
  | shuffle stack alt _ => rw [hu]
  | insert item _ => rw [hu]
  | charge meter _ => rw [hu]

theorem DataMoves.meter_invariant {Q : Meter → Prop}
    (hcharge : ∀ meter meter', Charge p meter meter' → Q meter → Q meter') {s t : State}
    (h : DataMoves p s t) (hs : Q s.meter) : Q t.meter := by
  refine h.invariant (P := fun s ↦ Q s.meter) ?_ hs
  intro u v huv hu
  cases huv with
  | shuffle => exact hu
  | insert => exact hu
  | charge meter hmeter => exact hcharge _ _ hmeter hu

/-- A new stack may be made of any items of the old one. -/
theorem DataMoves.restack {s : State} {stack : List Bytes} (h : ∀ item ∈ stack, item ∈ s.stack) :
    DataMoves p s { s with stack := stack } := by
  refine .single (.shuffle stack s.alt ?_)
  intro item hitem
  rcases List.mem_append.mp hitem with hstack | halt
  · exact List.mem_append_left _ (h item hstack)
  · exact List.mem_append_right _ halt

theorem DataMoves.dropTop {s : State} {top : Bytes} {stack : List Bytes}
    (hs : s.stack = top :: stack) : DataMoves p s { s with stack := stack } :=
  .restack fun _ hitem ↦ hs ▸ List.mem_cons_of_mem top hitem

/-- An action only moves data. -/
def IsData {α : Type} (p : Policy) (x : Action α) : Prop := ∀ s, DataMoves p s (x.after s)

namespace IsData

variable {α β : Type}

theorem pure (a : α) : IsData p (Pure.pure a : Action α) := fun _ ↦ .refl

theorem throw (fault : Fault) : IsData p (MonadExcept.throw fault : Action α) := fun _ ↦ .refl

theorem get : IsData p (MonadState.get : Action State) := fun _ ↦ .refl

theorem bind {x : Action α} {f : α → Action β} (hx : IsData p x) (hf : ∀ a, IsData p (f a)) :
    IsData p (x >>= f) := by
  intro s
  have hfirst := hx s
  cases h : x s with
  | ok a t =>
    rw [Action.after_of_ok h] at hfirst
    rw [Action.after_bind_of_ok f h]
    exact hfirst.trans (hf a t)
  | error fault t =>
    rw [Action.after_of_error h] at hfirst
    rw [Action.after_bind_of_error f h]
    exact hfirst

theorem ite {c : Prop} [Decidable c] {x y : Action α} (hx : IsData p x) (hy : IsData p y) :
    IsData p (if c then x else y) := by
  split
  · exact hx
  · exact hy

/-- A check that fails before the rest of an action. -/
theorem guard {c : Prop} [Decidable c] {fault : Fault} {f : β → Action α} {x : Action α}
    (hx : IsData p x) : IsData p (if c then MonadExcept.throw fault >>= f else x) := by
  split
  · exact fun _ ↦ .refl
  · exact hx

/-! ## Elementary actions -/

theorem pop : IsData p Action.pop := by
  intro s
  unfold Action.after Action.pop
  cases hs : s.stack with
  | nil => exact .refl
  | cons top rest => exact .dropTop hs

theorem popAlt : IsData p Action.popAlt := by
  intro s
  unfold Action.after Action.popAlt
  cases hs : s.alt with
  | nil => exact .refl
  | cons top rest =>
    refine .single (.shuffle s.stack rest ?_)
    intro item hitem
    simp only [hs, List.mem_append, List.mem_cons] at hitem ⊢
    tauto

theorem popMany (count : Nat) : IsData p (Action.popMany count) := by
  intro s
  unfold Action.after Action.popMany
  by_cases hs : s.stack.length < count
  · simpa only [if_pos hs] using .refl
  · simp only [if_neg hs]
    exact .restack fun item hitem ↦ List.mem_of_mem_drop hitem

theorem inspect (f : List Bytes → Option α) : IsData p (Action.inspect f) := by
  intro s
  unfold Action.after Action.inspect
  cases f s.stack with
  | none => exact .refl
  | some a => exact .refl

/-- A rearrangement must not make up items. -/
theorem rearrange {f : List Bytes → Option (List Bytes)}
    (hf : ∀ old new, f old = some new → ∀ item ∈ new, item ∈ old) :
    IsData p (Action.rearrange f) := by
  intro s
  unfold Action.after Action.rearrange
  cases hs : f s.stack with
  | none => exact .refl
  | some stack => exact .restack (hf _ _ hs)

theorem meter {f : Meter → Meter} (hf : ∀ m, Charge p m (f m)) : IsData p (Action.meter f) :=
  fun s ↦ .single (.charge _ (hf s.meter))

theorem push (item : Bytes) : IsData p (Action.push p item) := by
  intro s
  unfold Action.after Action.push
  by_cases hs : p.limits.itemLength < item.length
  · simpa only [if_pos hs] using .refl
  · simp only [if_neg hs]
    have hcharge : DataMove p s { s with meter := s.meter.countPush p item.length } :=
      .charge _ (.push item.length)
    exact .tail (.single hcharge) (.insert item (Nat.le_of_not_lt hs))

theorem pushBool (b : Bool) : IsData p (Action.pushBool p b) := push _

theorem pushNumber (v : Int) : IsData p (Action.pushNumber p v) := ite (throw _) (push _)

theorem readNumber (limit : Nat) (item : Bytes) : IsData p (Action.readNumber limit item) := by
  unfold Action.readNumber
  split
  · exact pure _
  · exact throw _

theorem popSized : IsData p (Action.popSized p) :=
  bind pop fun _ ↦ bind (readNumber _ _) fun _ ↦ pure _

theorem popNumber : IsData p (Action.popNumber p) := bind popSized fun _ ↦ pure _

theorem require (condition : Bool) (op : Opcode) : IsData p (Action.require condition op) :=
  ite (pure _) (throw _)

end IsData

end ScriptMachine
