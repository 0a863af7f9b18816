import Mathlib
import ScriptMachine.Source.Range

/-!
# Ranges that cover others

Positions are ordered by line, then column. Merging ranges gives the smallest range that contains
them all.
-/

namespace ScriptMachine.Source

namespace Position

variable {a b c : Position}

theorem lt_iff : a < b ↔ a.line < b.line ∨ a.line = b.line ∧ a.column < b.column := by
  change a.ble b = true ∧ a ≠ b ↔ _
  have hne : a ≠ b ↔ ¬ (a.line = b.line ∧ a.column = b.column) := by
    cases a
    cases b
    simp
  rw [show a.ble b = true ↔ _ from le_iff, hne]
  omega

protected theorem le_refl (a : Position) : a ≤ a := by
  rw [le_iff]
  omega

protected theorem le_trans (hab : a ≤ b) (hbc : b ≤ c) : a ≤ c := by
  rw [le_iff] at *
  omega

protected theorem not_le : ¬ a ≤ b ↔ b < a := by
  rw [le_iff, lt_iff]
  omega

protected theorem not_lt : ¬ a < b ↔ b ≤ a := by
  rw [le_iff, lt_iff]
  omega

protected theorem lt_of_lt_of_le (hab : a < b) (hbc : b ≤ c) : a < c := by
  rw [le_iff] at hbc
  rw [lt_iff] at *
  omega

protected theorem lt_of_le_of_lt (hab : a ≤ b) (hbc : b < c) : a < c := by
  rw [le_iff] at hab
  rw [lt_iff] at *
  omega

theorem le_min_iff : c ≤ a.min b ↔ c ≤ a ∧ c ≤ b := by
  unfold Position.min
  split
  · rename_i hab
    exact ⟨fun h ↦ ⟨h, Position.le_trans h hab⟩, And.left⟩
  · rename_i hab
    rw [Position.not_le, lt_iff] at hab
    simp only [le_iff]
    omega

theorem max_le_iff : a.max b ≤ c ↔ a ≤ c ∧ b ≤ c := by
  unfold Position.max
  split
  · rename_i hab
    exact ⟨fun h ↦ ⟨Position.le_trans hab h, h⟩, And.right⟩
  · rename_i hab
    rw [Position.not_le, lt_iff] at hab
    simp only [le_iff]
    omega

protected theorem le_max_left (a b : Position) : a ≤ a.max b :=
  (max_le_iff.mp (Position.le_refl _)).1

protected theorem le_max_right (a b : Position) : b ≤ a.max b :=
  (max_le_iff.mp (Position.le_refl _)).2

theorem lt_advance (a : Position) (c : Char) : a < a.advance c := by
  unfold advance
  split <;> rw [lt_iff] <;> simp

protected theorem le_of_lt (h : a < b) : a ≤ b := h.1

end Position

namespace Range

variable {a b outer inner : Range} {S T : Set Range}

theorem contains_iff :
    outer.contains inner = true ↔ outer.start ≤ inner.start ∧ inner.stop ≤ outer.stop := by
  simp [contains]

theorem contains_refl (a : Range) : a.contains a = true :=
  contains_iff.mpr ⟨Position.le_refl _, Position.le_refl _⟩

theorem contains_trans (h : outer.contains a = true) (h' : a.contains inner = true) :
    outer.contains inner = true := by
  rw [contains_iff] at *
  exact ⟨Position.le_trans h.1 h'.1, Position.le_trans h'.2 h.2⟩

theorem contains_merge_iff :
    outer.contains (a.merge b) = true ↔ outer.contains a = true ∧ outer.contains b = true := by
  simp only [contains_iff, merge, Position.le_min_iff, Position.max_le_iff]
  tauto

theorem overlaps_iff : a.overlaps b = true ↔ a.start < b.stop ∧ b.start < a.stop := by
  simp [overlaps]

/-- What overlaps a range overlaps every range around it. -/
theorem overlaps_of_contains (h : outer.contains inner = true) (ha : a.overlaps inner = true) :
    a.overlaps outer = true := by
  rw [contains_iff] at h
  rw [overlaps_iff] at *
  exact ⟨Position.lt_of_lt_of_le ha.1 h.2, Position.lt_of_le_of_lt h.1 ha.2⟩

/-- The smallest range that contains all ranges of a set. -/
structure IsHull (S : Set Range) (r : Range) : Prop where
  contains : ∀ a ∈ S, r.contains a = true
  least : ∀ outer : Range, (∀ a ∈ S, outer.contains a = true) → outer.contains r = true

theorem isHull_iff {r : Range} :
    IsHull S r ↔
      ∀ outer : Range, outer.contains r = true ↔ ∀ a ∈ S, outer.contains a = true := by
  constructor
  · intro h outer
    exact ⟨fun hr a ha ↦ contains_trans hr (h.contains a ha), h.least outer⟩
  · intro h
    exact ⟨(h r).mp r.contains_refl, fun outer ↦ (h outer).mpr⟩

theorem isHull_singleton (a : Range) : IsHull {a} a := by
  rw [isHull_iff]
  simp

theorem IsHull.union (ha : IsHull S a) (hb : IsHull T b) : IsHull (S ∪ T) (a.merge b) := by
  rw [isHull_iff] at *
  intro outer
  rw [contains_merge_iff, ha outer, hb outer]
  simp only [Set.mem_union]
  constructor
  · rintro ⟨hS, hT⟩ c (hc | hc)
    · exact hS c hc
    · exact hT c hc
  · exact fun h ↦ ⟨fun c hc ↦ h c (.inl hc), fun c hc ↦ h c (.inr hc)⟩

theorem isHull_foldl_merge (a : Range) (others : List Range) :
    IsHull {r | r ∈ a :: others} (others.foldl merge a) := by
  induction others generalizing a with
  | nil => simpa using isHull_singleton a
  | cons b others ih =>
    have hmerge := ih (a.merge b)
    rw [isHull_iff] at *
    intro outer
    rw [List.foldl_cons, hmerge outer]
    simp [contains_merge_iff, and_assoc]

/-- The smallest range around ranges that are such themselves. -/
theorem IsHull.of_parts {r : Range} (h : IsHull S r) (hparts : ∀ a ∈ S, ∃ U ⊆ T, IsHull U a)
    (hcover : ∀ b ∈ T, ∃ a ∈ S, a.contains b = true) : IsHull T r := by
  constructor
  · intro b hb
    obtain ⟨a, ha, hab⟩ := hcover b hb
    exact contains_trans (h.contains a ha) hab
  · intro outer houter
    refine h.least outer fun a ha ↦ ?_
    obtain ⟨U, hU, hhull⟩ := hparts a ha
    exact hhull.least outer fun b hb ↦ houter b (hU hb)

theorem isEmpty_eq_false_iff : a.isEmpty = false ↔ a.start < a.stop := by
  rw [isEmpty, decide_eq_false_iff_not, Position.not_le]

/-! ## Ranges one after the other -/

/-- The ranges lie between two positions, none is empty, and none starts before the end of the one
before it. -/
def InOrder (lower upper : Position) : List Range → Prop
  | [] => lower ≤ upper
  | r :: rest => lower ≤ r.start ∧ r.start < r.stop ∧ InOrder r.stop upper rest

namespace InOrder

variable {lower middle upper : Position} {xs ys : List Range}

theorem le (h : InOrder lower upper xs) : lower ≤ upper := by
  induction xs generalizing lower with
  | nil => exact h
  | cons x xs ih =>
    obtain ⟨hstart, hlt, hrest⟩ := h
    exact Position.le_trans hstart (Position.le_trans (Position.le_of_lt hlt) (ih hrest))

theorem of_le (hle : lower ≤ middle) (h : InOrder middle upper xs) : InOrder lower upper xs := by
  cases xs with
  | nil => exact Position.le_trans hle h
  | cons x xs => exact ⟨Position.le_trans hle h.1, h.2⟩

theorem append (hxs : InOrder lower middle xs) (hys : InOrder middle upper ys) :
    InOrder lower upper (xs ++ ys) := by
  induction xs generalizing lower with
  | nil => exact of_le hxs hys
  | cons x xs ih => exact ⟨hxs.1, hxs.2.1, ih hxs.2.2⟩

theorem trans_le (h : InOrder lower middle xs) (hle : middle ≤ upper) :
    InOrder lower upper xs := by
  rw [← xs.append_nil]
  exact h.append hle

/-- Every one of the ranges lies between the positions. -/
theorem contains_of_mem (h : InOrder lower upper xs) :
    ∀ r ∈ xs, r.start < r.stop ∧ (⟨lower, upper⟩ : Range).contains r = true := by
  induction xs generalizing lower with
  | nil => simp
  | cons x xs ih =>
    obtain ⟨hstart, hlt, hrest⟩ := h
    have hstop := Position.le_trans hstart (Position.le_of_lt hlt)
    intro r hr
    rcases List.mem_cons.mp hr with rfl | hr
    · exact ⟨hlt, contains_iff.mpr ⟨hstart, hrest.le⟩⟩
    · obtain ⟨hlt, hcontains⟩ := ih hrest r hr
      obtain ⟨hlower, hupper⟩ := contains_iff.mp hcontains
      exact ⟨hlt, contains_iff.mpr ⟨Position.le_trans hstop hlower, hupper⟩⟩

/-- A range ends before all that come after it. -/
theorem pairwise (h : InOrder lower upper xs) : xs.Pairwise fun a b ↦ a.stop ≤ b.start := by
  induction xs generalizing lower with
  | nil => exact .nil
  | cons x xs ih =>
    refine .cons (fun r hr ↦ ?_) (ih h.2.2)
    exact (contains_iff.mp (h.2.2.contains_of_mem r hr).2).1

end InOrder

end Range

end ScriptMachine.Source
