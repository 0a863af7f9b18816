import ScriptMachine.Proofs.Source.Coverage

/-!
# Executed and unexecuted parts

The gaps that ranges leave in a whole, together with the ranges, make up the whole: a position is in
a gap where it is in no range. The ranges are sorted before their gaps are found, and a range that
comes again adds no gap, so only the set of ranges matters. An empty range covers nothing, but no
gap reaches across it.
-/

namespace ScriptMachine.Source

namespace Position

variable {a b p : Position} {whole : Range}

theorem clampTo_mono (hwhole : whole.start ≤ whole.stop) (h : a ≤ b) :
    a.clampTo whole ≤ b.clampTo whole := by
  unfold clampTo
  simp only [le_iff, lt_iff] at *
  split_ifs <;> omega

theorem clampTo_le (hstart : whole.start ≤ p) (h : a ≤ p) : a.clampTo whole ≤ p := by
  unfold clampTo
  simp only [le_iff, lt_iff] at *
  split_ifs <;> omega

protected theorem le_antisymm (hab : a ≤ b) (hba : b ≤ a) : a = b := by
  rw [le_iff] at hab hba
  cases a
  cases b
  simp only [mk.injEq] at *
  omega

theorem max_max_right (a b : Position) : (a.max b).max b = a.max b := by
  rw [Position.max]
  split
  · exact Position.le_antisymm (Position.le_max_right a b) ‹_›
  · rfl

end Position

namespace Range

/-- The position is one of the range. -/
def Covers (r : Range) (p : Position) : Prop := r.start ≤ p ∧ p < r.stop

instance (r : Range) (p : Position) : Decidable (r.Covers p) := inferInstanceAs (Decidable (_ ∧ _))

theorem not_covers_point (a p : Position) : ¬ (point a).Covers p := by
  rintro ⟨hstart, hstop⟩
  exact Position.not_lt.mpr hstart hstop

theorem overlaps_of_covers {a b : Range} {p : Position} (ha : a.Covers p) (hb : b.Covers p) :
    a.overlaps b = true :=
  overlaps_iff.mpr ⟨Position.lt_of_le_of_lt ha.1 hb.2, Position.lt_of_le_of_lt hb.1 ha.2⟩

theorem ble_antisymm {a b : Range} (hab : a.ble b = true) (hba : b.ble a = true) : a = b := by
  obtain ⟨⟨_, _⟩, _, _⟩ := a
  obtain ⟨⟨_, _⟩, _, _⟩ := b
  simp only [ble_iff, Position.lt_iff, Position.le_iff, Position.mk.injEq, mk.injEq] at *
  omega

end Range

/-! ## Gaps of sorted ranges -/

variable {whole : Range} {cursor p : Position} {ranges : List Range}

/-- What no range covers is in a gap, whatever the order of the ranges. -/
theorem exists_mem_gaps_covers (hcursor : whole.start ≤ cursor) (hp : cursor ≤ p)
    (hstop : p < whole.stop) (h : ∀ r ∈ ranges, ¬ r.Covers p) :
    ∃ gap ∈ gaps whole cursor ranges, gap.Covers p := by
  induction ranges generalizing cursor with
  | nil =>
    rw [gaps, if_pos (Position.lt_of_le_of_lt hp hstop)]
    exact ⟨_, List.mem_singleton_self _, hp, hstop⟩
  | cons r rest ih =>
    by_cases hbefore : p < r.start.clampTo whole
    · have hgap := Position.lt_of_le_of_lt hp hbefore
      exact ⟨_, mem_gaps_cons_iff.mpr (.inl ⟨hgap, rfl⟩), hp, hbefore⟩
    · -- The range starts at or before the position, so it stops there too.
      have hstart : r.start ≤ p := Position.le_of_clampTo_le hstop (Position.not_lt.mp hbefore)
      have hend : r.stop ≤ p := by
        rw [← Position.not_lt]
        exact fun hlt ↦ h r List.mem_cons_self ⟨hstart, hlt⟩
      have hclamp := Position.clampTo_le (Position.le_trans hcursor hp) hend
      have hnext := Position.le_trans hcursor (cursor.le_max_left (r.stop.clampTo whole))
      obtain ⟨gap, hgap, hcovers⟩ := ih hnext (Position.max_le_iff.mpr ⟨hp, hclamp⟩)
        fun other hother ↦ h other (List.mem_cons_of_mem r hother)
      exact ⟨gap, mem_gaps_cons_iff.mpr (.inr hgap), hcovers⟩

theorem pairwise_gaps (hwhole : whole.start ≤ whole.stop) (hcursor : whole.start ≤ cursor)
    (hsorted : ranges.Pairwise fun a b ↦ a.start ≤ b.start)
    (hvalid : ∀ r ∈ ranges, r.start ≤ r.stop) :
    (gaps whole cursor ranges).Pairwise fun a b ↦ a.stop ≤ b.start := by
  induction ranges generalizing cursor with
  | nil =>
    rw [gaps]
    split <;> simp
  | cons r rest ih =>
    obtain ⟨-, hrest⟩ := List.pairwise_cons.mp hsorted
    have hnext := Position.le_trans hcursor (cursor.le_max_left (r.stop.clampTo whole))
    have hothers := ih hnext hrest fun other hother ↦ hvalid other (List.mem_cons_of_mem r hother)
    rw [gaps]
    split
    · refine List.pairwise_cons.mpr ⟨fun gap hgap ↦ ?_, hothers⟩
      have hstart := (isGap_of_mem_gaps hrest hnext hgap).start
      have hmono := Position.clampTo_mono hwhole (hvalid r List.mem_cons_self)
      exact Position.le_trans hmono (Position.le_trans (cursor.le_max_right _) hstart)
    · exact hothers

/-! ## Ranges that come again -/

theorem gaps_cons_self (hwhole : whole.start ≤ whole.stop) {r : Range} (hvalid : r.start ≤ r.stop)
    (rest : List Range) : gaps whole cursor (r :: r :: rest) = gaps whole cursor (r :: rest) := by
  have hmono := Position.clampTo_mono hwhole hvalid
  have hagain : ¬ cursor.max (r.stop.clampTo whole) < r.start.clampTo whole :=
    Position.not_lt.mpr (Position.le_trans hmono (cursor.le_max_right _))
  simp only [gaps, Position.max_max_right, if_neg hagain]

theorem gaps_dedup (hwhole : whole.start ≤ whole.stop)
    (hsorted : ranges.Pairwise fun a b ↦ a.ble b = true)
    (hvalid : ∀ r ∈ ranges, r.start ≤ r.stop) (cursor : Position) :
    gaps whole cursor ranges.dedup = gaps whole cursor ranges := by
  induction ranges generalizing cursor with
  | nil => rfl
  | cons r rest ih =>
    obtain ⟨hfirst, hrest⟩ := List.pairwise_cons.mp hsorted
    have ih := ih hrest fun other hother ↦ hvalid other (List.mem_cons_of_mem r hother)
    by_cases hmem : r ∈ rest
    · rw [List.dedup_cons_of_mem hmem, ih]
      cases rest with
      | nil => cases hmem
      | cons next rest =>
        -- Equal ranges are neighbours, since they are sorted.
        have hnext : r = next := by
          rcases List.mem_cons.mp hmem with heq | hlater
          · exact heq
          · exact Range.ble_antisymm (hfirst next List.mem_cons_self)
              ((List.pairwise_cons.mp hrest).1 r hlater)
        subst hnext
        rw [gaps_cons_self hwhole (hvalid r List.mem_cons_self)]
    · rw [List.dedup_cons_of_notMem hmem, gaps, gaps, ih]

/-- Only the set of the covered ranges matters. -/
theorem uncovered_congr (hwhole : whole.start ≤ whole.stop) {covered covered' : List Range}
    (hmem : ∀ r, r ∈ covered' ↔ r ∈ covered) (hvalid : ∀ r ∈ covered, r.start ≤ r.stop) :
    uncovered whole covered' = uncovered whole covered := by
  have hperm : (covered'.mergeSort Range.ble).dedup.Perm (covered.mergeSort Range.ble).dedup := by
    rw [List.perm_ext_iff_of_nodup (List.nodup_dedup _) (List.nodup_dedup _)]
    simpa using hmem
  have hsame : (covered'.mergeSort Range.ble).dedup = (covered.mergeSort Range.ble).dedup :=
    hperm.eq_of_pairwise (fun _ _ _ _ ↦ Range.ble_antisymm)
      ((pairwise_ble_mergeSort covered').sublist (List.dedup_sublist _))
      ((pairwise_ble_mergeSort covered).sublist (List.dedup_sublist _))
  unfold uncovered
  rw [← gaps_dedup hwhole (pairwise_ble_mergeSort covered'), hsame,
    gaps_dedup hwhole (pairwise_ble_mergeSort covered)]
  · simpa using hvalid
  · simpa [hmem] using hvalid

/-! ## Executed samples -/

variable {samples : List (Range × Bool)} {hint : Option Position}

theorem mem_executedRanges_iff {r : Range} :
    r ∈ executedRanges samples hint ↔
      (∃ sample ∈ samples, sample.2 = true ∧ sample.1 = r) ∨
        samples = [] ∧ ∃ a ∈ hint, Range.point a = r := by
  unfold executedRanges
  cases samples with
  | nil => simp
  | cons sample samples => simp [and_assoc]

theorem forall_executedRanges_iff {P : Range → Prop} (hpoint : ∀ a, P (.point a)) :
    (∀ r ∈ executedRanges samples hint, P r) ↔
      ∀ sample ∈ samples, sample.2 = true → P sample.1 := by
  constructor
  · intro h sample hsample hexecuted
    exact h _ (mem_executedRanges_iff.mpr (.inl ⟨sample, hsample, hexecuted, rfl⟩))
  · intro h r hr
    rcases mem_executedRanges_iff.mp hr with ⟨sample, hsample, hexecuted, rfl⟩ | ⟨-, a, -, rfl⟩
    · exact h sample hsample hexecuted
    · exact hpoint a

theorem mem_executedRanges_congr {samples' : List (Range × Bool)}
    (h : ∀ sample, sample ∈ samples' ↔ sample ∈ samples) (r : Range) :
    r ∈ executedRanges samples' hint ↔ r ∈ executedRanges samples hint := by
  simp only [mem_executedRanges_iff, h, List.eq_nil_iff_forall_not_mem]

theorem exists_mem_unexecuted_covers_iff (hp : whole.Covers p) :
    (∃ gap ∈ unexecuted whole samples hint, gap.Covers p) ↔
      ∀ sample ∈ samples, sample.2 = true → ¬ sample.1.Covers p := by
  have hexecuted : (∀ r ∈ executedRanges samples hint, ¬ r.Covers p) ↔
      ∀ sample ∈ samples, sample.2 = true → ¬ sample.1.Covers p :=
    forall_executedRanges_iff fun a ↦ Range.not_covers_point a p
  rw [← hexecuted]
  constructor
  · rintro ⟨gap, hgap, hcovers⟩ r hr hr'
    have hdisjoint := (isGap_of_mem_uncovered hgap).disjoint r hr
    rw [Range.overlaps_of_covers hcovers hr'] at hdisjoint
    cases hdisjoint
  · intro h
    refine exists_mem_gaps_covers (Position.le_refl _) hp.1 hp.2 fun r hr ↦ ?_
    exact h r (List.mem_mergeSort.mp hr)

/-- The unexecuted parts of a whole are ranges with at least one position, inside of it, each ending
at or before the start of the next, and overlapping no executed sample. They have exactly the
positions that no executed sample covers. Neither the order nor the repetition of samples matters.
Without any sample they have all positions, even where a hint divides them. -/
theorem unexecuted_partitions_whole (whole : Range) (samples : List (Range × Bool))
    (hint : Option Position) (hwhole : whole.start ≤ whole.stop)
    (hsamples : ∀ sample ∈ samples, sample.2 = true → sample.1.start ≤ sample.1.stop) :
    let parts := unexecuted whole samples hint
    (∀ part ∈ parts, part.isEmpty = false ∧ whole.contains part = true ∧
        ∀ sample ∈ samples, sample.2 = true → part.overlaps sample.1 = false) ∧
      (parts.Pairwise fun a b ↦ a.stop ≤ b.start ∧ a.overlaps b = false) ∧
      (∀ p, whole.start ≤ p → p < whole.stop →
        ((∃ part ∈ parts, part.Covers p) ↔
          ∀ sample ∈ samples, sample.2 = true → ¬ sample.1.Covers p)) ∧
      (∀ samples', (∀ sample, sample ∈ samples' ↔ sample ∈ samples) →
        unexecuted whole samples' hint = parts) ∧
      ∀ start p, whole.Covers p → ∃ part ∈ unexecuted whole [] (some start), part.Covers p := by
  intro parts
  have hvalid : ∀ r ∈ executedRanges samples hint, r.start ≤ r.stop :=
    (forall_executedRanges_iff fun a ↦ Position.le_refl a).mpr hsamples
  refine ⟨fun part hpart ↦ ?_, ?_, fun p hstart hstop ↦ ?_, fun samples' hmem ↦ ?_,
    fun start p hp ↦ ?_⟩
  · have hgap := isGap_of_mem_uncovered hpart
    refine ⟨?_, Range.contains_iff.mpr ⟨hgap.start, hgap.stop⟩, fun sample hsample hexecuted ↦ ?_⟩
    · simpa [Range.isEmpty, Position.not_le] using hgap.nonempty
    · exact hgap.disjoint _ (mem_executedRanges_iff.mpr (.inl ⟨sample, hsample, hexecuted, rfl⟩))
  · have hsorted := (pairwise_ble_mergeSort (executedRanges samples hint)).imp Range.start_le_of_ble
    have hparts : parts.Pairwise fun a b ↦ a.stop ≤ b.start :=
      pairwise_gaps hwhole (Position.le_refl _) hsorted fun r hr ↦
        hvalid r (List.mem_mergeSort.mp hr)
    refine hparts.imp fun hle ↦ ⟨hle, ?_⟩
    rw [← Bool.not_eq_true, Range.overlaps_iff]
    exact fun hoverlap ↦ Position.not_lt.mpr hle hoverlap.2
  · exact exists_mem_unexecuted_covers_iff ⟨hstart, hstop⟩
  · exact uncovered_congr hwhole (mem_executedRanges_congr hmem) hvalid
  · exact (exists_mem_unexecuted_covers_iff hp).mpr (by simp)

/-- A range inside of another adds nothing, an empty one divides what is around it, one that was not
executed is left out, and one reaches across the end of the whole. The samples in the opposite order
and once more leave the same parts. -/
theorem unexecuted_partitions_whole_repeated :
    let whole : Range := ⟨⟨1, 1⟩, ⟨3, 4⟩⟩
    let samples : List (Range × Bool) := [(⟨⟨1, 3⟩, ⟨1, 6⟩⟩, true), (⟨⟨1, 4⟩, ⟨1, 5⟩⟩, true),
      (⟨⟨2, 1⟩, ⟨2, 1⟩⟩, true), (⟨⟨2, 2⟩, ⟨2, 9⟩⟩, false), (⟨⟨3, 2⟩, ⟨4, 1⟩⟩, true)]
    let parts := [⟨⟨1, 1⟩, ⟨1, 3⟩⟩, ⟨⟨1, 6⟩, ⟨2, 1⟩⟩, ⟨⟨2, 1⟩, ⟨3, 2⟩⟩]
    whole.start ≤ whole.stop ∧
      (∀ sample ∈ samples, sample.2 = true → sample.1.start ≤ sample.1.stop) ∧
      unexecuted whole samples none = parts ∧
      unexecuted whole (samples.reverse ++ samples) none = parts := by
  intro whole samples parts
  have hwhole : whole.start ≤ whole.stop := by decide
  have hsamples : ∀ sample ∈ samples, sample.2 = true → sample.1.start ≤ sample.1.stop := by decide
  have hsorted : (executedRanges samples none).Pairwise fun a b ↦ a.ble b = true := by decide
  have hparts : unexecuted whole samples none = parts := by
    rw [unexecuted, uncovered, List.mergeSort_of_pairwise hsorted]
    decide
  obtain ⟨-, -, -, hcongr, -⟩ := unexecuted_partitions_whole whole samples none hwhole hsamples
  refine ⟨hwhole, hsamples, hparts, ?_⟩
  rw [hcongr (samples.reverse ++ samples) (by simp), hparts]

end ScriptMachine.Source
