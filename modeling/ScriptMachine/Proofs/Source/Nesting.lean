import ScriptMachine.Proofs.Source.Compilation

/-!
# Nested ranges

The nodes of a script stand in order, each after the end of the one before it, and all of them
within the script. A node that pushes or evaluates a script goes beyond it at both ends. This is
kept by every lexeme: an open construct starts after the nodes before it, and the nodes inside come
after what opened it. Where a text does not compile, the place of the fault lies within the text.
-/

namespace ScriptMachine.Source

/-! ## Nodes in order -/

namespace Tree

variable {t : Tree} {n : Node} {id : Nat} {r : Range} {script : List Nat}
  {lower middle upper : Position}

/-- The range of the node at a place. -/
def rangeAt? (t : Tree) (id : Nat) : Option Range := (t.get? id).map Node.range

/-- The nodes of a script are there and stand in order between two positions. -/
def InOrder (t : Tree) (lower upper : Position) (script : List Nat) : Prop :=
  ∃ ranges, script.map t.rangeAt? = ranges.map some ∧ Range.InOrder lower upper ranges

/-- The nodes of a script lie within its range, and each of them ends before the next one starts. -/
structure Arranges (t : Tree) (s : Nested) : Prop where
  start_le : s.range.start ≤ s.range.stop
  within : ∀ id ∈ s.script, ∃ n, t.get? id = some n ∧ s.range.contains n.range = true
  pairwise : s.script.Pairwise fun a b ↦
    ∀ n n', t.get? a = some n → t.get? b = some n' → n.range.stop ≤ n'.range.start

theorem rangeAt?_add (h : t.rangeAt? id = some r) : (t.add n).rangeAt? id = some r := by
  obtain ⟨old, hget, rfl⟩ := Option.map_eq_some_iff.mp h
  rw [rangeAt?, t.get?_add_of_lt n (lt_size_of_get? hget), hget]
  rfl

namespace InOrder

theorem nil (h : lower ≤ upper) : t.InOrder lower upper [] := ⟨[], rfl, h⟩

theorem le (h : t.InOrder lower upper script) : lower ≤ upper := by
  obtain ⟨ranges, -, horder⟩ := h
  exact horder.le

theorem exists_range (h : t.InOrder lower upper script) :
    ∀ id ∈ script, ∃ r, t.rangeAt? id = some r ∧
      (⟨lower, upper⟩ : Range).contains r = true := by
  obtain ⟨ranges, hranges, horder⟩ := h
  intro id hid
  have hmem : t.rangeAt? id ∈ ranges.map some := hranges ▸ List.mem_map_of_mem hid
  obtain ⟨r, hr, hat⟩ := List.mem_map.mp hmem
  exact ⟨r, hat.symm, (horder.contains_of_mem r hr).2⟩

/-- More nodes do not change the order of those that are there. -/
theorem add (h : t.InOrder lower upper script) (n : Node) :
    (t.add n).InOrder lower upper script := by
  have hsame : script.map (t.add n).rangeAt? = script.map t.rangeAt? := by
    refine List.map_congr_left fun id hid ↦ ?_
    obtain ⟨r, hr, -⟩ := h.exists_range id hid
    rw [hr, rangeAt?_add hr]
  obtain ⟨ranges, hranges, horder⟩ := h
  exact ⟨ranges, hsame.trans hranges, horder⟩

theorem trans_le (h : t.InOrder lower middle script) (hle : middle ≤ upper) :
    t.InOrder lower upper script := by
  obtain ⟨ranges, hranges, horder⟩ := h
  exact ⟨ranges, hranges, horder.trans_le hle⟩

/-- A node that starts after the others comes last. -/
theorem concat (h : t.InOrder lower middle script) (hle : middle ≤ n.range.start)
    (hlt : n.range.start < n.range.stop) :
    (t.add n).InOrder lower n.range.stop (script ++ [t.size]) := by
  obtain ⟨ranges, hranges, horder⟩ := h.add n
  refine ⟨ranges ++ [n.range], ?_, horder.append ⟨hle, hlt, Position.le_refl _⟩⟩
  have hlast : (t.add n).rangeAt? t.size = some n.range := by
    rw [rangeAt?, t.get?_add_size]
    rfl
  simp [hranges, hlast]

theorem arranges {s : Nested} (h : t.InOrder s.range.start s.range.stop s.script) :
    t.Arranges s where
  start_le := h.le
  within := by
    intro id hid
    obtain ⟨r, hr, hcontains⟩ := h.exists_range id hid
    obtain ⟨n, hn, rfl⟩ := Option.map_eq_some_iff.mp hr
    exact ⟨n, hn, hcontains⟩
  pairwise := by
    obtain ⟨ranges, hranges, horder⟩ := h
    have hpairs : (ranges.map some).Pairwise fun a b ↦
        ∀ r r', a = some r → b = some r' → r.stop ≤ r'.start := by
      rw [List.pairwise_map]
      refine horder.pairwise.imp fun hle r r' hr hr' ↦ ?_
      cases hr
      cases hr'
      exact hle
    rw [← hranges, List.pairwise_map] at hpairs
    refine hpairs.imp ?_
    intro a b hle n n' hn hn'
    apply hle n.range n'.range
    · rw [rangeAt?, hn]
      rfl
    · rw [rangeAt?, hn']
      rfl

end InOrder

/-- The node is not empty, and it goes beyond what it pushes or evaluates at both ends. -/
structure Encloses (t : Tree) (n : Node) : Prop where
  start_lt : n.range.start < n.range.stop
  inside : ∀ s, n.push = some s ∨ n.source = some s →
    n.range.start < s.range.start ∧ s.range.stop < n.range.stop ∧
      t.InOrder s.range.start s.range.stop s.script

theorem Encloses.add (h : t.Encloses n) (added : Node) : (t.add added).Encloses n where
  start_lt := h.start_lt
  inside := by
    intro s hs
    obtain ⟨hstart, hstop, horder⟩ := h.inside s hs
    exact ⟨hstart, hstop, horder.add added⟩

/-- The nodes so far stand in order up to a position: those of an open construct after what opened
it, and this after the nodes before the construct. -/
def OpenTo (t : Tree) : List Frame → Position → List Nat → Prop
  | [], upper, script => t.InOrder origin upper script.reverse
  | frame :: frames, upper, script =>
    t.InOrder frame.opener.stop upper script.reverse ∧
      frame.opener.start < frame.opener.stop ∧
        t.OpenTo frames frame.opener.start frame.outer

namespace OpenTo

variable {frames : List Frame}

theorem add (h : t.OpenTo frames upper script) (n : Node) :
    (t.add n).OpenTo frames upper script := by
  induction frames generalizing upper script with
  | nil => exact InOrder.add h n
  | cons frame frames ih => exact ⟨h.1.add n, h.2.1, ih h.2.2⟩

theorem trans_le (h : t.OpenTo frames middle script) (hle : middle ≤ upper) :
    t.OpenTo frames upper script := by
  cases frames with
  | nil => exact InOrder.trans_le h hle
  | cons frame frames => exact ⟨h.1.trans_le hle, h.2⟩

theorem origin_le (h : t.OpenTo frames upper script) : origin ≤ upper := by
  induction frames generalizing upper script with
  | nil => exact InOrder.le h
  | cons frame frames ih =>
    obtain ⟨hscript, hlt, houter⟩ := h
    exact Position.le_trans (ih houter) (Position.le_trans (Position.le_of_lt hlt) hscript.le)

/-- From the start of the innermost open construct on, the text is a part of the whole. -/
theorem opener_within {frame : Frame} (h : t.OpenTo (frame :: frames) lower script)
    (hle : lower ≤ upper) :
    frame.opener.start ≤ upper ∧
      (⟨origin, upper⟩ : Range).contains ⟨frame.opener.start, upper⟩ = true := by
  obtain ⟨hscript, hlt, houter⟩ := h
  have hstart := Position.le_trans (Position.le_of_lt hlt) (Position.le_trans hscript.le hle)
  exact ⟨hstart, Range.contains_iff.mpr ⟨houter.origin_le, Position.le_refl _⟩⟩

theorem concat (h : t.OpenTo frames middle script) (hle : middle ≤ n.range.start)
    (hlt : n.range.start < n.range.stop) :
    (t.add n).OpenTo frames n.range.stop (t.size :: script) := by
  cases frames with
  | nil =>
    change (t.add n).InOrder origin n.range.stop (t.size :: script).reverse
    rw [List.reverse_cons]
    exact InOrder.concat h hle hlt
  | cons frame frames =>
    refine ⟨?_, h.2.1, OpenTo.add h.2.2 n⟩
    rw [List.reverse_cons]
    exact h.1.concat hle hlt

end OpenTo

end Tree

/-! ## Compilations under way -/

/-- The fault is at a place in the text up to a position. -/
def Fault.Within (upper : Position) (fault : Fault) : Prop :=
  fault.range.start ≤ fault.range.stop ∧ (⟨origin, upper⟩ : Range).contains fault.range = true

namespace Progress

/-- All that has been compiled stands in order up to a position, and every node encloses what is
inside it. -/
structure InOrder (upper : Position) (p : Progress) : Prop where
  openTo : p.tree.OpenTo p.frames upper p.script
  encloses : ∀ id n, p.tree.get? id = some n → p.tree.Encloses n

/-- Compiling a text up to a position keeps the order or ends in a fault that is there. -/
def Reaches (upper : Position) : Except Fault Progress → Prop
  | .ok p => p.InOrder upper
  | .error fault => fault.Within upper

variable {m : Machine} {p : Progress} {n : Node} {x : Lexeme} {xs : List Lexeme}
  {result : Except Fault Progress} {lower upper : Position}

theorem inOrder_empty : InOrder origin {} where
  openTo := Tree.InOrder.nil origin.le_refl
  encloses := by simp [Tree.get?]

theorem InOrder.add (h : p.InOrder lower) (hn : p.tree.Encloses n) (hle : lower ≤ n.range.start) :
    (p.add n).InOrder n.range.stop where
  openTo := h.openTo.concat hle hn.start_lt
  encloses := by
    intro id other hget
    obtain hold | ⟨-, rfl⟩ := Tree.get?_add_cases hget
    · exact (h.encloses id other hold).add n
    · exact hn.add other

theorem Reaches.trans_le (h : Reaches lower result) (hle : lower ≤ upper) :
    Reaches upper result := by
  cases result with
  | ok p => exact ⟨h.openTo.trans_le hle, h.encloses⟩
  | error fault =>
    obtain ⟨hstart, hwithin⟩ := h
    rw [Range.contains_iff] at hwithin
    exact ⟨hstart, Range.contains_iff.mpr ⟨hwithin.1, Position.le_trans hwithin.2 hle⟩⟩

/-- Where a construct is closed, the node of it starts where it was opened, after all before it. -/
theorem InOrder.closed {frame : Frame} {frames : List Frame} (h : p.InOrder lower)
    (hframes : p.frames = frame :: frames) (hle : lower ≤ x.range.start)
    (hlt : x.range.start < x.range.stop)
    (hn : bracketNode m frame.bracket (p.inside frame x.range)
      ⟨frame.opener.start, x.range.stop⟩ = .ok n) :
    (({ p with script := frame.outer, frames := frames } : Progress).add n).InOrder
      x.range.stop := by
  obtain ⟨hrange, hinside, -⟩ := bracketNode_eq_ok hn
  have hopen := h.openTo
  rw [hframes] at hopen
  obtain ⟨hscript, hopener, houter⟩ := hopen
  have hscript := hscript.trans_le hle
  have hencloses : p.tree.Encloses n := by
    constructor
    · rw [hrange]
      apply Position.lt_of_lt_of_le hopener
      exact Position.le_trans hscript.le (Position.le_of_lt hlt)
    · intro s hs
      obtain rfl := hinside s hs
      rw [hrange]
      exact ⟨hopener, hlt, hscript⟩
  have hclosed := InOrder.add (p := { p with script := frame.outer, frames := frames })
    ⟨houter, h.encloses⟩ hencloses (by rw [hrange]; exact Position.le_refl _)
  rwa [hrange] at hclosed

theorem InOrder.fed (h : p.InOrder lower) (hle : lower ≤ x.range.start)
    (hlt : x.range.start < x.range.stop) (hfeeds : p.Feeds m x result) :
    Reaches x.range.stop result := by
  have horigin : origin ≤ x.range.start := Position.le_trans h.openTo.origin_le hle
  cases hfeeds with
  | single bytes =>
    have hencloses : p.tree.Encloses { bytecode := bytes, range := x.range } := by
      refine ⟨hlt, ?_⟩
      rintro s (hs | hs) <;> cases hs
    exact InOrder.add h hencloses hle
  | opened bracket =>
    exact ⟨⟨.nil (Position.le_refl _), hlt, h.openTo.trans_le hle⟩, h.encloses⟩
  | closed hframes hn => exact h.closed hframes hle hlt hn
  | wrong mistake =>
    exact ⟨Position.le_of_lt hlt, Range.contains_iff.mpr ⟨horigin, Position.le_refl _⟩⟩
  | @wrongInside frame frames hframes mistake =>
    have hopen := h.openTo
    rw [hframes] at hopen
    exact hopen.opener_within (Position.le_trans hle (Position.le_of_lt hlt))

/-- Lexemes that follow one another keep the order. -/
theorem InOrder.reaches (h : p.InOrder lower)
    (hxs : Range.InOrder lower upper (xs.map Lexeme.range)) :
    Reaches upper (p.feedAll m xs) := by
  induction xs generalizing p lower with
  | nil => exact ⟨h.openTo.trans_le hxs, h.encloses⟩
  | cons x xs ih =>
    obtain ⟨hle, hlt, hrest⟩ := hxs
    have hnext := h.fed hle hlt (feeds_feed m p x)
    change Reaches upper (p.feed m x >>= fun next ↦ next.feedAll m xs)
    cases hfeed : p.feed m x with
    | error fault =>
      rw [hfeed] at hnext
      exact hnext.trans_le hrest.le
    | ok next =>
      rw [hfeed] at hnext
      exact ih hnext hrest

end Progress

/-! ## Compiled texts -/

/-- The ranges of a compiled text are nested: the nodes of every script stand in order within it,
and a node goes beyond the script that it pushes or evaluates at both ends. What is wrong with a
text that does not compile is in the text. -/
theorem ranges_nest (m : Machine) (source : String) :
    match compile m source with
    | .ok c =>
      c.script.range = measuredExtent source ∧ c.tree.Arranges c.script ∧
        ∀ id n, c.tree.get? id = some n →
          n.range.isEmpty = false ∧ ∀ s, n.push = some s ∨ n.source = some s →
            n.range.start < s.range.start ∧ s.range.stop < n.range.stop ∧ c.tree.Arranges s
    | .error fault =>
      fault.range.start ≤ fault.range.stop ∧
        (measuredExtent source).contains fault.range = true := by
  have hreach : Progress.Reaches (extent source).stop
      (Progress.feedAll m {} (lexemes source)) :=
    Progress.inOrder_empty.reaches (inOrder_lexemes source)
  rw [← extent_eq_measuredExtent]
  cases hc : compile m source with
  | ok c =>
    obtain ⟨p, hp, hframes, rfl⟩ := compile_eq_ok hc
    rw [hp] at hreach
    have hscript := hreach.openTo
    rw [hframes] at hscript
    refine ⟨rfl, Tree.InOrder.arranges hscript, fun id n hn ↦ ?_⟩
    have hencloses := hreach.encloses id n hn
    refine ⟨Range.isEmpty_eq_false_iff.mpr hencloses.start_lt, fun s hs ↦ ?_⟩
    obtain ⟨hstart, hstop, horder⟩ := hencloses.inside s hs
    exact ⟨hstart, hstop, horder.arranges⟩
  | error fault =>
    obtain hfault | ⟨p, frame, frames, hp, hframes, hrange⟩ := compile_eq_error hc
    · rw [hfault] at hreach
      exact hreach
    · rw [hp] at hreach
      have hopen := hreach.openTo
      rw [hframes] at hopen
      change fault.range.start ≤ fault.range.stop ∧ _
      rw [hrange]
      exact hopen.opener_within (Position.le_refl _)

example :
    (compile {} "<$(OP_1)\n// two\n0x02>").toOption.map (fun c ↦
        (c.script.range, c.tree.nodes.toList.map Node.range)) =
      some (⟨⟨1, 1⟩, ⟨3, 6⟩⟩,
        [⟨⟨1, 4⟩, ⟨1, 8⟩⟩, ⟨⟨1, 2⟩, ⟨1, 9⟩⟩, ⟨⟨3, 1⟩, ⟨3, 5⟩⟩, ⟨⟨1, 1⟩, ⟨3, 6⟩⟩]) := by
  decide +kernel

end ScriptMachine.Source
