import ScriptMachine.Proofs.Source.Lexeme
import ScriptMachine.Source.Compilation

/-!
# Compiled texts

Nodes lie within their text, as the lexemes do that they are made of. A node is added after the
nodes that it refers to, so what was said of the bytecode of these stays true in the whole tree: the
trace of an evaluation is that of the nodes inside it.
-/

namespace ScriptMachine.Source

/-! ## Trees -/

namespace Tree

variable {t : Tree} {n : Node} {id : Nat}

theorem lt_size_of_get? (h : t.get? id = some n) : id < t.size :=
  (Array.getElem?_eq_some_iff.mp h).1

theorem get?_add_cases {added : Node} (h : (t.add added).get? id = some n) :
    t.get? id = some n ∨ id = t.size ∧ n = added := by
  have hlt := lt_size_of_get? h
  rw [size_add] at hlt
  rcases Nat.lt_succ_iff_lt_or_eq.mp hlt with hold | rfl
  · exact .inl (t.get?_add_of_lt added hold ▸ h)
  · rw [t.get?_add_size] at h
    exact .inr ⟨rfl, (Option.some.inj h).symm⟩

/-- More nodes do not change the bytecode of those that are there. -/
theorem bytecode_add {script : List Nat} (h : ∀ id ∈ script, id < t.size) :
    (t.add n).bytecode script = t.bytecode script := by
  unfold bytecode
  refine List.flatMap_congr fun id hid ↦ ?_
  rw [t.get?_add_of_lt n (h id hid)]

/-- Every node lies within the text, and the trace of an evaluation is that of the bytecode of the
nodes inside, which come before it. -/
structure Valid (m : Machine) (whole : Range) (t : Tree) : Prop where
  within : ∀ id n, t.get? id = some n → whole.contains n.range = true
  children_lt : ∀ id n, t.get? id = some n → ∀ source trace, n.evaluation? = some (source, trace) →
    ∀ child ∈ source.script, child < id
  trace_eq : ∀ id n, t.get? id = some n → ∀ source trace, n.evaluation? = some (source, trace) →
    trace = evaluationTrace m (t.bytecode source.script)

variable {m : Machine} {whole : Range}

theorem valid_empty (m : Machine) (whole : Range) : Valid m whole {} := by
  constructor <;> simp [get?]

theorem Valid.add (h : t.Valid m whole) (hrange : whole.contains n.range = true)
    (hevaluation : ∀ source trace, n.evaluation? = some (source, trace) →
      (∀ child ∈ source.script, child < t.size) ∧
        trace = evaluationTrace m (t.bytecode source.script)) :
    (t.add n).Valid m whole where
  within := by
    intro id n' hget
    obtain hold | ⟨-, rfl⟩ := get?_add_cases hget
    · exact h.within id n' hold
    · exact hrange
  children_lt := by
    intro id n' hget source trace hsource
    obtain hold | ⟨rfl, rfl⟩ := get?_add_cases hget
    · exact h.children_lt id n' hold source trace hsource
    · exact (hevaluation source trace hsource).1
  trace_eq := by
    intro id n' hget source trace hsource
    obtain hold | ⟨rfl, rfl⟩ := get?_add_cases hget
    · have hlt := h.children_lt id n' hold source trace hsource
      rw [bytecode_add fun child hchild ↦ (hlt child hchild).trans (lt_size_of_get? hold)]
      exact h.trace_eq id n' hold source trace hsource
    · obtain ⟨hlt, htrace⟩ := hevaluation source trace hsource
      rw [bytecode_add hlt, htrace]

end Tree

/-! ## Compilations under way -/

namespace Progress

/-- What has been compiled so far is valid, and all that refers to nodes refers to nodes that are
there. -/
structure Valid (m : Machine) (whole : Range) (p : Progress) : Prop where
  tree : p.tree.Valid m whole
  script_lt : ∀ id ∈ p.script, id < p.tree.size
  outer_lt : ∀ frame ∈ p.frames, ∀ id ∈ frame.outer, id < p.tree.size
  opener : ∀ frame ∈ p.frames, whole.start ≤ frame.opener.start

variable {m : Machine} {whole : Range} {p q : Progress} {n : Node}

theorem Valid.add (h : p.Valid m whole) (hrange : whole.contains n.range = true)
    (hevaluation : ∀ source trace, n.evaluation? = some (source, trace) →
      (∀ child ∈ source.script, child < p.tree.size) ∧
        trace = evaluationTrace m (p.tree.bytecode source.script)) :
    (p.add n).Valid m whole where
  tree := h.tree.add hrange hevaluation
  script_lt := by
    intro id hid
    change id < (p.tree.add n).size
    rw [Tree.size_add]
    rcases List.mem_cons.mp hid with rfl | hid
    · exact Nat.lt_succ_self _
    · exact Nat.lt_succ_of_lt (h.script_lt id hid)
  outer_lt := by
    intro frame hframe id hid
    change id < (p.tree.add n).size
    rw [Tree.size_add]
    exact Nat.lt_succ_of_lt (h.outer_lt frame hframe id hid)
  opener := h.opener

theorem Valid.enter (h : p.Valid m whole) (bracket : Bracket) {opener : Range}
    (hopener : whole.contains opener = true) : (p.enter bracket opener).Valid m whole where
  tree := h.tree
  script_lt := by simp [Progress.enter]
  outer_lt := List.forall_mem_cons.mpr ⟨h.script_lt, h.outer_lt⟩
  opener := List.forall_mem_cons.mpr ⟨(Range.contains_iff.mp hopener).1, h.opener⟩

end Progress

theorem evaluationNode_eq_ok {m : Machine} {source : Nested} {range : Range} {n : Node}
    (h : evaluationNode m source range = .ok n) :
    ∃ top, n = ⟨top, range, none, some source, some (evaluationTrace m source.bytecode)⟩ := by
  unfold evaluationNode at h
  dsimp only at h
  split at h
  · cases h
  · split at h
    · cases h
    · cases h
    · cases h
      exact ⟨_, rfl⟩

theorem bracketNode_eq_ok {m : Machine} {bracket : Bracket} {inside : Nested} {range : Range}
    {n : Node} (h : bracketNode m bracket inside range = .ok n) :
    n.range = range ∧ (∀ s, n.push = some s ∨ n.source = some s → s = inside) ∧
      ∀ source trace, n.evaluation? = some (source, trace) →
        source = inside ∧ trace = evaluationTrace m inside.bytecode := by
  cases bracket with
  | push =>
    cases h
    refine ⟨rfl, ?_, fun source trace hsource ↦ by cases hsource⟩
    rintro s (hs | hs) <;> cases hs
    rfl
  | evaluation =>
    obtain ⟨top, rfl⟩ := evaluationNode_eq_ok h
    refine ⟨rfl, ?_, ?_⟩
    · rintro s (hs | hs) <;> cases hs
      rfl
    · intro source trace hsource
      cases hsource
      exact ⟨rfl, rfl⟩

namespace Progress

variable {m : Machine} {whole : Range} {p q : Progress}

/-- What a lexeme does to a compilation under way: it is a node by itself, it opens a construct, or
it makes a node of the innermost one; or something is wrong with it, or with the construct that it
closes. -/
inductive Feeds (m : Machine) (p : Progress) (x : Lexeme) : Except Fault Progress → Prop
  | single (bytes : Bytes) : Feeds m p x (.ok (p.add { bytecode := bytes, range := x.range }))
  | opened (bracket : Bracket) : Feeds m p x (.ok (p.enter bracket x.range))
  | closed {frame : Frame} {frames : List Frame} {n : Node} (hframes : p.frames = frame :: frames)
      (hn : bracketNode m frame.bracket (p.inside frame x.range)
        ⟨frame.opener.start, x.range.stop⟩ = .ok n) :
      Feeds m p x (.ok (({ p with script := frame.outer, frames := frames } : Progress).add n))
  | wrong (mistake : Mistake) : Feeds m p x (.error ⟨x.range, mistake⟩)
  | wrongInside {frame : Frame} {frames : List Frame} (hframes : p.frames = frame :: frames)
      (mistake : Mistake) :
      Feeds m p x (.error ⟨⟨frame.opener.start, x.range.stop⟩, mistake⟩)

theorem feeds_leave (m : Machine) (p : Progress) (bracket : Bracket) (x : Lexeme) :
    p.Feeds m x (p.leave m bracket x.range) := by
  unfold Progress.leave
  dsimp only
  cases hframes : p.frames with
  | nil => exact .wrong _
  | cons frame frames =>
    dsimp only
    split_ifs with hbracket
    · subst hbracket
      cases hn : bracketNode m frame.bracket (p.inside frame x.range)
          ⟨frame.opener.start, x.range.stop⟩ with
      | error mistake => exact .wrongInside hframes mistake
      | ok n => exact .closed hframes hn
    · exact .wrong _

theorem feeds_feed (m : Machine) (p : Progress) (x : Lexeme) : p.Feeds m x (p.feed m x) := by
  unfold Progress.feed
  cases x.kind with
  | word text =>
    dsimp only
    cases wordBytes m.policy.edition text with
    | error mistake => exact .wrong mistake
    | ok bytes => exact .single bytes
  | quoted text => exact .single _
  | openPush => exact .opened .push
  | openEvaluation => exact .opened .evaluation
  | closePush => exact feeds_leave m p .push x
  | closeEvaluation => exact feeds_leave m p .evaluation x
  | looseParenthesis | looseDollar | openQuotation => exact .wrong _

theorem Valid.feed {x : Lexeme} (hp : p.Valid m whole) (hx : whole.contains x.range = true)
    (h : p.feed m x = .ok q) : q.Valid m whole := by
  have hfeeds := feeds_feed m p x
  rw [h] at hfeeds
  cases hfeeds with
  | single bytes => exact hp.add hx fun source trace hsource ↦ by cases hsource
  | opened bracket => exact hp.enter bracket hx
  | @closed frame frames n hframes hn =>
    obtain ⟨hrange, -, hevaluation⟩ := bracketNode_eq_ok hn
    have houter : ({ p with script := frame.outer, frames := frames } : Progress).Valid m whole :=
      { tree := hp.tree
        script_lt := hp.outer_lt frame (by simp [hframes])
        outer_lt := fun other hother ↦ hp.outer_lt other (by simp [hframes, hother])
        opener := fun other hother ↦ hp.opener other (by simp [hframes, hother]) }
    refine houter.add ?_ fun source trace hsource ↦ ?_
    · rw [hrange, Range.contains_iff]
      exact ⟨hp.opener frame (by simp [hframes]), (Range.contains_iff.mp hx).2⟩
    · obtain ⟨rfl, rfl⟩ := hevaluation source trace hsource
      refine ⟨fun child hchild ↦ hp.script_lt child ?_, rfl⟩
      simpa [inside] using hchild

theorem feedAll_cons_eq_ok {x : Lexeme} {xs : List Lexeme}
    (h : p.feedAll m (x :: xs) = .ok q) :
    ∃ next, p.feed m x = .ok next ∧ next.feedAll m xs = .ok q := by
  change (p.feed m x >>= fun next ↦ next.feedAll m xs) = .ok q at h
  cases hnext : p.feed m x with
  | error fault =>
    rw [hnext] at h
    cases h
  | ok next =>
    rw [hnext] at h
    exact ⟨next, rfl, h⟩

/-- What every lexeme keeps is kept by all of them. -/
theorem feedAll_invariant {P : Progress → Prop} {xs : List Lexeme}
    (hfeed : ∀ p x q, x ∈ xs → P p → p.feed m x = .ok q → P q) (hp : P p)
    (h : p.feedAll m xs = .ok q) : P q := by
  induction xs generalizing p with
  | nil =>
    cases h
    exact hp
  | cons x xs ih =>
    obtain ⟨next, hnext, hrest⟩ := feedAll_cons_eq_ok h
    exact ih (fun p y q hy ↦ hfeed p y q (List.mem_cons_of_mem x hy))
      (hfeed p x next List.mem_cons_self hp hnext) hrest

end Progress

/-- A text that compiles was taken in whole, with nothing left open. -/
theorem compile_eq_ok {m : Machine} {source : String} {c : Compilation}
    (h : compile m source = .ok c) :
    ∃ p : Progress, Progress.feedAll m {} (lexemes source) = .ok p ∧ p.frames = [] ∧
      c = ⟨p.tree, p.tree.bytecode p.script.reverse, extent source, p.script.reverse⟩ := by
  change (Progress.feedAll m {} (lexemes source) >>= fun p ↦ p.finish (extent source)) = .ok c at h
  cases hp : Progress.feedAll m {} (lexemes source) with
  | error fault =>
    rw [hp] at h
    cases h
  | ok p =>
    rw [hp] at h
    change p.finish (extent source) = .ok c at h
    unfold Progress.finish at h
    cases hframes : p.frames with
    | cons frame frames =>
      rw [hframes] at h
      cases h
    | nil =>
      rw [hframes] at h
      cases h
      exact ⟨p, rfl, hframes, rfl⟩

/-- A text that does not compile has something wrong in it, or an open construct at its end. -/
theorem compile_eq_error {m : Machine} {source : String} {fault : Fault}
    (h : compile m source = .error fault) :
    Progress.feedAll m {} (lexemes source) = .error fault ∨
      ∃ p frame frames, Progress.feedAll m {} (lexemes source) = .ok p ∧
        p.frames = frame :: frames ∧
          fault.range = ⟨frame.opener.start, (extent source).stop⟩ := by
  change (Progress.feedAll m {} (lexemes source) >>= fun p ↦ p.finish (extent source)) =
    .error fault at h
  cases hp : Progress.feedAll m {} (lexemes source) with
  | error other =>
    rw [hp] at h
    cases h
    exact .inl rfl
  | ok p =>
    rw [hp] at h
    change p.finish (extent source) = .error fault at h
    unfold Progress.finish at h
    cases hframes : p.frames with
    | cons frame frames =>
      rw [hframes] at h
      cases h
      exact .inr ⟨p, frame, frames, rfl, hframes, rfl⟩
    | nil =>
      rw [hframes] at h
      cases h

/-- What holds of a compilation can be found by running it. -/
theorem exists_of_compile {m : Machine} {source : String} {P : Compilation → Prop}
    [DecidablePred P] (h : (compile m source).toOption.any (fun c ↦ decide (P c)) = true) :
    ∃ c, compile m source = .ok c ∧ P c := by
  cases hc : compile m source with
  | error fault =>
    rw [hc] at h
    cases h
  | ok c =>
    rw [hc] at h
    exact ⟨c, rfl, of_decide_eq_true h⟩

/-- The tree of a compiled text is valid within the text, and its bytecode is that of its nodes. -/
theorem valid_of_compile {m : Machine} {source : String} {c : Compilation}
    (h : compile m source = .ok c) :
    c.tree.Valid m c.script.range ∧ c.script.bytecode = c.tree.bytecode c.script.script := by
  obtain ⟨p, hp, -, rfl⟩ := compile_eq_ok h
  have hstart : Progress.Valid m (extent source) {} :=
    ⟨Tree.valid_empty m _, by simp, by simp, by simp⟩
  have hvalid : p.Valid m (extent source) :=
    Progress.feedAll_invariant (P := Progress.Valid m (extent source))
      (fun p x q hx hvalid hfeed ↦ hvalid.feed (contains_of_mem_lexemes hx) hfeed) hstart hp
  exact ⟨hvalid.tree, rfl⟩

end ScriptMachine.Source
