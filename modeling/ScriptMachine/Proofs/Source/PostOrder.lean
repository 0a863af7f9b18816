import ScriptMachine.Proofs.Source.Compilation
import ScriptMachine.Source.Extraction

/-!
# The order of nodes and of evaluations

A construct becomes a node when it is closed, just after the nodes inside it. So the nodes of a
compiled text are in post-order: to walk through it, inside before outside, is to count. An
evaluation is made where its node is completed, and the extraction of a trace holds each of them
once, in that order.
-/

namespace ScriptMachine.Source

/-! ## Trees -/

/-- What a compilation makes: a node that may push, or one that was evaluated. -/
inductive Node.IsMade : Node → Prop
  | plain (bytecode : Bytes) (range : Range) (push : Option Nested) :
    IsMade ⟨bytecode, range, push, none, none⟩
  | evaluated (bytecode : Bytes) (range : Range) (source : Nested) (trace : List State) :
    IsMade ⟨bytecode, range, none, some source, some trace⟩

theorem Node.source_of_evaluation? {n : Node} {source : Nested} {trace : List State}
    (h : n.evaluation? = some (source, trace)) : n.source = some source := by
  obtain ⟨bytecode, range, push, inside, steps⟩ := n
  cases inside with
  | none => cases h
  | some inside =>
    cases steps with
    | none => cases h
    | some steps =>
      cases h
      rfl

theorem Node.mem_children {n : Node} {s : Nested} {child : Nat}
    (hs : n.push = some s ∨ n.source = some s) (hchild : child ∈ s.script) :
    child ∈ n.children := by
  rw [children, List.mem_append]
  obtain hs | hs := hs
  · exact .inl (by rwa [hs])
  · exact .inr (by rwa [hs])

namespace Tree

variable {t : Tree} {n : Node} {id child : Nat} {script before roots : List Nat}

/-- Every node comes after the nodes inside it. -/
def Backward (t : Tree) : Prop := ∀ id n, t.get? id = some n → ∀ child ∈ n.children, child < id

theorem Backward.lt_of_mem_children (h : t.Backward) (hchild : child ∈ t.children id) :
    child < id := by
  unfold children at hchild
  cases hget : t.get? id with
  | none =>
    rw [hget] at hchild
    cases hchild
  | some n =>
    rw [hget] at hchild
    exact h id n hget child hchild

theorem Backward.add (h : t.Backward) (hn : ∀ child ∈ n.children, child < t.size) :
    (t.add n).Backward := by
  intro id other hget
  obtain hold | ⟨rfl, rfl⟩ := get?_add_cases hget
  · exact h id other hold
  · exact hn

/-- Where nodes refer back, a walk leaves nothing out. -/
theorem Backward.walkNode_eq (h : t.Backward) (id : Nat) :
    t.walkNode id = t.walk (t.children id) ++ [id] := by
  rw [walkNode, walk]
  apply congrArg (· ++ [id])
  apply List.flatMap_congr
  intro child hchild
  exact if_pos (h.lt_of_mem_children hchild)

theorem mem_walk_of_mem (h : id ∈ script) : id ∈ t.walk script := by
  apply List.mem_flatMap.mpr
  refine ⟨id, h, ?_⟩
  rw [walkNode]
  exact List.mem_append_right _ List.mem_cons_self

theorem walkNode_add (n : Node) (h : id < t.size) : (t.add n).walkNode id = t.walkNode id := by
  induction id using Nat.strong_induction_on with
  | _ id ih =>
    have hchildren : (t.add n).children id = t.children id := by
      rw [children, t.get?_add_of_lt n h, children]
    rw [walkNode, walkNode, hchildren]
    apply congrArg (· ++ [id])
    apply List.flatMap_congr
    intro child hchild
    by_cases hlt : child < id
    · rw [if_pos hlt, if_pos hlt, ih child hlt (hlt.trans h)]
    · rw [if_neg hlt, if_neg hlt]

/-- More nodes do not change a walk through those that are there. -/
theorem walk_add (n : Node) (h : ∀ id ∈ script, id < t.size) :
    (t.add n).walk script = t.walk script :=
  List.flatMap_congr fun id hid ↦ walkNode_add n (h id hid)

/-- All nodes are within the roots, and walking from them goes from one node to the next. -/
structure IsPostOrder (t : Tree) (roots : List Nat) : Prop where
  isMade : ∀ id n, t.get? id = some n → n.IsMade
  backward : t.Backward
  walk_eq : t.walk roots = List.range t.size

theorem isPostOrder_empty : IsPostOrder {} [] where
  isMade := by simp [get?]
  backward := by simp [Backward, get?]
  walk_eq := rfl

theorem IsPostOrder.lt_size (h : t.IsPostOrder roots) (hid : id ∈ roots) : id < t.size := by
  have hmem : id ∈ t.walk roots := mem_walk_of_mem hid
  rw [h.walk_eq] at hmem
  exact List.mem_range.mp hmem

/-- A node takes the place of the last roots, which are inside it. -/
theorem IsPostOrder.concat (h : t.IsPostOrder (before ++ n.children)) (hn : n.IsMade) :
    (t.add n).IsPostOrder (before ++ [t.size]) := by
  have hbefore : ∀ id ∈ before, id < t.size := fun id hid ↦
    h.lt_size (List.mem_append_left _ hid)
  have hinside : ∀ id ∈ n.children, id < t.size := fun id hid ↦
    h.lt_size (List.mem_append_right _ hid)
  have hbackward := h.backward.add hinside
  have hchildren : (t.add n).children t.size = n.children := by
    rw [children, t.get?_add_size]
    rfl
  refine ⟨?_, hbackward, ?_⟩
  · intro id other hget
    obtain hold | ⟨-, rfl⟩ := get?_add_cases hget
    · exact h.isMade id other hold
    · exact hn
  · calc (t.add n).walk (before ++ [t.size])
        = (t.add n).walk before ++ (t.add n).walkNode t.size := by simp [walk]
      _ = t.walk before ++ (t.walk n.children ++ [t.size]) := by
        rw [walk_add n hbefore, hbackward.walkNode_eq, hchildren, walk_add n hinside]
      _ = t.walk (before ++ n.children) ++ [t.size] := by simp [walk]
      _ = List.range (t.add n).size := by rw [h.walk_eq, size_add, List.range_succ]

end Tree

/-! ## Compilations under way -/

theorem isMade_of_bracketNode {m : Machine} {bracket : Bracket} {inside : Nested} {range : Range}
    {n : Node} (h : bracketNode m bracket inside range = .ok n) :
    n.IsMade ∧ n.children = inside.script := by
  cases bracket with
  | push =>
    cases h
    exact ⟨.plain _ _ _, List.append_nil _⟩
  | evaluation =>
    obtain ⟨top, rfl⟩ := evaluationNode_eq_ok h
    exact ⟨.evaluated _ _ _ _, rfl⟩

namespace Progress

/-- The nodes so far that are inside no other. -/
def roots (p : Progress) : List Nat := (p.script ++ p.frames.flatMap Frame.outer).reverse

variable {m : Machine} {p q : Progress} {x : Lexeme}

theorem roots_add (p : Progress) (n : Node) : (p.add n).roots = p.roots ++ [p.tree.size] := by
  simp [roots, add]

theorem isPostOrder_feed (hp : p.tree.IsPostOrder p.roots) (h : p.feed m x = .ok q) :
    q.tree.IsPostOrder q.roots := by
  have hfeeds := feeds_feed m p x
  rw [h] at hfeeds
  cases hfeeds with
  | single bytes =>
    rw [roots_add]
    apply Tree.IsPostOrder.concat _ (.plain _ _ _)
    change p.tree.IsPostOrder (p.roots ++ [])
    rwa [List.append_nil]
  | opened bracket => exact hp
  | @closed frame frames n hframes hn =>
    obtain ⟨hmade, hchildren⟩ := isMade_of_bracketNode hn
    rw [roots_add]
    apply Tree.IsPostOrder.concat _ hmade
    -- What is inside the construct are the last of the roots.
    have hroots : p.roots =
        ({ p with script := frame.outer, frames := frames } : Progress).roots ++ n.children := by
      rw [hchildren]
      simp [roots, inside, hframes]
    rwa [← hroots]

end Progress

theorem isPostOrder_of_compile {m : Machine} {source : String} {c : Compilation}
    (h : compile m source = .ok c) : c.tree.IsPostOrder c.script.script := by
  obtain ⟨p, hp, hframes, rfl⟩ := compile_eq_ok h
  have horder : p.tree.IsPostOrder p.roots :=
    Progress.feedAll_invariant (P := fun p ↦ p.tree.IsPostOrder p.roots)
      (fun _ _ _ _ ↦ Progress.isPostOrder_feed) Tree.isPostOrder_empty hp
  have hroots : p.roots = p.script.reverse := by simp [Progress.roots, hframes]
  rwa [hroots] at horder

/-! ## Extractions -/

namespace Extraction

mutual

/-- The evaluations inside at every depth, those inside others first. -/
def evaluations : Extraction → List (Nat × Extraction)
  | mk _ _ nested => evaluationsIn nested

/-- A list of evaluations with those inside them. -/
def evaluationsIn : List (Nat × Extraction) → List (Nat × Extraction)
  | [] => []
  | (id, e) :: rest => evaluations e ++ (id, e) :: evaluationsIn rest

end

theorem evaluationsIn_append (es fs : List (Nat × Extraction)) :
    evaluationsIn (es ++ fs) = evaluationsIn es ++ evaluationsIn fs := by
  induction es with
  | nil => rfl
  | cons first es ih => simp [evaluationsIn, ih]

mutual

/-- This is the order of the samples. -/
theorem flatten_eq : ∀ e : Extraction,
    e.flatten = (e.evaluations.flatMap fun visit ↦ visit.2.samples) ++ e.samples
  | mk samples unmatched nested => by
    rw [flatten, flattenAll_eq nested]
    rfl

theorem flattenAll_eq : ∀ es : List (Nat × Extraction),
    flattenAll es = (evaluationsIn es).flatMap fun visit ↦ visit.2.samples
  | [] => rfl
  | (id, e) :: rest => by
    rw [flattenAll, flatten_eq e, flattenAll_eq rest, evaluationsIn]
    simp

end

end Extraction

open Extraction (evaluationsIn)

/-- The evaluation that gave the node at a place its bytecode, if there was one. -/
def Tree.evaluationAt? (t : Tree) (id : Nat) : Option (Nat × Extraction) :=
  ((t.get? id).bind Node.evaluation?).map fun evaluation ↦
    (id, extract t evaluation.1.range evaluation.1.script evaluation.2)

/-- The places of evaluations are those of the nodes that hold both a source and a trace. -/
theorem Tree.map_fst_evaluationAt? (t : Tree) (ids : List Nat) :
    (ids.filterMap t.evaluationAt?).map Prod.fst =
      ids.filter fun id ↦ (t.get? id).any fun n ↦ n.source.isSome && n.trace.isSome := by
  rw [List.map_filterMap, ← List.filterMap_eq_filter]
  apply List.filterMap_congr
  intro id _
  rw [evaluationAt?, Option.guard]
  cases hget : t.get? id with
  | none => simp
  | some n =>
    obtain ⟨bytecode, range, push, source, trace⟩ := n
    cases source with
    | none => simp [Node.evaluation?]
    | some source => cases trace <;> simp [Node.evaluation?]

/-- The evaluations inside a script, by a search without any bound: the nodes of the script are
there, and what is found within a node comes from searching the scripts inside it. -/
inductive Nests (t : Tree) : List Nat → List (Nat × Extraction) → Prop
  | nil : Nests t [] []
  | plain {id : Nat} {n : Node} {rest : List Nat} {pushed others : List (Nat × Extraction)}
      (hget : t.get? id = some n) (hn : n.evaluation? = none)
      (hpushed : Nests t (n.push.elim [] Nested.script) pushed) (hrest : Nests t rest others) :
      Nests t (id :: rest) (pushed ++ others)
  | evaluated {id : Nat} {n : Node} {source : Nested} {trace : List State} {rest : List Nat}
      {inner pushed others : List (Nat × Extraction)} (hget : t.get? id = some n)
      (hn : n.evaluation? = some (source, trace)) (hinner : Nests t source.script inner)
      (hpushed : Nests t (n.push.elim [] Nested.script) pushed) (hrest : Nests t rest others) :
      Nests t (id :: rest)
        ((id, .mk (samples t source.range source.script trace).1
          (samples t source.range source.script trace).2 inner) :: (pushed ++ others))

section Backward

variable {t : Tree} {id : Nat} {script : List Nat}

theorem nestedAt_eq (ht : t.Backward) (id : Nat) :
    nestedAt t id = (t.evaluationAt? id).toList ++
      ((t.get? id).bind Node.push).elim [] fun pushed ↦ pushed.script.flatMap (nestedAt t) := by
  rw [nestedAt, Tree.evaluationAt?]
  cases hget : t.get? id with
  | none => rfl
  | some n =>
    have hlt : ∀ s : Nested, n.push = some s ∨ n.source = some s →
        (s.script.flatMap fun child ↦ if child < id then nestedAt t child else []) =
          s.script.flatMap (nestedAt t) := by
      intro s hs
      apply List.flatMap_congr
      intro child hchild
      apply if_pos
      exact ht id n hget child (Node.mem_children hs hchild)
    dsimp only
    congr 1
    · cases hn : n.evaluation? with
      | none => simp [hn]
      | some evaluation =>
        obtain ⟨source, trace⟩ := evaluation
        have hinner := hlt source (.inr (Node.source_of_evaluation? hn))
        simp [hn, hinner, extract]
    · cases hpush : n.push with
      | none => simp [hpush]
      | some pushed => simpa [hpush] using hlt pushed (.inl hpush)

/-- The search ends, and finds what it finds where only nodes that come before are looked at. -/
theorem nests_of_lt (ht : t.Backward) {bound : Nat} (hbound : bound ≤ t.size)
    (hscript : ∀ id ∈ script, id < bound) : Nests t script (script.flatMap (nestedAt t)) := by
  induction bound using Nat.strong_induction_on generalizing script with
  | _ bound ih =>
    induction script with
    | nil => exact .nil
    | cons id rest ihrest =>
      obtain ⟨hid, hrest⟩ := List.forall_mem_cons.mp hscript
      have hothers := ihrest hrest
      obtain ⟨n, hget⟩ : ∃ n, t.get? id = some n :=
        ⟨_, Array.getElem?_eq_getElem (hid.trans_le hbound)⟩
      have hinside : ∀ s : Nested, n.push = some s ∨ n.source = some s →
          Nests t s.script (s.script.flatMap (nestedAt t)) := by
        intro s hs
        apply ih id hid (hid.le.trans hbound)
        intro child hchild
        exact ht id n hget child (Node.mem_children hs hchild)
      have hpushed : Nests t (n.push.elim [] Nested.script)
          (n.push.elim [] fun pushed ↦ pushed.script.flatMap (nestedAt t)) := by
        cases hpush : n.push with
        | none => exact .nil
        | some pushed => exact hinside pushed (.inl hpush)
      rw [List.flatMap_cons, nestedAt_eq ht, Tree.evaluationAt?, hget]
      cases hn : n.evaluation? with
      | none =>
        simpa [hn] using Nests.plain hget hn hpushed hothers
      | some evaluation =>
        obtain ⟨source, trace⟩ := evaluation
        have hinner := hinside source (.inr (Node.source_of_evaluation? hn))
        simpa [hn, extract] using Nests.evaluated hget hn hinner hpushed hothers

theorem evaluationsIn_flatMap
    (h : ∀ id ∈ script,
      evaluationsIn (nestedAt t id) = (t.walkNode id).filterMap t.evaluationAt?) :
    evaluationsIn (script.flatMap (nestedAt t)) = (t.walk script).filterMap t.evaluationAt? := by
  induction script with
  | nil => rfl
  | cons id rest ih =>
    obtain ⟨hid, hrest⟩ := List.forall_mem_cons.mp h
    rw [List.flatMap_cons, Extraction.evaluationsIn_append, hid, ih hrest, Tree.walk, Tree.walk,
      List.flatMap_cons, List.filterMap_append]

/-- The evaluations at a place are those that a walk from there comes by. -/
theorem evaluationsIn_nestedAt (ht : t.Backward)
    (hmade : ∀ id n, t.get? id = some n → n.IsMade) (id : Nat) :
    evaluationsIn (nestedAt t id) = (t.walkNode id).filterMap t.evaluationAt? := by
  induction id using Nat.strong_induction_on with
  | _ id ih =>
    have hinside : evaluationsIn ((t.children id).flatMap (nestedAt t)) =
        (t.walk (t.children id)).filterMap t.evaluationAt? :=
      evaluationsIn_flatMap fun child hchild ↦ ih child (ht.lt_of_mem_children hchild)
    rw [nestedAt_eq ht, ht.walkNode_eq, List.filterMap_append, ← hinside]
    cases hget : t.get? id with
    | none => simp [Tree.evaluationAt?, Tree.children, hget, evaluationsIn]
    | some n =>
      cases hmade id n hget with
      | plain bytecode range push =>
        have hnone : t.evaluationAt? id = none := by
          rw [Tree.evaluationAt?, hget]
          rfl
        cases push with
        | none => simp [hnone, Tree.children, hget, Node.children, evaluationsIn]
        | some pushed => simp [hnone, Tree.children, hget, Node.children]
      | evaluated bytecode range source trace =>
        have hsome : t.evaluationAt? id =
            some (id, extract t source.range source.script trace) := by
          rw [Tree.evaluationAt?, hget]
          rfl
        simp [hsome, Tree.children, hget, Node.children, evaluationsIn, extract,
          Extraction.evaluations]

end Backward

/-! ## Compiled texts -/

/-- The nodes of a compiled text are in post-order: a node comes after those inside it, and a walk
through the text counts the nodes. So the search for the evaluations inside ends, and an extraction
holds the evaluations of the text once each, in the order of their nodes, which is the order of
their samples. -/
theorem evaluations_extracted_in_order {m : Machine} {source : String} {c : Compilation}
    (h : compile m source = .ok c) :
    (∀ id n, c.tree.get? id = some n → ∀ child ∈ n.children, child < id) ∧
      c.tree.walk c.script.script = List.range c.tree.size ∧
      (∀ id, c.tree.walkNode id = c.tree.walk (c.tree.children id) ++ [id]) ∧
      ∀ range trace,
        let e := extract c.tree range c.script.script trace
        Nests c.tree c.script.script e.nested ∧
          e.flatten = (e.evaluations.flatMap fun visit ↦ visit.2.samples) ++ e.samples ∧
          e.evaluations = (List.range c.tree.size).filterMap c.tree.evaluationAt? ∧
          (e.evaluations.map Prod.fst =
            (List.range c.tree.size).filter fun id ↦
              (c.tree.get? id).any fun n ↦ n.source.isSome && n.trace.isSome) ∧
          (e.evaluations.map Prod.fst).Pairwise (· < ·) := by
  have horder := isPostOrder_of_compile h
  refine ⟨horder.backward, horder.walk_eq, horder.backward.walkNode_eq, fun range trace ↦ ?_⟩
  intro e
  have hevaluations : e.evaluations = (List.range c.tree.size).filterMap c.tree.evaluationAt? := by
    rw [← horder.walk_eq]
    exact evaluationsIn_flatMap fun id _ ↦
      evaluationsIn_nestedAt horder.backward horder.isMade id
  have hids : e.evaluations.map Prod.fst =
      (List.range c.tree.size).filter fun id ↦
        (c.tree.get? id).any fun n ↦ n.source.isSome && n.trace.isSome := by
    rw [hevaluations, Tree.map_fst_evaluationAt?]
  refine ⟨?_, e.flatten_eq, hevaluations, hids, ?_⟩
  · exact nests_of_lt horder.backward (Nat.le_refl _) fun id hid ↦ horder.lt_size hid
  · rw [hids]
    exact List.pairwise_lt_range.filter _

/-- An evaluation inside a push inside an evaluation, and one inside a push that follows. -/
theorem evaluations_extracted_in_order_deep :
    ∃ c, compile {} "$(<$(OP_1)> OP_2) <0x05 $(OP_3)>" = .ok c ∧
      c.tree.walk c.script.script = [0, 1, 2, 3, 4, 5, 6, 7, 8] ∧
        ∀ range trace,
          ((extract c.tree range c.script.script trace).evaluations.map Prod.fst) = [1, 4, 7] := by
  have hrun : ∃ c, compile {} "$(<$(OP_1)> OP_2) <0x05 $(OP_3)>" = .ok c ∧ c.tree.size = 9 ∧
      ((List.range 9).filter fun id ↦
        (c.tree.get? id).any fun n ↦ n.source.isSome && n.trace.isSome) = [1, 4, 7] :=
    exists_of_compile (by decide +kernel)
  obtain ⟨c, hc, hsize, hids⟩ := hrun
  obtain ⟨-, hwalk, -, hextract⟩ := evaluations_extracted_in_order hc
  refine ⟨c, hc, ?_, fun range trace ↦ ?_⟩
  · rw [hwalk, hsize]
    rfl
  · obtain ⟨-, -, -, hevaluations, -⟩ := hextract range trace
    rw [hevaluations, hsize, hids]

end ScriptMachine.Source
