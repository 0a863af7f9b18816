import ScriptMachine.Proofs.Source.Displacement
import ScriptMachine.Proofs.Source.PostOrder
import ScriptMachine.Proofs.Source.Reach

/-!
# Texts compiled together

Two texts, one below the other, are compiled as each by itself. The lexemes of the second are fed
to what the first has left: its nodes, and their script below all that the second opens. Every
lexeme does there what it does at the start of a text, with its nodes further back in the tree and
its lines further down. A node is made from the bytecode inside it alone, so evaluations come out
the same.
-/

namespace ScriptMachine.Source

/-! ## Nodes in another tree -/

/-- The script after so many other nodes and lines. -/
def Nested.moved (s : Nested) (size lines : Nat) : Nested :=
  ⟨s.bytecode, s.range.down lines, s.script.map (size + ·)⟩

/-- The node after so many other nodes and lines. Its evaluation is the same. -/
def Node.moved (n : Node) (size lines : Nat) : Node :=
  { n with
    range := n.range.down lines
    push := n.push.map (·.moved size lines)
    source := n.source.map (·.moved size lines) }

def Fault.down (fault : Fault) (lines : Nat) : Fault := ⟨fault.range.down lines, fault.mistake⟩

namespace Tree

variable (base t : Tree) (lines : Nat)

/-- The nodes of a tree after those of another. -/
def join : Tree := ⟨base.nodes ++ t.nodes.map (·.moved base.size lines)⟩

theorem join_empty : base.join {} lines = base := by simp [join]

theorem size_join : (base.join t lines).size = base.size + t.size := by simp [join, size]

theorem join_add (n : Node) :
    base.join (t.add n) lines = (base.join t lines).add (n.moved base.size lines) := by
  simp [join, add]

variable {base}

theorem get?_join_of_lt {id : Nat} (h : id < base.size) :
    (base.join t lines).get? id = base.get? id := by
  rw [get?, join, Array.getElem?_append_left h]
  rfl

theorem get?_join_add (id : Nat) :
    (base.join t lines).get? (base.size + id) =
      (t.get? id).map (·.moved base.size lines) := by
  simp only [get?, join, size]
  rw [Array.getElem?_append_right (Nat.le_add_right _ _), Nat.add_sub_cancel_left,
    Array.getElem?_map]

theorem bytecode_join_of_lt {script : List Nat} (h : ∀ id ∈ script, id < base.size) :
    (base.join t lines).bytecode script = base.bytecode script := by
  apply List.flatMap_congr
  intro id hid
  rw [get?_join_of_lt t lines (h id hid)]

theorem bytecode_join_map (script : List Nat) :
    (base.join t lines).bytecode (script.map (base.size + ·)) = t.bytecode script := by
  rw [bytecode, List.flatMap_map]
  apply List.flatMap_congr
  intro id _
  rw [get?_join_add]
  cases t.get? id <;> rfl

end Tree

/-! ## Compilations under way -/

/-- An outcome further down. -/
def lowered {α β : Type} (lines : Nat) (f : α → β) : Except Fault α → Except Fault β
  | .ok a => .ok (f a)
  | .error fault => .error (fault.down lines)

theorem bracketNode_moved (m : Machine) (bracket : Bracket) (inside : Nested) (range : Range)
    (size lines : Nat) :
    bracketNode m bracket (inside.moved size lines) (range.down lines) =
      (bracketNode m bracket inside range).map (·.moved size lines) := by
  cases bracket with
  | push => rfl
  | evaluation =>
    change evaluationNode m (inside.moved size lines) (range.down lines) =
      (evaluationNode m inside range).map (·.moved size lines)
    simp only [evaluationNode, Nested.moved]
    cases (evaluationTrace m inside.bytecode).getLast? with
    | none => rfl
    | some last =>
      dsimp only
      cases last.fault with
      | some fault => rfl
      | none => cases last.top? <;> rfl

namespace Progress

variable (base p : Progress) (lines : Nat)

/-- Nodes within open constructs, over the script of `base` where there are none. -/
def scriptOnto (frames : List Frame) (script : List Nat) : List Nat :=
  script.map (base.tree.size + ·) ++ if frames.isEmpty then base.script else []

/-- Open constructs, over the script of `base`. -/
def framesOnto : List Frame → List Frame
  | [] => []
  | frame :: frames =>
    ⟨frame.bracket, frame.opener.down lines, base.scriptOnto frames frame.outer⟩ ::
      framesOnto frames

/-- What the same lexemes lead to after `base`, where nothing is open, and further down. -/
def onto : Progress where
  tree := base.tree.join p.tree lines
  script := base.scriptOnto p.frames p.script
  frames := base.framesOnto lines p.frames

theorem onto_add (n : Node) :
    base.onto (p.add n) lines = (base.onto p lines).add (n.moved base.tree.size lines) := by
  simp [onto, add, Tree.join_add, Tree.size_join, scriptOnto]

theorem onto_enter (bracket : Bracket) (opener : Range) :
    base.onto (p.enter bracket opener) lines =
      (base.onto p lines).enter bracket (opener.down lines) := rfl

theorem addMade_onto (range : Range) (made : Except Mistake Node) :
    (base.onto p lines).addMade (range.down lines)
        (made.map (·.moved base.tree.size lines)) =
      lowered lines (base.onto · lines) (p.addMade range made) := by
  cases made with
  | error mistake => rfl
  | ok n => exact congrArg Except.ok (base.onto_add p lines n).symm

variable {p}

theorem inside_onto {frame : Frame} {frames : List Frame} (hframes : p.frames = frame :: frames)
    (closer : Range) :
    (base.onto p lines).inside
        ⟨frame.bracket, frame.opener.down lines, base.scriptOnto frames frame.outer⟩
        (closer.down lines) =
      (p.inside frame closer).moved base.tree.size lines := by
  have hscript : (base.onto p lines).script.reverse =
      p.script.reverse.map (base.tree.size + ·) := by
    simp [onto, scriptOnto, hframes]
  simp only [inside, Nested.moved, hscript]
  congr 1
  exact Tree.bytecode_join_map p.tree lines _

theorem leave_onto (m : Machine) (bracket : Bracket) (closer : Range) :
    (base.onto p lines).leave m bracket (closer.down lines) =
      lowered lines (base.onto · lines) (p.leave m bracket closer) := by
  cases hframes : p.frames with
  | nil =>
    have hnone : (base.onto p lines).frames = [] := by rw [onto, hframes, framesOnto]
    simp only [leave, hframes, hnone]
    rfl
  | cons frame frames =>
    have hsome : (base.onto p lines).frames =
        ⟨frame.bracket, frame.opener.down lines, base.scriptOnto frames frame.outer⟩ ::
          base.framesOnto lines frames := by
      rw [onto, hframes, framesOnto]
    simp only [leave, hframes, hsome]
    by_cases hbracket : frame.bracket = bracket
    · rw [if_pos hbracket, if_pos hbracket, inside_onto base lines hframes]
      have hmade := bracketNode_moved m bracket (p.inside frame closer)
        ⟨frame.opener.start, closer.stop⟩ base.tree.size lines
      have hadd := base.addMade_onto { p with script := frame.outer, frames := frames } lines
        ⟨frame.opener.start, closer.stop⟩
        (bracketNode m bracket (p.inside frame closer) ⟨frame.opener.start, closer.stop⟩)
      rw [← hmade] at hadd
      exact hadd
    · rw [if_neg hbracket, if_neg hbracket]
      rfl

/-- After `base` and further down, a lexeme does what it does by itself, be it right or wrong. -/
theorem feed_onto (m : Machine) (x : Lexeme) :
    (base.onto p lines).feed m (x.down lines) =
      lowered lines (base.onto · lines) (p.feed m x) := by
  obtain ⟨kind, range⟩ := x
  have hword (made : Except Mistake Bytes) :
      (made.map fun bytes ↦ ({ bytecode := bytes, range := range.down lines } : Node)) =
        (made.map fun bytes ↦ ({ bytecode := bytes, range := range } : Node)).map
          (·.moved base.tree.size lines) := by
    cases made <;> rfl
  cases kind with
  | word text =>
    have hadd := base.addMade_onto p lines range
      ((wordBytes m.policy.edition text).map fun bytes ↦ { bytecode := bytes, range := range })
    rw [← hword] at hadd
    exact hadd
  | quoted text =>
    exact congrArg Except.ok
      (base.onto_add p lines { bytecode := quotedBytes text, range := range }).symm
  | openPush => exact congrArg Except.ok (base.onto_enter p lines .push range).symm
  | openEvaluation => exact congrArg Except.ok (base.onto_enter p lines .evaluation range).symm
  | closePush => exact leave_onto base lines m .push range
  | closeEvaluation => exact leave_onto base lines m .evaluation range
  | looseParenthesis | looseDollar | openQuotation => rfl

theorem feedAll_onto (m : Machine) (xs : List Lexeme) :
    (base.onto p lines).feedAll m (xs.map (·.down lines)) =
      lowered lines (base.onto · lines) (p.feedAll m xs) := by
  induction xs generalizing p with
  | nil => rfl
  | cons x xs ih =>
    change ((base.onto p lines).feed m (x.down lines) >>= fun next ↦
        next.feedAll m (xs.map (·.down lines))) =
      lowered lines (base.onto · lines) (p.feed m x >>= fun next ↦ next.feedAll m xs)
    rw [feed_onto]
    cases p.feed m x with
    | error fault => rfl
    | ok next => exact ih

theorem onto_empty {base : Progress} (hbase : base.frames = []) (lines : Nat) :
    base.onto {} lines = base := by
  obtain ⟨tree, script, frames⟩ := base
  cases hbase
  simp [onto, Tree.join_empty, scriptOnto, framesOnto]

end Progress

/-! ## Compiled texts -/

/-- A compiled text and one below it that starts so many lines down. -/
def Compilation.join (c d : Compilation) (lines : Nat) : Compilation where
  tree := c.tree.join d.tree lines
  script :=
    { bytecode := c.script.bytecode ++ d.script.bytecode
      range := ⟨c.script.range.start, d.script.range.stop.down lines⟩
      script := c.script.script ++ d.script.script.map (c.tree.size + ·) }

namespace Progress

variable {m : Machine} {base p q : Progress} {xs : List Lexeme}

theorem finish_onto (hbase : ∀ id ∈ base.script, id < base.tree.size) (above whole : Range)
    (lines : Nat) :
    (base.onto p lines).finish ⟨above.start, whole.stop.down lines⟩ =
      lowered lines
        (Compilation.join
          ⟨base.tree, base.tree.bytecode base.script.reverse, above, base.script.reverse⟩ · lines)
        (p.finish whole) := by
  cases hframes : p.frames with
  | cons frame frames =>
    simp only [finish, onto, hframes, framesOnto]
    rfl
  | nil =>
    have hscript : (base.onto p lines).script.reverse =
        base.script.reverse ++ p.script.reverse.map (base.tree.size + ·) := by
      simp [onto, scriptOnto, hframes]
    have hbytecode : (base.onto p lines).tree.bytecode
          (base.script.reverse ++ p.script.reverse.map (base.tree.size + ·)) =
        base.tree.bytecode base.script.reverse ++ p.tree.bytecode p.script.reverse := by
      have hold : ∀ id ∈ base.script.reverse, id < base.tree.size := by simpa using hbase
      rw [← Tree.bytecode_join_of_lt p.tree lines hold,
        ← Tree.bytecode_join_map p.tree lines p.script.reverse]
      exact List.flatMap_append
    have hnone : (base.onto p lines).frames = [] := by rw [onto, hframes, framesOnto]
    simp only [finish, hframes, hnone, hscript, hbytecode]
    rfl

theorem feedAll_append (h : p.feedAll m xs = .ok q) (ys : List Lexeme) :
    p.feedAll m (xs ++ ys) = q.feedAll m ys := by
  rw [feedAll, List.foldlM_append]
  change (p.feedAll m xs >>= fun next ↦ next.feedAll m ys) = _
  rw [h]
  rfl

/-- A quotation without an end is always wrong. -/
theorem kind_ne_of_feedAll (h : p.feedAll m xs = .ok q) : ∀ x ∈ xs, x.kind ≠ .openQuotation := by
  induction xs generalizing p with
  | nil => simp
  | cons x xs ih =>
    obtain ⟨next, hfeed, hrest⟩ := feedAll_cons_eq_ok h
    refine List.forall_mem_cons.mpr ⟨fun hkind ↦ ?_, ih hrest⟩
    rw [feed, hkind] at hfeed
    cases hfeed

end Progress

/-- The first text is compiled as by itself, and so is the second, further down. -/
theorem compile_append {m : Machine} {first : String} {c : Compilation}
    (h : compile m first = .ok c) (second : String) :
    compile m (first ++ "\n" ++ second) =
      lowered (1 + first.toList.count '\n') (c.join · (1 + first.toList.count '\n'))
        (compile m second) := by
  obtain ⟨base, hbase, hframes, rfl⟩ := compile_eq_ok h
  have hscript : ∀ id ∈ base.script, id < base.tree.size := fun id hid ↦
    (isPostOrder_of_compile h).lt_size (List.mem_reverse.mpr hid)
  generalize hlines : 1 + first.toList.count '\n' = lines
  have hfed : Progress.feedAll m {} (lexemes (first ++ "\n" ++ second)) =
      lowered lines (base.onto · lines) (Progress.feedAll m {} (lexemes second)) := by
    rw [lexemes_joined second (Progress.kind_ne_of_feedAll hbase), hlines,
      Progress.feedAll_append hbase, ← Progress.feedAll_onto, Progress.onto_empty hframes]
  have hextent : extent (first ++ "\n" ++ second) =
      ⟨(extent first).start, (extent second).stop.down lines⟩ := by
    rw [extent_joined, hlines]
    rfl
  change (Progress.feedAll m {} (lexemes (first ++ "\n" ++ second)) >>= fun p ↦ p.finish _) =
    lowered lines _ (Progress.feedAll m {} (lexemes second) >>= fun p ↦ p.finish (extent second))
  rw [hfed, hextent]
  cases Progress.feedAll m {} (lexemes second) with
  | error fault => rfl
  | ok p => exact Progress.finish_onto hscript _ _ lines

/-- Compiling is compositional. Where a text compiles, so does the text with a second one below it
that compiles by itself: the bytecode and the nodes are those of the first and then those of the
second, with the places of nodes and the lines moved on by what comes before. Positions are words of
32 bits if both texts together are not too long. Where the second text does not compile, neither do
both, for the same reason. -/
theorem compilation_is_compositional {m : Machine} {first second : String} {c : Compilation}
    (h : compile m first = .ok c) :
    let lines := 1 + first.toList.count '\n'
    (∀ d, compile m second = .ok d →
      ∃ joined, compile m (first ++ "\n" ++ second) = .ok joined ∧
        joined.script.bytecode = c.script.bytecode ++ d.script.bytecode ∧
        joined.tree.nodes = c.tree.nodes ++ d.tree.nodes.map (·.moved c.tree.size lines) ∧
        joined.script.script = c.script.script ++ d.script.script.map (c.tree.size + ·) ∧
        joined.script.range = ⟨c.script.range.start, d.script.range.stop.down lines⟩ ∧
        ((first ++ "\n" ++ second).length + 1 < 2 ^ 32 → joined.EndsAt Position.FitsWords)) ∧
      ∀ fault, compile m second = .error fault →
        compile m (first ++ "\n" ++ second) = .error (fault.down lines) := by
  intro lines
  have hjoined := compile_append h second
  refine ⟨fun d hd ↦ ?_, fun fault hfault ↦ ?_⟩
  · rw [hd] at hjoined
    exact ⟨c.join d lines, hjoined, rfl, rfl, rfl, rfl, fitsWords_of_compile hjoined⟩
  · rw [hfault] at hjoined
    exact hjoined

/-- A text that ends in a comment with a quote in it, and one that is pushed and evaluated. -/
theorem compilation_is_compositional_comment :
    ∃ joined, compile {} ("<$(OP_1)> // \"" ++ "\n" ++ "OP_2 $(<\"a\">)") = .ok joined ∧
      joined.script.bytecode = [0x51, 0x52, 0x61] ∧ joined.script.script = [2, 3, 6] ∧
        (joined.tree.get? 6).map (fun n ↦ (n.children, n.range)) =
          some ([5], ⟨⟨2, 6⟩, ⟨2, 14⟩⟩) := by
  have hfirst : ∃ c, compile {} "<$(OP_1)> // \"" = .ok c ∧ c.script.bytecode = [0x51] ∧
      c.tree.size = 3 ∧ c.script.script = [2] := exists_of_compile (by decide +kernel)
  have hsecond : ∃ d, compile {} "OP_2 $(<\"a\">)" = .ok d ∧ d.script.bytecode = [0x52, 0x61] ∧
      d.script.script = [0, 3] ∧
        (d.tree.get? 3).map (fun n ↦ ((n.moved 3 1).children, (n.moved 3 1).range)) =
          some ([5], ⟨⟨2, 6⟩, ⟨2, 14⟩⟩) :=
    exists_of_compile (by decide +kernel)
  obtain ⟨c, hc, hbytes, hsize, hscript⟩ := hfirst
  obtain ⟨d, hd, hbytes', hscript', hlast⟩ := hsecond
  obtain ⟨joined, hjoined, hbytecode, hnodes, hroots, -⟩ :=
    (compilation_is_compositional hc).1 d hd
  refine ⟨joined, hjoined, ?_, ?_, ?_⟩
  · rw [hbytecode, hbytes, hbytes']
    rfl
  · rw [hroots, hscript, hscript', hsize]
    rfl
  · have hmoved := @Tree.get?_join_add c.tree d.tree 1 3
    rw [hsize] at hmoved
    have hsame : joined.tree.get? 6 = (c.tree.join d.tree 1).get? (3 + 3) := by
      rw [Tree.get?, hnodes]
      rfl
    rw [hsame, hmoved, Option.map_map]
    exact hlast

end ScriptMachine.Source
