import ScriptMachine.Proofs.Source.Compilation

/-!
# Positions that are reached

Every position in a compiled text is where some part of the text from its start leads to. So no line
or column is beyond the number of characters by more than one, and the positions in a text that is
not too long are words of 32 bits.
-/

namespace ScriptMachine.Source

variable {P : Position → Prop}

/-- Both ends of the range have the property. -/
def Range.EndsAt (P : Position → Prop) (r : Range) : Prop := P r.start ∧ P r.stop

structure Node.EndsAt (P : Position → Prop) (n : Node) : Prop where
  range : n.range.EndsAt P
  inside : ∀ inside, n.push = some inside ∨ n.source = some inside → inside.range.EndsAt P

/-- All ranges of the compilation have ends with the property. -/
structure Compilation.EndsAt (P : Position → Prop) (c : Compilation) : Prop where
  script : c.script.range.EndsAt P
  node : ∀ id n, c.tree.get? id = some n → n.EndsAt P

/-! ## Lexemes -/

def LexMode.StartsAt (P : Position → Prop) : LexMode → Prop
  | word start _ | quoted start _ | dollar start => P start
  | between | comment => True

section Lexemes

variable {position : Position} {mode : LexMode}

theorem endsAt_ended (hmode : mode.StartsAt P) (hposition : P position) :
    ∀ x ∈ mode.ended position, x.range.EndsAt P := by
  cases mode with
  | word start _ | dollar start => exact List.forall_mem_singleton.mpr ⟨hmode, hposition⟩
  | between | comment | quoted => exact List.forall_mem_nil _

theorem endsAt_atEnd (hmode : mode.StartsAt P) (hposition : P position) :
    ∀ x ∈ mode.atEnd position, x.range.EndsAt P := by
  cases mode with
  | quoted start _ => exact List.forall_mem_singleton.mpr ⟨hmode, hposition⟩
  | between | comment | word | dollar => exact endsAt_ended hmode hposition

theorem startsAt_ofChar (hposition : P position) (c : Char) (rest : List Char) :
    (LexMode.ofChar position c rest).StartsAt P := by
  unfold LexMode.ofChar
  split_ifs
  all_goals first | exact hposition | trivial

theorem endsAt_lexChar (hmode : mode.StartsAt P) (hposition : P position) {c : Char}
    (hnext : P (position.advance c)) (rest : List Char) :
    (∀ x ∈ (lexChar position mode c rest).1, x.range.EndsAt P) ∧
      (lexChar position mode c rest).2.StartsAt P := by
  have hafresh :
      (∀ x ∈ mode.ended position ++ ((LexemeKind.ofChar? c).map fun kind ↦
          (⟨kind, ⟨position, position.advance c⟩⟩ : Lexeme)).toList, x.range.EndsAt P) ∧
        (LexMode.ofChar position c rest).StartsAt P := by
    refine ⟨List.forall_mem_append.mpr ⟨endsAt_ended hmode hposition, fun x hx ↦ ?_⟩,
      startsAt_ofChar hposition c rest⟩
    rw [Option.mem_toList, Option.map_eq_some_iff] at hx
    obtain ⟨kind, -, rfl⟩ := hx
    exact ⟨hposition, hnext⟩
  cases mode with
  | between => exact hafresh
  | comment =>
    unfold lexChar
    dsimp only
    split <;> exact ⟨List.forall_mem_nil _, trivial⟩
  | word start reversed =>
    unfold lexChar
    dsimp only
    split
    · exact hafresh
    · exact ⟨List.forall_mem_nil _, hmode⟩
  | quoted start reversed =>
    unfold lexChar
    dsimp only
    split
    · exact ⟨List.forall_mem_singleton.mpr ⟨hmode, hnext⟩, trivial⟩
    · exact ⟨List.forall_mem_nil _, hmode⟩
  | dollar start =>
    unfold lexChar
    dsimp only
    split
    · exact ⟨List.forall_mem_singleton.mpr ⟨hmode, hnext⟩, trivial⟩
    · exact hafresh

theorem endsAt_lexFrom (hmode : mode.StartsAt P) {text : List Char}
    (hreached : ∀ front, front <+: text → P (front.foldl Position.advance position)) :
    ∀ x ∈ lexFrom position mode text, x.range.EndsAt P := by
  have hposition : P position := hreached [] List.nil_prefix
  induction text generalizing position mode with
  | nil => exact endsAt_atEnd hmode hposition
  | cons c text ih =>
    have hrest (front : List Char) (hfront : front <+: text) :
        P (front.foldl Position.advance (position.advance c)) :=
      hreached (c :: front) (List.cons_prefix_cons.mpr ⟨rfl, hfront⟩)
    have hnext : P (position.advance c) := hrest [] List.nil_prefix
    obtain ⟨hfirst, hmode'⟩ := endsAt_lexChar hmode hposition hnext text
    exact List.forall_mem_append.mpr ⟨hfirst, ih hmode' hrest hnext⟩

end Lexemes

/-! ## Compilations -/

namespace Progress

structure EndsAt (P : Position → Prop) (p : Progress) : Prop where
  node : ∀ id n, p.tree.get? id = some n → n.EndsAt P
  opener : ∀ frame ∈ p.frames, frame.opener.EndsAt P

variable {m : Machine} {p q : Progress} {n : Node} {x : Lexeme}

theorem EndsAt.add (h : p.EndsAt P) (hn : n.EndsAt P) : (p.add n).EndsAt P where
  node := by
    intro id n' hget
    obtain hold | ⟨-, rfl⟩ := Tree.get?_add_cases hget
    · exact h.node id n' hold
    · exact hn
  opener := h.opener

/-- The range of a construct starts with its opener and ends with what closes it, and what is inside
it goes from the end of the one to the start of the other. -/
theorem EndsAt.feed (hp : p.EndsAt P) (hx : x.range.EndsAt P) (h : p.feed m x = .ok q) :
    q.EndsAt P := by
  have hfeeds := feeds_feed m p x
  rw [h] at hfeeds
  cases hfeeds with
  | single bytes => exact hp.add ⟨hx, by simp⟩
  | opened bracket => exact ⟨hp.node, List.forall_mem_cons.mpr ⟨hx, hp.opener⟩⟩
  | @closed frame frames n hframes hn =>
    obtain ⟨hrange, hinside, -⟩ := bracketNode_eq_ok hn
    have hopener := hp.opener
    rw [hframes, List.forall_mem_cons] at hopener
    have houter : ({ p with script := frame.outer, frames := frames } : Progress).EndsAt P :=
      ⟨hp.node, hopener.2⟩
    refine houter.add ⟨?_, fun inside hnested ↦ ?_⟩
    · rw [hrange]
      exact ⟨hopener.1.1, hx.2⟩
    · rw [hinside inside hnested]
      exact ⟨hopener.1.2, hx.1⟩

end Progress

variable {m : Machine} {source : String} {c : Compilation}

theorem endsAt_of_compile (h : compile m source = .ok c)
    (hreached : ∀ front, front <+: source.toList → P (front.foldl Position.advance origin)) :
    c.EndsAt P := by
  obtain ⟨p, hp, -, rfl⟩ := compile_eq_ok h
  have hmode : LexMode.between.StartsAt P := trivial
  have hlexemes : ∀ x ∈ lexemes source, x.range.EndsAt P := endsAt_lexFrom hmode hreached
  have hstart : Progress.EndsAt P {} := ⟨by simp [Tree.get?], by simp⟩
  have hends : p.EndsAt P :=
    Progress.feedAll_invariant (P := Progress.EndsAt P)
      (fun p x q hx hends hfeed ↦ hends.feed (hlexemes x hx) hfeed) hstart hp
  exact ⟨⟨hreached [] List.nil_prefix, hreached _ List.prefix_rfl⟩, hends.node⟩

/-- The line and the column are words of 32 bits. -/
def Position.FitsWords (a : Position) : Prop := a.line < 2 ^ 32 ∧ a.column < 2 ^ 32

theorem fitsWords_of_compile (h : compile m source = .ok c)
    (hlength : source.length + 1 < 2 ^ 32) : c.EndsAt Position.FitsWords := by
  apply endsAt_of_compile h
  intro front hfront
  have hfront : front.length ≤ source.length := hfront.length_le
  have hline := List.count_le_length (a := '\n') (l := front)
  have hcolumn := (List.takeWhile_sublist (· ≠ '\n') (l := front.reverse)).length_le
  rw [List.length_reverse] at hcolumn
  rw [foldl_advance_origin]
  constructor
  · change 1 + front.count '\n' < 2 ^ 32
    omega
  · change 1 + (front.reverse.takeWhile (· ≠ '\n')).length < 2 ^ 32
    omega

end ScriptMachine.Source
