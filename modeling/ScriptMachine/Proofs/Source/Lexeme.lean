import ScriptMachine.Proofs.Source.Range
import ScriptMachine.Source.Lexeme

/-!
# Lexemes in their text

The lexemes of a text follow one another. Each of them has at least one character, and none starts
before the end of the one before it. The end of the text is the position after its last character,
and it can be found without going through the text: by counting lines and the characters of the
last one.
-/

namespace ScriptMachine.Source

/-! ## The end of a text -/

/-- Going through a text leads to the column after the last character of its last line. -/
theorem foldl_advance_origin (text : List Char) :
    text.foldl Position.advance origin =
      ⟨1 + text.count '\n', 1 + (text.reverse.takeWhile (· ≠ '\n')).length⟩ := by
  induction text using List.reverseRecOn with
  | nil => rfl
  | append_singleton text c ih =>
    rw [List.foldl_concat, ih, Position.advance, List.reverse_concat, List.count_append]
    by_cases hline : c = '\n'
    · simp [hline, Nat.add_assoc]
    · simp [hline, Nat.add_assoc]

theorem extent_eq_measuredExtent (source : String) : extent source = measuredExtent source := by
  rw [extent, foldl_advance_origin, measuredExtent]

/-! ## What is read in part -/

/-- What has been read in part starts at `lower` or after it, and has at least one character. -/
def LexMode.StartsFrom (lower position : Position) : LexMode → Prop
  | word start _ | quoted start _ | dollar start => lower ≤ start ∧ start < position
  | between | comment => lower ≤ position

variable {lower position : Position} {mode : LexMode}

theorem LexMode.StartsFrom.le (h : mode.StartsFrom lower position) : lower ≤ position := by
  cases mode with
  | word start _ | quoted start _ | dollar start =>
    exact Position.le_trans h.1 (Position.le_of_lt h.2)
  | between | comment => exact h

theorem inOrder_ended (h : mode.StartsFrom lower position) :
    Range.InOrder lower position ((mode.ended position).map Lexeme.range) := by
  cases mode with
  | word start _ | dollar start => exact ⟨h.1, h.2, position.le_refl⟩
  | between | comment | quoted => exact h.le

theorem inOrder_atEnd (h : mode.StartsFrom lower position) :
    Range.InOrder lower position ((mode.atEnd position).map Lexeme.range) := by
  cases mode with
  | quoted start _ => exact ⟨h.1, h.2, position.le_refl⟩
  | between | comment | word | dollar => exact inOrder_ended h

theorem startsFrom_ofChar (position : Position) (c : Char) (rest : List Char) :
    (LexMode.ofChar position c rest).StartsFrom position (position.advance c) := by
  have hlt := position.lt_advance c
  unfold LexMode.ofChar
  split_ifs
  all_goals first | exact ⟨position.le_refl, hlt⟩ | exact Position.le_of_lt hlt

/-- A character that is a lexeme by itself leaves nothing that has been read in part. -/
theorem ofChar_of_ofChar? {c : Char} {kind : LexemeKind} (h : LexemeKind.ofChar? c = some kind)
    (position : Position) (rest : List Char) : LexMode.ofChar position c rest = .between := by
  unfold LexemeKind.ofChar? at h
  split_ifs at h with h₁ h₂ h₃ h₄
  all_goals
    subst c
    rfl

/-! ## One character and all of them -/

/-- A character that does not go on with what was read. -/
theorem exists_inOrder_afresh (h : mode.StartsFrom lower position) (c : Char) (rest : List Char) :
    ∃ middle,
      Range.InOrder lower middle
        ((mode.ended position ++
          ((LexemeKind.ofChar? c).map fun kind ↦
            (⟨kind, ⟨position, position.advance c⟩⟩ : Lexeme)).toList).map Lexeme.range) ∧
      (LexMode.ofChar position c rest).StartsFrom middle (position.advance c) := by
  cases hkind : LexemeKind.ofChar? c with
  | none =>
    refine ⟨position, ?_, startsFrom_ofChar position c rest⟩
    simpa using inOrder_ended h
  | some kind =>
    refine ⟨position.advance c, ?_, ?_⟩
    · rw [List.map_append]
      apply (inOrder_ended h).append
      exact ⟨position.le_refl, position.lt_advance c, Position.le_refl _⟩
    · rw [ofChar_of_ofChar? hkind]
      exact Position.le_refl _

/-- The lexemes that a character completes end before what is read in part after it. -/
theorem exists_inOrder_lexChar (h : mode.StartsFrom lower position) (c : Char) (rest : List Char) :
    ∃ middle,
      Range.InOrder lower middle ((lexChar position mode c rest).1.map Lexeme.range) ∧
        (lexChar position mode c rest).2.StartsFrom middle (position.advance c) := by
  have hafresh := exists_inOrder_afresh h c rest
  have hlt := position.lt_advance c
  cases mode with
  | between => exact hafresh
  | comment =>
    have hle : lower ≤ position.advance c := Position.le_trans h (Position.le_of_lt hlt)
    refine ⟨lower, lower.le_refl, ?_⟩
    unfold lexChar
    dsimp only
    split <;> exact hle
  | word start reversed =>
    unfold lexChar
    dsimp only
    split
    · exact hafresh
    · exact ⟨lower, lower.le_refl, h.1, Position.lt_of_lt_of_le h.2 (Position.le_of_lt hlt)⟩
  | quoted start reversed =>
    have hstop := Position.lt_of_lt_of_le h.2 (Position.le_of_lt hlt)
    unfold lexChar
    dsimp only
    split
    · exact ⟨position.advance c, ⟨h.1, hstop, Position.le_refl _⟩, Position.le_refl _⟩
    · exact ⟨lower, lower.le_refl, h.1, hstop⟩
  | dollar start =>
    have hstop := Position.lt_of_lt_of_le h.2 (Position.le_of_lt hlt)
    unfold lexChar
    dsimp only
    split
    · exact ⟨position.advance c, ⟨h.1, hstop, Position.le_refl _⟩, Position.le_refl _⟩
    · exact hafresh

theorem inOrder_lexFrom (h : mode.StartsFrom lower position) (text : List Char) :
    Range.InOrder lower (text.foldl Position.advance position)
      ((lexFrom position mode text).map Lexeme.range) := by
  induction text generalizing lower position mode with
  | nil => exact inOrder_atEnd h
  | cons c text ih =>
    obtain ⟨middle, hfirst, hnext⟩ := exists_inOrder_lexChar h c text
    rw [lexFrom, List.map_append]
    exact hfirst.append (ih hnext)

/-- The lexemes of a text follow one another from its start to its end. -/
theorem inOrder_lexemes (source : String) :
    Range.InOrder origin (extent source).stop ((lexemes source).map Lexeme.range) := by
  have hmode : LexMode.between.StartsFrom origin origin := origin.le_refl
  exact inOrder_lexFrom hmode source.toList

theorem contains_of_mem_lexemes {source : String} {x : Lexeme} (hx : x ∈ lexemes source) :
    (extent source).contains x.range = true :=
  ((inOrder_lexemes source).contains_of_mem x.range (List.mem_map_of_mem hx)).2

end ScriptMachine.Source
