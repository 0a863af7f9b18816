import ScriptMachine.Proofs.Source.Lexeme

/-!
# Texts below other texts

The lexemes of a text depend on where it starts only in their lines. After a text that leaves no
quotation open, a line break completes what was read in part and nothing else, and whether a
comment starts before it cannot depend on what follows. So the lexemes of two texts, one below the
other, are those of the first and those of the second, further down.
-/

namespace ScriptMachine.Source

/-! ## Further down -/

/-- The position that many lines below. -/
def Position.down (a : Position) (lines : Nat) : Position := ⟨a.line + lines, a.column⟩

def Range.down (r : Range) (lines : Nat) : Range := ⟨r.start.down lines, r.stop.down lines⟩

def Lexeme.down (x : Lexeme) (lines : Nat) : Lexeme := ⟨x.kind, x.range.down lines⟩

def LexMode.down (lines : Nat) : LexMode → LexMode
  | between => between
  | comment => comment
  | word start reversed => word (start.down lines) reversed
  | quoted start reversed => quoted (start.down lines) reversed
  | dollar start => dollar (start.down lines)

variable (lines : Nat) (position : Position) (mode : LexMode) (c : Char) (rest : List Char)

theorem Position.advance_down :
    (position.down lines).advance c = (position.advance c).down lines := by
  rw [advance, advance]
  by_cases hline : c = '\n'
  · simp [hline, down, Nat.add_right_comm]
  · simp [hline, down]

theorem Position.foldl_advance_down (text : List Char) :
    text.foldl advance (position.down lines) = (text.foldl advance position).down lines := by
  induction text generalizing position with
  | nil => rfl
  | cons c text ih => rw [List.foldl_cons, advance_down, ih, List.foldl_cons]

theorem LexMode.ended_down :
    (mode.down lines).ended (position.down lines) =
      (mode.ended position).map (·.down lines) := by
  cases mode <;> rfl

theorem LexMode.atEnd_down :
    (mode.down lines).atEnd (position.down lines) =
      (mode.atEnd position).map (·.down lines) := by
  cases mode <;> rfl

theorem LexMode.ofChar_down :
    LexMode.ofChar (position.down lines) c rest =
      (LexMode.ofChar position c rest).down lines := by
  unfold LexMode.ofChar
  split_ifs <;> rfl

theorem lexChar_down :
    lexChar (position.down lines) (mode.down lines) c rest =
      ((lexChar position mode c rest).1.map (·.down lines),
        (lexChar position mode c rest).2.down lines) := by
  -- What the character gives where it does not go on with what was read.
  have hafresh : ((mode.down lines).ended (position.down lines) ++
        ((LexemeKind.ofChar? c).map fun kind ↦
          (⟨kind, ⟨position.down lines, (position.down lines).advance c⟩⟩ : Lexeme)).toList) =
      (mode.ended position ++
        ((LexemeKind.ofChar? c).map fun kind ↦
          (⟨kind, ⟨position, position.advance c⟩⟩ : Lexeme)).toList).map (·.down lines) := by
    rw [List.map_append, LexMode.ended_down, Position.advance_down]
    cases LexemeKind.ofChar? c <;> rfl
  have hmode := LexMode.ofChar_down lines position c rest
  cases mode with
  | between => exact Prod.ext hafresh hmode
  | comment =>
    by_cases hline : c = '\n'
    · simp [lexChar, LexMode.down, hline]
    · simp [lexChar, LexMode.down, hline]
  | word start reversed =>
    by_cases hends : endsWord c rest = true
    · simpa [lexChar, LexMode.down, hends] using ⟨hafresh, hmode⟩
    · simp [lexChar, LexMode.down, hends]
  | quoted start reversed =>
    by_cases hquote : c = '"'
    · simp [lexChar, LexMode.down, hquote, Lexeme.down, Range.down, Position.advance_down]
    · simp [lexChar, LexMode.down, hquote]
  | dollar start =>
    by_cases hparenthesis : c = '('
    · simp [lexChar, LexMode.down, hparenthesis, Lexeme.down, Range.down, Position.advance_down]
    · simpa [lexChar, LexMode.down, hparenthesis] using ⟨hafresh, hmode⟩

theorem lexFrom_down (text : List Char) :
    lexFrom (position.down lines) (mode.down lines) text =
      (lexFrom position mode text).map (·.down lines) := by
  induction text generalizing position mode with
  | nil => exact LexMode.atEnd_down lines position mode
  | cons c text ih =>
    rw [lexFrom, lexFrom, lexChar_down, Position.advance_down, ih, List.map_append]

/-! ## One text below another -/

section Joined

variable {position mode c}

theorem startsComment_append (text : List Char) :
    startsComment c (text ++ '\n' :: rest) = startsComment c text := by
  cases text with
  | nil => simp [startsComment]
  | cons d text => rfl

/-- What comes below the line does not tell what a character is. -/
theorem lexChar_append (text : List Char) :
    lexChar position mode c (text ++ '\n' :: rest) = lexChar position mode c text := by
  have hends : endsWord c (text ++ '\n' :: rest) = endsWord c text := by
    rw [endsWord, endsWord, startsComment_append]
  have hmode : LexMode.ofChar position c (text ++ '\n' :: rest) =
      LexMode.ofChar position c text := by
    rw [LexMode.ofChar, LexMode.ofChar, startsComment_append]
  simp only [lexChar, hends, hmode]

/-- A line break completes what the end of the text would complete, but for a quotation. -/
theorem lexChar_newline (h : ∀ x ∈ mode.atEnd position, x.kind ≠ .openQuotation) :
    lexChar position mode '\n' rest = (mode.atEnd position, .between) := by
  cases mode with
  | quoted start reversed => exact absurd rfl (h _ List.mem_cons_self)
  | between | comment | dollar start => rfl
  | word start reversed => rfl

theorem lexFrom_append {text : List Char}
    (h : ∀ x ∈ lexFrom position mode text, x.kind ≠ .openQuotation) :
    lexFrom position mode (text ++ '\n' :: rest) =
      lexFrom position mode text ++
        lexFrom ((text.foldl Position.advance position).advance '\n') .between rest := by
  induction text generalizing position mode with
  | nil =>
    have hnewline := lexChar_newline rest h
    rw [List.nil_append, lexFrom, lexFrom, hnewline]
    rfl
  | cons c text ih =>
    rw [lexFrom] at h
    have htext := ih fun x hx ↦ h x (List.mem_append_right _ hx)
    rw [List.cons_append, lexFrom, lexFrom, lexChar_append, htext, List.append_assoc]
    rfl

end Joined

theorem foldl_advance_newline (text : List Char) :
    (text.foldl Position.advance origin).advance '\n' = origin.down (1 + text.count '\n') := by
  rw [foldl_advance_origin]
  simp [Position.advance, Position.down, origin, Nat.add_comm]

/-- The lexemes of a text and of one below it. -/
theorem lexemes_joined {first : String} (second : String)
    (h : ∀ x ∈ lexemes first, x.kind ≠ .openQuotation) :
    lexemes (first ++ "\n" ++ second) =
      lexemes first ++ (lexemes second).map (·.down (1 + first.toList.count '\n')) := by
  have hlist : (first ++ "\n" ++ second).toList = first.toList ++ '\n' :: second.toList := by simp
  rw [lexemes, hlist, lexFrom_append _ h, foldl_advance_newline]
  apply congrArg (lexemes first ++ ·)
  exact lexFrom_down _ origin .between second.toList

theorem extent_joined (first second : String) :
    extent (first ++ "\n" ++ second) =
      ⟨origin, (extent second).stop.down (1 + first.toList.count '\n')⟩ := by
  have hlist : (first ++ "\n" ++ second).toList = first.toList ++ '\n' :: second.toList := by simp
  rw [extent, hlist, List.foldl_append, List.foldl_cons, foldl_advance_newline,
    Position.foldl_advance_down]
  rfl

end ScriptMachine.Source
