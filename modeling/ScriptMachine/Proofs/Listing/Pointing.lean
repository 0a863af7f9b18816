import ScriptMachine.Listing.File
import ScriptMachine.Proofs.Listing.Joining

/-!
# Where faults point

Every fault of a listing is at a token, and every token starts at a character that is neither a
separator nor a comment mark, outside brackets and comments, at the start of its line or after a
separator. So a fault always has a line to show. The caret below that line counts bytes, and its
margin is narrower than that of the line, so that it is seldom below the token.
-/

namespace ScriptMachine

/-! ## Lines and their ends -/

namespace Text

variable {text : List Char} {c : Char}

theorem trimEnd_append_cons {p : Char → Bool} (h : p c = false) (before after : List Char) :
    trimEnd p (before ++ c :: after) = before ++ c :: trimEnd p after := by
  rw [trimEnd, trimEnd, List.reverse_append, List.reverse_cons, List.append_assoc,
    List.dropWhile_append]
  split
  · rename_i hempty
    simp [List.isEmpty_iff.mp hempty, h]
  · simp

theorem mem_of_mem_trimEnd {p : Char → Bool} (h : c ∈ trimEnd p text) : c ∈ text := by
  rw [trimEnd, List.mem_reverse] at h
  exact List.mem_reverse.mp ((List.dropWhile_sublist p).subset h)

theorem getLast?_trimEnd_ne {p : Char → Bool} (h : p c = true) (text : List Char) :
    (trimEnd p text).getLast? ≠ some c := by
  intro hlast
  have hhead := List.head?_dropWhile_not p text.reverse
  rw [trimEnd, List.getLast?_reverse] at hlast
  rw [hlast] at hhead
  simp [h] at hhead

theorem not_newline_of_mem_lines {line : List Char} (h : line ∈ lines text) : '\n' ∉ line := by
  fun_induction lines text generalizing line with
  | case1 => cases h
  | case2 rest ih | case3 rest _ ih =>
    rcases List.mem_cons.mp h with rfl | h
    · simp
    · exact ih h
  | case4 c rest _ hc hrest ih =>
    obtain rfl := List.mem_singleton.mp h
    simpa using Ne.symm hc
  | case5 c rest _ hc first others hrest ih =>
    rw [hrest] at ih
    rcases List.mem_cons.mp h with rfl | h
    · have hfirst := ih List.mem_cons_self
      simpa [hfirst] using Ne.symm hc
    · exact ih (List.mem_cons_of_mem _ h)

/-- A row that a newline ends is a line of its own. -/
theorem lines_append_newline {row more : List Char} (hrow : '\n' ∉ row)
    (hreturn : row.getLast? ≠ some '\r') :
    lines (row ++ '\n' :: more) = row :: lines more := by
  by_cases hnil : row = []
  · rw [hnil, List.nil_append, lines]
    · exact if_pos rfl
    · simp
  · obtain ⟨front, last, hjoined, hlength, hlines⟩ := exists_lines_append row more
    rw [List.count_eq_zero_of_not_mem hrow] at hlength
    obtain rfl := List.eq_nil_of_length_eq_zero hlength
    rw [lines_of_not_mem hrow hnil] at hlines
    rw [hjoined, List.nil_append]
    rcases hlines with ⟨hnone, -⟩ | hsame | hshort
    · cases hnone
    · cases hsame
      rfl
    · cases hshort
      exact absurd List.getLast?_concat hreturn

end Text

namespace Listing

open Source (Position)

/-! ## Places in a line -/

/-- A bracket is open where the text ends: the last bracket in it is an opening one. -/
def endsInBrackets (text : List Char) : Bool :=
  (text.filter fun c ↦ c == '[' || c == ']').getLast? == some '['

/-- No comment starts in the text: a comment mark stands in brackets only. -/
def IsCode (text : List Char) : Prop :=
  ∀ front back, text = front ++ '#' :: back → endsInBrackets front = true

/-- The character that follows `before` on a line is the first of a token. -/
structure StartsToken (before : List Char) (c : Char) : Prop where
  notSeparator : isSeparator c = false
  notHash : isHash c = false
  code : IsCode before
  outside : endsInBrackets before = false
  fresh : ∀ d, before.getLast? = some d → isSeparator d = true

/-- The size of a text in bytes. -/
def byteSize (text : List Char) : Nat := (String.ofList text).utf8ByteSize

/-- The position is that of the first character of a token, on a line with this number. -/
def IsTokenStart (number : Nat) (line : List Char) (position : Position) : Prop :=
  ∃ before c after, line = before ++ c :: after ∧ StartsToken before c ∧
    position = ⟨number, byteSize before + 1⟩

/-- The position is that of the first character of a token in the lines, the first of which has this
number. -/
def PointsInto (first : Nat) (lines : List (List Char)) (position : Position) : Prop :=
  first ≤ position.line ∧ ∃ line, lines[position.line - first]? = some line ∧
    IsTokenStart position.line line position

variable {text before rest : List Char} {c : Char} {number column : Nat}
  {hashBefore inBrackets : Bool} {pending : Option Pending}

theorem byteSize_concat (text : List Char) (c : Char) :
    byteSize (text ++ [c]) = byteSize text + c.utf8Size := by
  simp [byteSize, String.ofList_append]

theorem endsInBrackets_concat (text : List Char) (c : Char) :
    endsInBrackets (text ++ [c]) =
      if c = '[' then true else if c = ']' then false else endsInBrackets text := by
  by_cases hopen : c = '['
  · simp [endsInBrackets, hopen]
  · by_cases hclose : c = ']'
    · simp [endsInBrackets, hclose]
    · simp [endsInBrackets, hopen, hclose]

theorem isCode_concat (h : IsCode text) (hc : isHash c = true → endsInBrackets text = true) :
    IsCode (text ++ [c]) := by
  intro front back hsplit
  obtain rfl | ⟨back, d, rfl⟩ := List.eq_nil_or_concat' back
  · obtain ⟨rfl, hhash⟩ := List.append_inj' hsplit rfl
    cases hhash
    exact hc rfl
  · rw [← List.cons_append, ← List.append_assoc] at hsplit
    exact h front back (List.append_inj' hsplit rfl).1

/-! ## Reading a line -/

/-- What the reader of a line knows after the characters `before`. -/
structure Scanned (before : List Char) (inBrackets : Bool) (column : Nat)
    (pending : Option Pending) : Prop where
  code : IsCode before
  brackets : inBrackets = endsInBrackets before
  column : column = byteSize before + 1
  /-- Between tokens. -/
  idle : pending = none →
    inBrackets = false ∧ ∀ d, before.getLast? = some d → isSeparator d = true
  /-- Within a token. -/
  started : ∀ p, pending = some p → ∃ front c back, before = front ++ c :: back ∧
    StartsToken front c ∧ p.column = byteSize front + 1

namespace Scanned

theorem nil : Scanned [] false 1 none where
  code := by simp [IsCode]
  brackets := rfl
  column := rfl
  idle := by simp
  started := by simp

theorem separator (h : Scanned before false column pending) (hc : isSeparator c = true) :
    Scanned (before ++ [c]) false (column + c.utf8Size) none where
  code := by
    refine isCode_concat h.code fun hhash ↦ ?_
    rw [isHash, beq_iff_eq] at hhash
    subst hhash
    cases hc
  brackets := by
    have hopen : c ≠ '[' := by
      rintro rfl
      cases hc
    have hclose : c ≠ ']' := by
      rintro rfl
      cases hc
    rw [endsInBrackets_concat, if_neg hopen, if_neg hclose, ← h.brackets]
  column := by rw [byteSize_concat, h.column, Nat.add_right_comm]
  idle := by simp [hc]
  started := by simp

theorem extend (h : Scanned before inBrackets column pending)
    (hhash : (isHash c && !inBrackets) = false)
    (hseparator : (isSeparator c && !inBrackets) = false) :
    Scanned (before ++ [c]) (if c = '[' then true else if c = ']' then false else inBrackets)
      (column + c.utf8Size) (Pending.extend pending column c) where
  code := by
    refine isCode_concat h.code fun hc ↦ ?_
    rw [← h.brackets]
    simpa [hc] using hhash
  brackets := by rw [endsInBrackets_concat, h.brackets]
  column := by rw [byteSize_concat, h.column, Nat.add_right_comm]
  idle := by cases pending <;> simp [Pending.extend]
  started := by
    intro p hp
    cases pending with
    | none =>
      -- Outside brackets, so neither a separator nor a comment mark comes this far.
      obtain ⟨houtside, hfresh⟩ := h.idle rfl
      rw [houtside, Bool.not_false, Bool.and_true] at hhash hseparator
      cases hp
      refine ⟨before, c, [], rfl, ⟨hseparator, hhash, h.code, ?_, hfresh⟩, h.column⟩
      rw [← h.brackets, houtside]
    | some q =>
      obtain ⟨front, d, back, rfl, hstarts, hcolumn⟩ := h.started q rfl
      cases hp
      exact ⟨front, d, back ++ [c], by simp, hstarts, hcolumn⟩

theorem isTokenStart {p : Pending} (h : Scanned before inBrackets column (some p))
    (number : Nat) (rest : List Char) :
    IsTokenStart number (before ++ rest) ⟨number, p.column⟩ := by
  obtain ⟨front, c, back, rfl, hstarts, hcolumn⟩ := h.started p rfl
  exact ⟨front, c, back ++ rest, by simp, hstarts, by rw [hcolumn]⟩

end Scanned

/-- What fails does so at a position with the property. -/
def FaultsAt {α : Type} (P : Position → Prop) (x : Except Fault α) : Prop :=
  ∀ fault, x = .error fault → P fault.position

/-- Tokens are at positions with the property, and so is a fault. -/
structure Places (P : Position → Prop) (x : Except Fault (List Token)) : Prop where
  faults : FaultsAt P x
  tokens : ∀ ts, x = .ok ts → ∀ t ∈ ts, P t.position

section Results

variable {α β : Type} {P : Position → Prop}

theorem faultsAt_ok (a : α) : FaultsAt P (.ok a : Except Fault α) := fun _ h ↦ nomatch h

theorem faultsAt_error {fault : Fault} (h : P fault.position) :
    FaultsAt P (.error fault : Except Fault α) := by
  rintro _ ⟨⟩
  exact h

theorem FaultsAt.bind {x : Except Fault α} {f : α → Except Fault β} (hx : FaultsAt P x)
    (hf : ∀ a, x = .ok a → FaultsAt P (f a)) : FaultsAt P (x >>= f) := by
  cases x with
  | error fault => exact faultsAt_error (hx fault rfl)
  | ok a => exact hf a rfl

theorem places_ok {ts : List Token} (h : ∀ t ∈ ts, P t.position) : Places P (.ok ts) :=
  ⟨faultsAt_ok ts, by rintro _ ⟨⟩; exact h⟩

theorem Places.bind {x : Except Fault (List Token)} {f : List Token → Except Fault (List Token)}
    (hx : Places P x) (hf : ∀ ts, (∀ t ∈ ts, P t.position) → Places P (f ts)) :
    Places P (x >>= f) := by
  cases x with
  | error fault => exact ⟨faultsAt_error (hx.faults fault rfl), fun _ h ↦ nomatch h⟩
  | ok ts => exact hf ts (hx.tokens ts rfl)

theorem Places.mono {Q : Position → Prop} {x : Except Fault (List Token)} (h : Places P x)
    (hPQ : ∀ position, P position → Q position) : Places Q x :=
  ⟨fun fault hx ↦ hPQ _ (h.faults fault hx), fun ts hx t ht ↦ hPQ _ (h.tokens ts hx t ht)⟩

end Results

theorem places_lastToken (h : Scanned before inBrackets column pending) (number : Nat)
    (hashBefore : Bool) (rest : List Char) :
    Places (IsTokenStart number (before ++ rest))
      (lastToken number hashBefore inBrackets pending) := by
  cases pending with
  | none => exact places_ok (by simp)
  | some p =>
    have hstart := h.isTokenStart number rest
    cases inBrackets with
    | true => exact ⟨faultsAt_error hstart, fun _ h ↦ nomatch h⟩
    | false => exact places_ok (List.forall_mem_singleton.mpr hstart)

/-- The induction is on what is left of the line; what is known of the part before it grows. -/
theorem places_lineTokens (h : Scanned before inBrackets column pending) (number : Nat)
    (hashBefore : Bool) (rest : List Char) :
    Places (IsTokenStart number (before ++ rest))
      (lineTokens number hashBefore inBrackets column pending rest) := by
  induction rest generalizing before hashBefore inBrackets column pending with
  | nil => exact places_lastToken h number hashBefore []
  | cons c rest ih =>
    rw [lineTokens_cons]
    cases hhash : isHash c && !inBrackets with
    | true =>
      rw [if_pos rfl]
      exact places_lastToken h number hashBefore (c :: rest)
    | false =>
      rw [if_neg (by decide), List.append_cons]
      cases hseparator : isSeparator c && !inBrackets with
      | true =>
        rw [if_pos rfl]
        rw [Bool.and_eq_true, Bool.not_eq_true'] at hseparator
        obtain ⟨hc, rfl⟩ := hseparator
        have hnext := fun hashBefore ↦ ih (h.separator hc) hashBefore
        cases pending with
        | none => exact hnext hashBefore
        | some p =>
          refine (hnext _).bind fun ts hts ↦ places_ok (List.forall_mem_cons.mpr ⟨?_, hts⟩)
          have hstart := h.isTokenStart number (c :: rest)
          rwa [List.append_cons] at hstart
      | false =>
        rw [if_neg (by decide)]
        exact ih (h.extend hhash hseparator) hashBefore

theorem places_linesTokens (first : Nat) (lines : List (List Char)) :
    Places (PointsInto first lines) (linesTokens first lines) := by
  induction lines generalizing first with
  | nil => exact places_ok (by simp)
  | cons line others ih =>
    have hline : Places (PointsInto first (line :: others))
        (lineTokens first false false 1 none line) := by
      refine (places_lineTokens Scanned.nil first false line).mono fun position hstart ↦ ?_
      obtain ⟨before, c, after, rfl, hstarts, rfl⟩ := hstart
      exact ⟨Nat.le_refl _, _, by simp, before, c, after, rfl, hstarts, rfl⟩
    have hothers : Places (PointsInto first (line :: others)) (linesTokens (first + 1) others) := by
      refine (ih (first + 1)).mono fun position hpoints ↦ ?_
      obtain ⟨hle, below, hbelow, hstart⟩ := hpoints
      refine ⟨Nat.le_of_succ_le hle, below, ?_, hstart⟩
      have hindex : position.line - first = position.line - (first + 1) + 1 := by omega
      rw [hindex, List.getElem?_cons_succ, hbelow]
    rw [linesTokens]
    refine hline.bind fun ts hts ↦ hothers.bind fun ts' hts' ↦ places_ok ?_
    exact List.forall_mem_append.mpr ⟨hts, hts'⟩

/-! ## Reading instructions -/

section Assembly

variable {edition : Edition} {opcode : UInt8} {declared width : Nat} {l : Literal}
  {name t : Token} {operands ts : List Token} {P : Position → Prop}

theorem faultsAt_readLiteral (h : P t.position) : FaultsAt P (readLiteral t) := by
  unfold readLiteral
  dsimp only
  split_ifs
  · exact faultsAt_error h
  · split
    · exact faultsAt_error h
    · exact faultsAt_ok _
  · split
    · exact faultsAt_error h
    · split
      · exact faultsAt_error h
      · exact faultsAt_ok _

theorem faultsAt_pushOfLength (h : P name.position) :
    FaultsAt P (pushOfLength name opcode declared l) := by
  unfold pushOfLength
  split
  · exact faultsAt_error h
  · split <;> exact faultsAt_ok _

theorem faultsAt_requireOperand (h : P name.position) (operand : Operand) (t? : Option Token) :
    FaultsAt P (requireOperand name operand t?) := by
  cases t? with
  | none => exact faultsAt_error h
  | some t => exact faultsAt_ok t

theorem mem_of_requireOperand {operand : Operand} {k : Nat}
    (h : requireOperand name operand operands[k]? = .ok t) : t ∈ operands := by
  cases hk : operands[k]? with
  | none =>
    rw [hk] at h
    cases h
  | some u =>
    rw [hk] at h
    cases h
    exact List.mem_of_getElem? hk

theorem faultsAt_readCutLength (h : P t.position) : FaultsAt P (readCutLength opcode width t) := by
  refine (faultsAt_readLiteral h).bind fun l _ ↦ ?_
  split
  · exact faultsAt_ok _
  · exact faultsAt_error h

variable (hname : P name.position) (hoperands : ∀ t ∈ operands, P t.position)

include hname hoperands

theorem faultsAt_readLongPush : FaultsAt P (readLongPush name opcode width operands) := by
  refine (faultsAt_requireOperand hname _ _).bind fun t ht ↦ ?_
  have htoken := hoperands t (mem_of_requireOperand ht)
  split
  · exact (faultsAt_readCutLength htoken).bind fun i _ ↦ faultsAt_ok _
  · split
    · exact faultsAt_error htoken
    · refine (faultsAt_requireOperand hname _ _).bind fun payload hpayload ↦ ?_
      have hliteral := hoperands payload (mem_of_requireOperand hpayload)
      refine (faultsAt_readLiteral hliteral).bind fun l _ ↦ ?_
      exact (faultsAt_pushOfLength hname).bind fun i _ ↦ faultsAt_ok _

theorem faultsAt_readInstruction : FaultsAt P (readInstruction edition name operands) := by
  unfold readInstruction
  split
  · exact faultsAt_error hname
  · split
    · exact faultsAt_ok _
    · split
      · exact faultsAt_ok _
      · refine (faultsAt_requireOperand hname _ _).bind fun t ht ↦ ?_
        refine (faultsAt_readLiteral (hoperands t (mem_of_requireOperand ht))).bind fun l _ ↦ ?_
        exact (faultsAt_pushOfLength hname).bind fun i _ ↦ faultsAt_ok _
    · exact faultsAt_readLongPush hname hoperands

omit hname hoperands

theorem faultsAt_assembleTokens (h : ∀ t ∈ ts, P t.position) :
    FaultsAt P (assembleTokens edition ts) := by
  fun_induction assembleTokens edition ts with
  | case1 => exact faultsAt_ok []
  | case2 name rest hoperand => exact faultsAt_error (h name List.mem_cons_self)
  | case3 name rest hoperand fault hread =>
    obtain ⟨hname, hrest⟩ := List.forall_mem_cons.mp h
    exact faultsAt_error (faultsAt_readInstruction hname hrest fault hread)
  | case4 name rest hoperand i count hread next tail hnext hcut =>
    have hmem : next ∈ rest.drop count := by simp [hnext]
    exact faultsAt_error (h next (List.mem_cons_of_mem _ (List.mem_of_mem_drop hmem)))
  | case5 name rest hoperand i count hread hlast ih =>
    have hothers := ih fun t ht ↦ h t (List.mem_cons_of_mem _ (List.mem_of_mem_drop ht))
    exact hothers.bind fun others _ ↦ faultsAt_ok _

theorem faultsAt_assemble (edition : Edition) (source : String) :
    FaultsAt (PointsInto 1 (Text.lines source.toList)) (assemble edition source) := by
  have hplaces := places_linesTokens 1 (Text.lines source.toList)
  exact hplaces.faults.bind fun ts hts ↦ faultsAt_assembleTokens (hplaces.tokens ts hts)

end Assembly

/-! ## Diagnostics -/

/-- What stands before the line in a diagnostic. -/
def margin (number : Nat) : List Char :=
  (Text.padLeft 4 (toString number)).toList ++ " | ".toList

/-- What stands before the caret in a diagnostic, and the caret. -/
def caretRow (blanks : Nat) : List Char :=
  "  | ".toList ++ List.replicate blanks ' ' ++ ['^']

/-- The character above the caret, where a diagnostic ends in a row with a caret. -/
def aboveCaret? (diagnostic : String) : Option Char :=
  match (Text.lines diagnostic.toList).reverse with
  | caret :: row :: _ => row[caret.idxOf '^']?
  | _ => none

theorem not_newline_margin (number : Nat) : '\n' ∉ margin number := by
  have hdigits : '\n' ∉ Nat.toDigits 10 number := fun hmem ↦
    absurd (Nat.isDigit_of_mem_toDigits (by decide) (by decide) hmem) (by decide)
  rw [margin, Text.padLeft, String.toList_append, String.toList_ofList, Text.toList_toString]
  simp [hdigits]

theorem getLast?_margin (number : Nat) : (margin number).getLast? = some ' ' := by
  rw [margin, List.getLast?_append]
  rfl

theorem lines_caretRow (blanks : Nat) :
    Text.lines (caretRow blanks ++ ['\n']) = [caretRow blanks] := by
  apply Text.lines_append_newline
  · simp [caretRow]
  · rw [caretRow, List.getLast?_concat]
    decide

/-- A diagnostic ends in the line and the caret, each in a row of its own after a margin. -/
theorem lines_diagnostic {source : String} {position : Position} {line : List Char}
    (h : (Text.lines source.toList)[position.line - 1]? = some line) (file message : String) :
    ∃ front, Text.lines (diagnostic file source position message).toList = front ++
      [margin position.line ++ Text.trimEnd (· = '\r') line, caretRow (position.column - 1)] := by
  have hself : ∀ text : String, toString text = text := fun _ ↦ rfl
  have hrows : (diagnostic file source position message).toList =
      s!"error: {message}\n --> {file}:{position.text}\n  |".toList ++
        '\n' :: (margin position.line ++ Text.trimEnd (· = '\r') line ++
          '\n' :: (caretRow (position.column - 1) ++ ['\n'])) := by
    simp [diagnostic, h, margin, caretRow, hself]
  have hrow : '\n' ∉ margin position.line ++ Text.trimEnd (· = '\r') line := by
    rw [List.mem_append, not_or]
    refine ⟨not_newline_margin _, fun hmem ↦ ?_⟩
    exact Text.not_newline_of_mem_lines (List.mem_of_getElem? h) (Text.mem_of_mem_trimEnd hmem)
  have hreturn : (margin position.line ++ Text.trimEnd (· = '\r') line).getLast? ≠ some '\r' := by
    rw [List.getLast?_append, getLast?_margin]
    intro hlast
    rcases Option.or_eq_some_iff.mp hlast with hline | ⟨-, hmargin⟩
    · exact Text.getLast?_trimEnd_ne (by simp) line hline
    · cases hmargin
  obtain ⟨front, last, hlines, -, -⟩ := Text.exists_lines_append _
    (margin position.line ++ Text.trimEnd (· = '\r') line ++
      '\n' :: (caretRow (position.column - 1) ++ ['\n']))
  refine ⟨front ++ [last], ?_⟩
  rw [hrows, hlines, Text.lines_append_newline hrow hreturn, lines_caretRow]
  simp

theorem length_margin (number : Nat) :
    (margin number).length = max 4 (Nat.toDigits 10 number).length + 3 := by
  have hdivider : " | ".toList.length = 3 := by decide
  rw [margin, Text.padLeft, String.toList_append, String.toList_ofList, ← String.length_toList,
    Text.toList_toString, List.length_append, List.length_append, List.length_replicate, hdivider]
  omega

theorem idxOf_caretRow (blanks : Nat) : (caretRow blanks).idxOf '^' = 4 + blanks := by
  rw [caretRow, List.idxOf_append_of_notMem (by simp), List.length_append, List.length_replicate]
  rfl

theorem aboveCaret?_of_lines {diagnostic : String} {front : List (List Char)} {row : List Char}
    {blanks : Nat} (h : Text.lines diagnostic.toList = front ++ [row, caretRow blanks]) :
    aboveCaret? diagnostic = row[4 + blanks]? := by
  rw [aboveCaret?, h, ← idxOf_caretRow]
  simp

/-- Every fault is in the listing, at the first character of a token: a byte offset into one of the
lines. Its diagnostic shows that line, and below it a caret. But the caret is set in by as many
blanks as there are bytes before the token, after a margin of four characters, while the margin of
the line has seven or more. -/
theorem faults_point_at_tokens {edition : Edition} {source : String} {fault : Fault}
    (h : assemble edition source = .error fault) :
    ∃ number column before c after,
      (FileError.faulty fault).position? = some ⟨number, column⟩ ∧
      1 ≤ number ∧ number ≤ (Text.lines source.toList).length ∧
      (Text.lines source.toList)[number - 1]? = some (before ++ c :: after) ∧
      column = byteSize before + 1 ∧ StartsToken before c ∧
      (margin number).length = max 4 (Nat.toDigits 10 number).length + 3 ∧
      ∀ file, ∃ front rest,
        Text.lines (fault.diagnostic file source).toList =
          front ++ [margin number ++ before ++ c :: rest, caretRow (column - 1)] ∧
        aboveCaret? (fault.diagnostic file source) =
          (margin number ++ before ++ c :: rest)[4 + byteSize before]? := by
  obtain ⟨⟨number, column⟩, mistake⟩ := fault
  obtain ⟨hnumber, line, hline, before, c, after, rfl, hstarts, hposition⟩ :=
    faultsAt_assemble edition source _ h
  cases hposition
  refine ⟨number, _, before, c, after, rfl, hnumber, ?_, hline, rfl, hstarts,
    length_margin number, fun file ↦ ?_⟩
  · have hlt := (List.getElem?_eq_some_iff.mp hline).1
    change number - 1 < _ at hlt
    omega
  · have hshown : Text.trimEnd (· = '\r') (before ++ c :: after) =
        before ++ c :: Text.trimEnd (· = '\r') after := by
      apply Text.trimEnd_append_cons
      refine decide_eq_false ?_
      rintro rfl
      exact absurd hstarts.notSeparator (by decide)
    obtain ⟨front, hrows⟩ := lines_diagnostic hline file mistake.message
    rw [hshown, ← List.append_assoc] at hrows
    exact ⟨front, _, hrows, aboveCaret?_of_lines hrows⟩

/-- A bracket that is left open on the second line, after a character of two bytes: the token starts
at the fourth byte of the line, and the caret is below another. -/
theorem faults_point_at_tokens_open :
    let source := "OP_DUP # [\né [missing"
    let fault : Fault := ⟨⟨2, 4⟩, .invalidMissingNote "[missing"⟩
    assemble .y2026 source = .error fault ∧
      ∃ before c after, (Text.lines source.toList)[1]? = some (before ++ c :: after) ∧
        byteSize before = 3 ∧ StartsToken before c ∧
        (∃ front rest, Text.lines (fault.diagnostic "a" source).toList =
          front ++ [margin 2 ++ before ++ c :: rest, caretRow 3]) ∧
        aboveCaret? (fault.diagnostic "a" source) = some 'é' := by
  intro source fault
  have h : assemble .y2026 source = .error fault := by decide +kernel
  obtain ⟨number, column, before, c, after, hposition, -, -, hline, hcolumn, hstarts, -, hshown⟩ :=
    faults_point_at_tokens h
  cases hposition
  obtain ⟨front, rest, hrows, -⟩ := hshown "a"
  exact ⟨h, before, c, after, hline, (Nat.succ.inj hcolumn).symm, hstarts, ⟨front, rest, hrows⟩,
    by decide +kernel⟩

/-- The caret of a diagnostic may be below a blank of the margin. -/
theorem caret_is_below_blank :
    ¬ ∀ edition source file fault, assemble edition source = .error fault →
      ∃ c, aboveCaret? (fault.diagnostic file source) = some c ∧ isSeparator c = false := by
  intro h
  have hfault : assemble .y2025 "OP_NOPE" = .error ⟨⟨1, 1⟩, .unknownOpcode "OP_NOPE"⟩ := by
    decide +kernel
  obtain ⟨c, habove, hc⟩ := h _ _ "script.asm" _ hfault
  have hblank : aboveCaret? (Fault.diagnostic "script.asm" "OP_NOPE"
      ⟨⟨1, 1⟩, .unknownOpcode "OP_NOPE"⟩) = some ' ' := by decide +kernel
  rw [hblank] at habove
  cases habove
  cases hc

end Listing

end ScriptMachine
