import Mathlib.Data.List.TakeWhile
import ScriptMachine.Listing.Token

/-!
# Words become tokens

A word is read as one token if it has neither blanks nor comment marks, except for blanks in a note
in brackets that may end it. A line of such words with a blank between each two is read back as
these words.
-/

namespace ScriptMachine

namespace Text

theorem lines_of_not_mem {text : List Char} (h : '\n' ∉ text) (hne : text ≠ []) :
    lines text = [text] := by
  fun_induction lines text with
  | case1 => exact absurd rfl hne
  | case2 rest ih => simp at h
  | case3 rest _ ih => simp at h
  | case4 c rest _ hc hrest ih =>
    have hnil : rest = [] := by
      by_contra hne'
      have hlines := ih (fun hmem ↦ h (List.mem_cons_of_mem _ hmem)) hne'
      rw [hrest] at hlines
      cases hlines
    rw [hnil]
  | case5 c rest _ hc line others hrest ih =>
    have hlines : lines rest = [rest] := by
      refine ih (fun hmem ↦ h (List.mem_cons_of_mem _ hmem)) ?_
      rintro rfl
      cases hrest
    rw [hrest] at hlines
    cases hlines
    rfl

theorem trimEnd_append_singleton {p : Char → Bool} {c : Char} (h : p c = false)
    (text : List Char) : trimEnd p (text ++ [c]) = text ++ [c] := by
  simp [trimEnd, h]

end Text

namespace Listing

/-- The character can stand in a word outside brackets. -/
def isPlain (c : Char) : Bool := !isSeparator c && !isHash c && c != '[' && !Text.isBlank c

/-- The character can stand between the brackets of a note. -/
def isNoteChar (c : Char) : Bool := !isHash c && c != ']' && c != '\n'

/-- A text in brackets. -/
def IsNote (text : List Char) : Prop :=
  ∃ inner : List Char, text = '[' :: (inner ++ [']']) ∧ ∀ c ∈ inner, isNoteChar c = true

/-- A text that is read as one token: plain characters, and then perhaps a note. -/
def IsWord (word : List Char) : Prop :=
  word ≠ [] ∧ ∃ plain note : List Char, word = plain ++ note ∧
    (∀ c ∈ plain, isPlain c = true) ∧ (note = [] ∨ IsNote note)

/-- The characters of the token that is being read, if any. -/
def Pending.text (pending : Option Pending) : List Char := (pending.map Pending.chars).getD []

variable {before middle after : Bool} {first second word : List Char} {line : Nat} {c : Char}

/-! ## Reading on within a token -/

theorem Pending.text_extend (pending : Option Pending) (column : Nat) (c : Char) :
    text (extend pending column c) = text pending ++ [c] := by
  cases pending <;> simp [text, extend, chars]

/-- Reading a text adds it to the pending token. `before` and `after` say whether a bracket is open
on its two sides. -/
def Scans (before after : Bool) (text : List Char) : Prop :=
  ∀ (line : Nat) (hashBefore : Bool) (column : Nat) (pending : Option Pending) (rest : List Char),
    ∃ (next : Nat) (pending' : Option Pending),
      Pending.text pending' = Pending.text pending ++ text ∧
      lineTokens line hashBefore before column pending (text ++ rest) =
        lineTokens line hashBefore after next pending' rest

theorem scans_nil (before : Bool) : Scans before before [] := fun _ _ column pending _ ↦
  ⟨column, pending, (List.append_nil _).symm, rfl⟩

theorem Scans.append (h : Scans before middle first) (h' : Scans middle after second) :
    Scans before after (first ++ second) := by
  intro line hashBefore column pending rest
  obtain ⟨next, pending', htext, hrun⟩ := h line hashBefore column pending (second ++ rest)
  obtain ⟨next', pending'', htext', hrun'⟩ := h' line hashBefore next pending' rest
  refine ⟨next', pending'', ?_, ?_⟩
  · rw [htext', htext, List.append_assoc]
  · rw [List.append_assoc, hrun, hrun']

theorem scans_singleton (before : Bool) (c : Char)
    (h : before = true ∨ (isHash c = false ∧ isSeparator c = false)) :
    Scans before (if c = '[' then true else if c = ']' then false else before) [c] := by
  intro line hashBefore column pending rest
  refine ⟨column + c.utf8Size, Pending.extend pending column c, Pending.text_extend .., ?_⟩
  have hhash : (isHash c && !before) = false := by rcases h with rfl | ⟨h, -⟩ <;> simp [*]
  have hseparator : (isSeparator c && !before) = false := by
    rcases h with rfl | ⟨-, h⟩ <;> simp [*]
  simp [lineTokens, hhash, hseparator]

theorem scans_of_forall (h : ∀ c ∈ word, Scans before before [c]) : Scans before before word := by
  induction word with
  | nil => exact scans_nil before
  | cons c rest ih =>
    exact (h c List.mem_cons_self).append (ih fun d hd ↦ h d (List.mem_cons_of_mem _ hd))

theorem scans_plain (h : ∀ c ∈ word, isPlain c = true) : Scans false false word := by
  refine scans_of_forall fun c hc ↦ ?_
  have hplain := h c hc
  simp only [isPlain, Bool.and_eq_true, Bool.not_eq_true', bne_iff_ne] at hplain
  obtain ⟨⟨⟨hseparator, hhash⟩, hopen⟩, -⟩ := hplain
  simpa [hopen] using scans_singleton false c (.inr ⟨hhash, hseparator⟩)

theorem IsNote.scans (h : IsNote word) : Scans false false word := by
  obtain ⟨inner, rfl, hinner⟩ := h
  have hopen : Scans false true ['['] := scans_singleton false _ (.inr (by decide))
  have hinside : Scans true true inner := by
    refine scans_of_forall fun c hc ↦ ?_
    have hclose : c ≠ ']' := by
      rintro rfl
      exact absurd (hinner _ hc) (by decide)
    simpa [hclose] using scans_singleton true c (.inl rfl)
  have hclose : Scans true false [']'] := scans_singleton true _ (.inl rfl)
  exact hopen.append (hinside.append hclose)

namespace IsWord

theorem scans (h : IsWord word) : Scans false false word := by
  obtain ⟨-, plain, note, rfl, hplain, rfl | hnote⟩ := h
  · exact (scans_plain hplain).append (scans_nil false)
  · exact (scans_plain hplain).append hnote.scans

/-! ## Where a token ends -/

theorem not_hash_or_newline (h : IsWord word) (hc : c ∈ word) : isHash c = false ∧ c ≠ '\n' := by
  have hplainChar : ∀ c, isPlain c = true → isHash c = false ∧ c ≠ '\n' := by
    rintro c hc
    refine ⟨by simp_all [isPlain], ?_⟩
    rintro rfl
    exact absurd hc (by decide)
  obtain ⟨-, plain, note, rfl, hplain, hnote⟩ := h
  rcases List.mem_append.mp hc with hc | hc
  · exact hplainChar c (hplain c hc)
  · obtain rfl | ⟨inner, rfl, hinner⟩ := hnote
    · cases hc
    · simp only [List.mem_cons, List.mem_append, List.not_mem_nil, or_false] at hc
      rcases hc with rfl | hc | rfl
      · decide
      · have hc := hinner c hc
        simp_all [isNoteChar]
      · decide

theorem exists_last (h : IsWord word) :
    ∃ front last, word = front ++ [last] ∧ Text.isBlank last = false := by
  obtain ⟨hne, plain, note, rfl, hplain, rfl | ⟨inner, rfl, -⟩⟩ := h
  · rw [List.append_nil] at hne ⊢
    have hlast := hplain _ (List.getLast_mem hne)
    refine ⟨plain.dropLast, plain.getLast hne, (List.dropLast_concat_getLast hne).symm, ?_⟩
    simp_all [isPlain]
  · exact ⟨plain ++ '[' :: inner, ']', by simp, by decide⟩

/-- The end of the line leaves a word as it is. -/
theorem closeLast (h : IsWord word) {p : Pending} (hp : p.chars = word) :
    (p.closeLast line false).text.toList = word := by
  have hvisible : word.takeWhile (!isHash ·) = word := by
    rw [List.takeWhile_eq_self_iff]
    intro c hc
    simp [(h.not_hash_or_newline hc).1]
  obtain ⟨front, last, rfl, hlast⟩ := h.exists_last
  simp only [Pending.closeLast, Bool.false_eq_true, if_false, hp, hvisible, String.toList_ofList,
    Text.trimEnd_append_singleton hlast]

/-- Reading a word leaves it pending. -/
theorem exists_pending (h : IsWord word) (line : Nat) (column : Nat) (rest : List Char) :
    ∃ (next : Nat) (p : Pending), p.chars = word ∧
      lineTokens line false false column none (word ++ rest) =
        lineTokens line false false next (some p) rest := by
  obtain ⟨next, pending, htext, hrun⟩ := h.scans line false column none rest
  cases pending with
  | none => exact absurd htext.symm h.1
  | some p => exact ⟨next, p, htext, hrun⟩

end IsWord

/-! ## Lines of words -/

/-- A blank ends a token that has no comment mark. -/
theorem lineTokens_blank {p : Pending} (h : p.reversed.any isHash = false) (line column : Nat)
    (rest : List Char) :
    lineTokens line false false column (some p) (' ' :: rest) =
      (lineTokens line false false (column + 1) none rest).map (p.close line :: ·) := by
  have hsize : ' '.utf8Size = 1 := by decide
  have hblank : isHash ' ' = false ∧ isSeparator ' ' = true := by decide
  rw [lineTokens]
  simp only [hblank, hsize, h, Bool.not_false, Bool.and_true, Bool.or_false,
    Bool.false_eq_true, if_false, if_true]
  cases lineTokens line false false (column + 1) none rest <;> rfl

theorem mem_intercalate {words : List (List Char)} (h : c ∈ first.intercalate words) :
    c ∈ first ∨ ∃ word ∈ words, c ∈ word := by
  induction words with
  | nil => cases h
  | cons word others ih =>
    cases others with
    | nil => exact .inr ⟨word, List.mem_cons_self, by simpa using h⟩
    | cons word' others =>
      rw [List.intercalate_cons_cons, List.mem_append, List.mem_append] at h
      rcases h with (h | h) | h
      · exact .inr ⟨word, List.mem_cons_self, h⟩
      · exact .inl h
      · exact (ih h).imp_right fun ⟨w, hw, hc⟩ ↦ ⟨w, List.mem_cons_of_mem _ hw, hc⟩

theorem lineTokens_intercalate {words : List (List Char)} (h : ∀ word ∈ words, IsWord word)
    (line column : Nat) :
    ∃ ts, lineTokens line false false column none ([' '].intercalate words) = .ok ts ∧
      ts.map (·.text.toList) = words := by
  induction words generalizing column with
  | nil => exact ⟨[], rfl, rfl⟩
  | cons word others ih =>
    have hword := h word List.mem_cons_self
    cases others with
    | nil =>
      obtain ⟨next, p, hp, hrun⟩ := hword.exists_pending line column []
      refine ⟨[p.closeLast line false], ?_, by simp [hword.closeLast hp]⟩
      rw [List.intercalate_singleton, ← List.append_nil word, hrun]
      rfl
    | cons word' others =>
      obtain ⟨next, p, hp, hrun⟩ :=
        hword.exists_pending line column (' ' :: [' '].intercalate (word' :: others))
      obtain ⟨ts, hts, htext⟩ := ih (fun w hw ↦ h w (List.mem_cons_of_mem _ hw)) (next + 1)
      have hhash : p.reversed.any isHash = false := by
        rw [List.any_eq_false]
        intro c hc
        have hmem : c ∈ word := hp ▸ List.mem_reverse.mpr hc
        simp [(hword.not_hash_or_newline hmem).1]
      refine ⟨p.close line :: ts, ?_, by simp [htext, Pending.close, hp]⟩
      rw [List.intercalate_cons_cons, List.append_assoc, List.singleton_append, hrun,
        lineTokens_blank hhash, hts]
      rfl

theorem tokens_of_not_mem {source : String} (h : '\n' ∉ source.toList) :
    tokens source = lineTokens 1 false false 1 none source.toList := by
  unfold tokens
  cases hchars : source.toList with
  | nil => rfl
  | cons c rest =>
    rw [← hchars, Text.lines_of_not_mem h (by simp [hchars]), linesTokens]
    cases lineTokens 1 false false 1 none source.toList <;> simp [linesTokens] <;> rfl

/-- Words with a blank between each two are read as these words. -/
theorem tokens_intercalate {words : List String} (h : ∀ word ∈ words, IsWord word.toList) :
    ∃ ts, tokens (" ".intercalate words) = .ok ts ∧ ts.map Token.text = words := by
  have hwords : ∀ word ∈ words.map String.toList, IsWord word := by simpa using h
  have htext : (" ".intercalate words).toList = [' '].intercalate (words.map String.toList) :=
    String.toList_intercalate
  have hline : '\n' ∉ (" ".intercalate words).toList := by
    rw [htext]
    intro hmem
    obtain hblank | ⟨word, hword, hc⟩ := mem_intercalate hmem
    · exact absurd hblank (by decide)
    · exact ((hwords word hword).not_hash_or_newline hc).2 rfl
  obtain ⟨ts, hts, hmap⟩ := lineTokens_intercalate hwords 1 1
  refine ⟨ts, by rw [tokens_of_not_mem hline, htext, hts], ?_⟩
  have hstrings := congrArg (List.map String.ofList) hmap
  simpa [Function.comp_def] using hstrings

end Listing

end ScriptMachine
