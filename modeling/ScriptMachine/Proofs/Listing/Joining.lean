import ScriptMachine.Proofs.Listing.Reading
import ScriptMachine.Proofs.Source.Displacement

/-!
# Listings one below the other

A line break after a listing ends its last line, and with it a carriage return that was a separator
becomes a part of the line's end. The last token of that line is then ended by the line, which may
cut it, but not where an instruction was read from it: such a token is a word. What stands further
down changes the lines of tokens only, and an instruction is read from its own tokens whatever
follows them. So two listings, one below the other, are assembled to what they are assembled to
alone, unless something follows a push that is cut off.
-/

namespace ScriptMachine

namespace Text

variable {c : Char} {text rest more : List Char}

/-! ## Lines -/

theorem eq_nil_of_lines_eq_nil (h : lines text = []) : text = [] := by
  fun_cases lines text with
  | case1 => rfl
  | case2 | case3 | case4 | case5 => simp_all [lines]

theorem lines_cons_of_ne (hc : c ≠ '\n') (hreturn : c = '\r' → rest.head? ≠ some '\n') :
    lines (c :: rest) =
      match lines rest with
      | [] => [[c]]
      | line :: others => (c :: line) :: others := by
  rw [lines]
  · exact if_neg hc
  · rintro more rfl rfl
    exact hreturn rfl rfl

/-- A line break after a text ends its last line, which may have ended before and may lose a
carriage return. -/
theorem exists_lines_append (text more : List Char) :
    ∃ front last, lines (text ++ '\n' :: more) = front ++ last :: lines more ∧
      front.length = text.count '\n' ∧
      (lines text = front ∧ last = [] ∨ lines text = front ++ [last] ∨
        lines text = front ++ [last ++ ['\r']]) := by
  fun_induction lines text with
  | case1 => exact ⟨[], [], by simp [lines], by simp, by simp⟩
  | case2 rest ih =>
    obtain ⟨front, last, hjoined, hlength, hlines⟩ := ih
    refine ⟨[] :: front, last, by simp [lines, hjoined], by simp [hlength], ?_⟩
    simpa using hlines
  | case3 rest _ ih =>
    obtain ⟨front, last, hjoined, hlength, hlines⟩ := ih
    refine ⟨[] :: front, last, by simp [lines, hjoined], by simp [hlength], ?_⟩
    simpa using hlines
  | case4 c rest _ hc hrest ih =>
    obtain rfl := eq_nil_of_lines_eq_nil hrest
    by_cases hreturn : c = '\r'
    · subst hreturn
      exact ⟨[], [], by simp [lines], by simp, by simp⟩
    · refine ⟨[], [c], ?_, by simp [hc], by simp⟩
      rw [List.singleton_append, lines_cons_of_ne hc fun heq ↦ absurd heq hreturn]
      simp [lines]
  | case5 c rest hnot hc line others hrest ih =>
    obtain ⟨front, last, hjoined, hlength, hlines⟩ := ih
    have hreturn : c = '\r' → (rest ++ '\n' :: more).head? ≠ some '\n' := by
      intro hc hhead
      cases rest with
      | nil => cases hrest
      | cons d rest =>
        cases hhead
        exact hnot rest hc rfl
    have hstep := lines_cons_of_ne hc hreturn
    rw [hjoined] at hstep
    rw [hrest] at hlines
    have hcount : (c :: rest).count '\n' = rest.count '\n' := List.count_cons_of_ne hc
    cases front with
    | nil =>
      refine ⟨[], c :: last, hstep, by rw [hcount, hlength], ?_⟩
      rcases hlines with ⟨hnil, -⟩ | hsame | hshort
      · cases hnil
      · cases hsame
        exact .inr (.inl rfl)
      · cases hshort
        exact .inr (.inr rfl)
    | cons first front =>
      refine ⟨(c :: first) :: front, last, hstep, by rw [hcount, ← hlength]; rfl, ?_⟩
      rcases hlines with ⟨hended, hlast⟩ | hsame | hshort
      · cases hended
        exact .inl ⟨rfl, hlast⟩
      · cases hsame
        exact .inr (.inl rfl)
      · cases hshort
        exact .inr (.inr rfl)

end Text

namespace Listing

variable {line column : Nat} {hashBefore inBrackets : Bool} {pending : Option Pending}
  {chars : List Char} {ts : List Token}

/-! ## Tokens further down -/

def Token.down (t : Token) (lines : Nat) : Token := ⟨t.text, t.position.down lines⟩

theorem lastToken_down (lines : Nat) (h : lastToken line hashBefore inBrackets pending = .ok ts) :
    lastToken (line + lines) hashBefore inBrackets pending = .ok (ts.map (·.down lines)) := by
  cases pending with
  | none =>
    cases h
    rfl
  | some p =>
    cases inBrackets with
    | true => cases h
    | false =>
      cases h
      rfl

theorem lineTokens_cons (line : Nat) (hashBefore inBrackets : Bool) (column : Nat)
    (pending : Option Pending) (c : Char) (rest : List Char) :
    lineTokens line hashBefore inBrackets column pending (c :: rest) =
      if isHash c && !inBrackets then lastToken line hashBefore inBrackets pending
      else if isSeparator c && !inBrackets then
        match pending with
        | none => lineTokens line hashBefore false (column + c.utf8Size) none rest
        | some p => do
          let tokens ← lineTokens line (hashBefore || p.reversed.any isHash) false
            (column + c.utf8Size) none rest
          return p.close line :: tokens
      else
        lineTokens line hashBefore (if c = '[' then true else if c = ']' then false else inBrackets)
          (column + c.utf8Size) (Pending.extend pending column c) rest := by
  cases pending <;> rfl

theorem lineTokens_down (lines : Nat)
    (h : lineTokens line hashBefore inBrackets column pending chars = .ok ts) :
    lineTokens (line + lines) hashBefore inBrackets column pending chars =
      .ok (ts.map (·.down lines)) := by
  induction chars generalizing hashBefore inBrackets column pending ts with
  | nil => exact lastToken_down lines h
  | cons c rest ih =>
    rw [lineTokens_cons] at h ⊢
    by_cases hhash : (isHash c && !inBrackets) = true
    · rw [if_pos hhash] at h ⊢
      exact lastToken_down lines h
    · rw [if_neg hhash] at h ⊢
      by_cases hseparator : (isSeparator c && !inBrackets) = true
      · rw [if_pos hseparator] at h ⊢
        cases pending with
        | none => exact ih h
        | some p =>
          obtain ⟨others, hothers, h⟩ := exists_of_bind_eq_ok h
          cases h
          simp only [ih hothers]
          rfl
      · rw [if_neg hseparator] at h ⊢
        exact ih h

theorem linesTokens_down (lines : Nat) {all : List (List Char)}
    (h : linesTokens line all = .ok ts) :
    linesTokens (line + lines) all = .ok (ts.map (·.down lines)) := by
  induction all generalizing line ts with
  | nil =>
    cases h
    rfl
  | cons chars rest ih =>
    obtain ⟨first, hfirst, h⟩ := exists_of_bind_eq_ok h
    obtain ⟨others, hothers, h⟩ := exists_of_bind_eq_ok h
    cases h
    have hbelow := ih hothers
    rw [Nat.add_right_comm] at hbelow
    rw [linesTokens, lineTokens_down lines hfirst, hbelow, List.map_append]
    rfl

theorem linesTokens_append_eq_ok_iff {upper lower : List (List Char)} :
    linesTokens line (upper ++ lower) = .ok ts ↔ ∃ above below, linesTokens line upper = .ok above ∧
      linesTokens (line + upper.length) lower = .ok below ∧ above ++ below = ts := by
  induction upper generalizing line ts with
  | nil =>
    constructor
    · exact fun h ↦ ⟨[], ts, rfl, h, rfl⟩
    · rintro ⟨above, below, habove, hbelow, rfl⟩
      cases habove
      exact hbelow
  | cons chars rest ih =>
    have hlength : line + (chars :: rest).length = line + 1 + rest.length := by
      rw [List.length_cons, Nat.add_right_comm, Nat.add_assoc]
    rw [hlength]
    constructor
    · intro h
      obtain ⟨first, hfirst, h⟩ := exists_of_bind_eq_ok h
      obtain ⟨others, hothers, h⟩ := exists_of_bind_eq_ok h
      cases h
      obtain ⟨above, below, habove, hbelow, rfl⟩ := ih.mp hothers
      refine ⟨first ++ above, below, ?_, hbelow, List.append_assoc _ _ _⟩
      rw [linesTokens, hfirst, habove]
      rfl
    · rintro ⟨above, below, habove, hbelow, rfl⟩
      obtain ⟨first, hfirst, h⟩ := exists_of_bind_eq_ok habove
      obtain ⟨others, hothers, h⟩ := exists_of_bind_eq_ok h
      cases h
      rw [List.cons_append, linesTokens, hfirst, ih.mpr ⟨others, below, hothers, hbelow, rfl⟩,
        List.append_assoc]
      rfl

/-! ## The end of a line -/

theorem Pending.chars_isWord {p : Pending} (h : IsWord (p.close line).text.toList) :
    IsWord p.chars := by
  rwa [close, String.toList_ofList] at h

theorem Pending.closeLast_eq_close {p : Pending} (h : IsWord (p.close line).text.toList) :
    p.closeLast line false = p.close line := by
  have hchars : (p.closeLast line false).text.toList = p.chars := (chars_isWord h).closeLast rfl
  have htext : (p.closeLast line false).text = (p.close line).text := by
    apply String.toList_injective
    rw [hchars, close, String.toList_ofList]
  exact congrArg (fun text ↦ (⟨text, ⟨line, p.column⟩⟩ : Token)) htext

theorem Pending.any_isHash_eq_false {p : Pending} (h : IsWord (p.close line).text.toList) :
    p.reversed.any isHash = false := by
  rw [List.any_eq_false]
  intro c hc
  have hmem : c ∈ p.chars := List.mem_reverse.mpr hc
  simp [((chars_isWord h).not_hash_or_newline hmem).1]

/-- Words are read from a line also without the carriage return that it may end in. -/
theorem lineTokens_of_return
    (h : lineTokens line false inBrackets column pending (chars ++ ['\r']) = .ok ts)
    (hwords : ∀ t ∈ ts, IsWord t.text.toList) :
    lineTokens line false inBrackets column pending chars = .ok ts := by
  induction chars generalizing inBrackets column pending ts with
  | nil =>
    cases inBrackets with
    | true => cases pending <;> cases h
    | false =>
      cases pending with
      | none => exact h
      | some p =>
        cases h
        have hlast : p.closeLast line false = p.close line :=
          p.closeLast_eq_close (hwords _ List.mem_cons_self)
        rw [← hlast]
        rfl
  | cons c rest ih =>
    rw [List.cons_append, lineTokens_cons] at h
    rw [lineTokens_cons]
    by_cases hhash : (isHash c && !inBrackets) = true
    · rw [if_pos hhash] at h ⊢
      exact h
    · rw [if_neg hhash] at h ⊢
      by_cases hseparator : (isSeparator c && !inBrackets) = true
      · rw [if_pos hseparator] at h ⊢
        cases pending with
        | none => exact ih h hwords
        | some p =>
          obtain ⟨others, hothers, h⟩ := exists_of_bind_eq_ok h
          cases h
          obtain ⟨hp, hwords⟩ := List.forall_mem_cons.mp hwords
          simp only [p.any_isHash_eq_false hp, Bool.or_false] at hothers ⊢
          rw [ih hothers hwords]
          rfl
      · rw [if_neg hseparator] at h ⊢
        exact ih h hwords

theorem linesTokens_singleton (line : Nat) (chars : List Char) :
    linesTokens line [chars] = lineTokens line false false 1 none chars := by
  rw [linesTokens, linesTokens]
  cases lineTokens line false false 1 none chars with
  | error fault => rfl
  | ok ts => exact congrArg Except.ok (List.append_nil ts)

theorem linesTokens_of_return {front : List (List Char)} {last : List Char}
    (h : linesTokens line (front ++ [last ++ ['\r']]) = .ok ts)
    (hwords : ∀ t ∈ ts, IsWord t.text.toList) : linesTokens line (front ++ [last]) = .ok ts := by
  obtain ⟨above, below, habove, hbelow, rfl⟩ := linesTokens_append_eq_ok_iff.mp h
  rw [linesTokens_singleton] at hbelow
  have hshort := lineTokens_of_return hbelow fun t ht ↦ hwords t (List.mem_append_right above ht)
  rw [← linesTokens_singleton] at hshort
  exact linesTokens_append_eq_ok_iff.mpr ⟨above, below, habove, hshort, rfl⟩

/-- The tokens of two listings, one below the other. -/
theorem tokens_append {source source' : String} {ts ts' : List Token} (h : tokens source = .ok ts)
    (hwords : ∀ t ∈ ts, IsWord t.text.toList) (h' : tokens source' = .ok ts') :
    tokens (source ++ "\n" ++ source') =
      .ok (ts ++ ts'.map (·.down (1 + source.toList.count '\n'))) := by
  obtain ⟨front, last, hjoined, hlength, hlines⟩ :=
    Text.exists_lines_append source.toList source'.toList
  have habove : linesTokens 1 (front ++ [last]) = .ok ts := by
    rw [tokens] at h
    rcases hlines with ⟨hended, rfl⟩ | hsame | hshort
    · rw [hended] at h
      exact linesTokens_append_eq_ok_iff.mpr ⟨ts, [], h, rfl, List.append_nil ts⟩
    · rwa [hsame] at h
    · rw [hshort] at h
      exact linesTokens_of_return h hwords
  have hbelow := linesTokens_down (1 + source.toList.count '\n') h'
  have hline : 1 + (front ++ [last]).length = 1 + (1 + source.toList.count '\n') := by
    rw [List.length_append, hlength, List.length_singleton]
    omega
  have htext : (source ++ "\n" ++ source').toList = source.toList ++ '\n' :: source'.toList := by
    simp
  rw [tokens, htext, hjoined, List.append_cons]
  apply linesTokens_append_eq_ok_iff.mpr
  rw [hline]
  exact ⟨ts, _, habove, hbelow, rfl⟩

/-! ## Two listings -/

/-- Two listings, one below the other, are assembled to what they are assembled to alone, one after
the other. But no token may follow a push that is cut off. -/
theorem assembly_is_compositional {edition : Edition} {source source' : String}
    {program program' : List Instruction} (h : assemble edition source = .ok program)
    (h' : assemble edition source' = .ok program') :
    (endsCut program = false ∨ program' = [] →
      assemble edition (source ++ "\n" ++ source') = .ok (program ++ program')) ∧
    (endsCut program = true → program' ≠ [] →
      ∃ t ts, tokens source' = .ok (t :: ts) ∧
        assemble edition (source ++ "\n" ++ source') =
          .error ⟨t.position.down (1 + source.toList.count '\n'), .trailingToken⟩) := by
  obtain ⟨ts, hts, h⟩ := exists_of_bind_eq_ok h
  obtain ⟨ts', hts', h'⟩ := exists_of_bind_eq_ok h'
  have habove := assembles_of_assembleTokens h
  have hbelow := assembles_of_assembleTokens h'
  have htexts : (ts'.map (·.down (1 + source.toList.count '\n'))).map Token.text =
      ts'.map Token.text := by
    rw [List.map_map]
    rfl
  have hmoved := hbelow.assembleTokens_of_texts htexts
  have hjoined := habove.assembleTokens_append rfl
    (ts'.map (·.down (1 + source.toList.count '\n')))
  rw [assemble, tokens_append hts habove.isWord hts', ok_bind, hjoined]
  refine ⟨?_, fun hends hne ↦ ?_⟩
  · rintro (hends | rfl)
    · rw [hends]
      exact congrArg (Except.map (program ++ ·)) hmoved
    · cases hbelow
      cases endsCut program <;> exact congrArg (Except.map (program ++ ·)) hmoved
  · cases hbelow with
    | nil => exact absurd rfl hne
    | @cons name taken rest =>
      refine ⟨name, taken ++ rest, hts', ?_⟩
      rw [hends]
      rfl

/-- The last line above loses a carriage return and keeps its token. The token below a push that is
cut off stands on the third line. -/
theorem assembly_is_compositional_return :
    let source := "OP_PUSHBYTES_1\n0x07\r"
    let source' := "# more\n  OP_ADD"
    let cut := "OP_PUSHBYTES_2 0x01[missing 1 byte]"
    assemble .y2026 (source ++ "\n" ++ source') = .ok [.push 1 [7], .operation 0x93] ∧
      ∃ t ts, tokens source' = .ok (t :: ts) ∧ t.position = ⟨2, 3⟩ ∧
        assemble .y2026 (cut ++ "\n" ++ source') = .error ⟨⟨3, 3⟩, .trailingToken⟩ := by
  intro source source' cut
  have h : assemble .y2026 source = .ok [.push 1 [7]] := by decide +kernel
  have h' : assemble .y2026 source' = .ok [.operation 0x93] := by decide +kernel
  have hcut : assemble .y2026 cut = .ok [.truncated 2 (.inData [1] 2)] := by decide +kernel
  have htokens : tokens source' = .ok [⟨"OP_ADD", ⟨2, 3⟩⟩] := by decide +kernel
  refine ⟨(assembly_is_compositional h h').1 (.inl rfl), ?_⟩
  obtain ⟨t, ts, hts, herror⟩ := (assembly_is_compositional hcut h').2 rfl (by simp)
  cases htokens.symm.trans hts
  refine ⟨_, _, htokens, rfl, ?_⟩
  rw [herror]
  decide +kernel

end Listing

end ScriptMachine
