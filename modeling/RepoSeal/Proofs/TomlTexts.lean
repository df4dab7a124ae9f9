import RepoSeal.Toml.Text

/-!
# RepoSeal — texts are read as they were written

The writer puts a text between one of four kinds of quotes, by what is in it. Between double quotes
each character is written by itself or by an escape (`Spelled`), and the readers undo that character
by character. Between single quotes nothing is escaped; there the writer has looked at the whole text
first, and what it has found keeps the quotes of the text from closing it early
(`not_quotes_isInfix`).

Behind a text comes the end of its line. A reader of several lines would otherwise take a quote there
for one of the text.
-/

namespace RepoSeal.Toml

/-! ## Characters between double quotes -/

/-- How a character of a text can be written between double quotes. -/
inductive Spelled (lines : Bool) (c : Char) : List Char → Prop
  | itself (hplain : isPrintable c = true ∨ lines = true ∧ c = '\n') (hquote : c ≠ '"')
      (hslash : c ≠ '\\') : Spelled lines c [c]
  /-- No blank or line break follows the backslash, for that would be left out of the text. -/
  | escaped {e : List Char} (hread : ∀ cs, readEscape (e ++ cs) = some (c, cs))
      (hline : ∀ cs, isLineBreak ((e ++ cs).dropWhile isBlank) = false) :
      Spelled lines c ('\\' :: e)

variable {lines : Bool} {c : Char} {w : List Char}

theorem Spelled.exists_cons (h : Spelled lines c w) : ∃ a w', w = a :: w' ∧ a ≠ '"' := by
  cases h with
  | itself _ hquote _ => exact ⟨c, [], rfl, hquote⟩
  | escaped _ _ => exact ⟨'\\', _, rfl, by decide⟩

theorem toNat_lt_of_not_isPrintable (h : ¬ isPrintable c = true) : c.toNat < 128 := by
  refine Nat.lt_of_not_le fun hge => h ?_
  have hblank : ' ' ≤ c := by
    rw [Char.le_def, UInt32.le_iff_toNat_le]
    show 32 ≤ c.toNat
    omega
  have hdelete : c ≠ '\x7f' := by
    rintro rfl
    exact absurd hge (by decide)
  simp [isPrintable, hblank, hdelete]

theorem ne_return (h : isPrintable c = true ∨ c = '\n') : c ≠ '\r' := by
  rintro rfl
  simp [isPrintable] at h

theorem ofCodePoint?_upperHexDigit : ∀ n < 128,
    ofCodePoint? ['0', '0', upperHexDigit (n / 16), upperHexDigit (n % 16)] = some (Char.ofNat n) := by
  decide

theorem spelled_writeChar (lines : Bool) (c : Char) : Spelled lines c (writeChar lines c) := by
  unfold writeChar
  split
  · exact .escaped (fun _ => rfl) fun _ => rfl
  · exact .escaped (fun _ => rfl) fun _ => rfl
  · split
    · exact .itself (.inr ⟨‹_›, rfl⟩) (by decide) (by decide)
    · exact .escaped (fun _ => rfl) fun _ => rfl
  · exact .escaped (fun _ => rfl) fun _ => rfl
  · exact .escaped (fun _ => rfl) fun _ => rfl
  · exact .escaped (fun _ => rfl) fun _ => rfl
  · exact .escaped (fun _ => rfl) fun _ => rfl
  · rename_i hquote hslash
    split
    · exact .itself (.inl ‹_›) hquote hslash
    · rename_i hcontrol
      have hcode := ofCodePoint?_upperHexDigit c.toNat (toNat_lt_of_not_isPrintable hcontrol)
      rw [Char.ofNat_toNat] at hcode
      refine .escaped (fun cs => ?_) fun _ => rfl
      simp [readEscape, hcode]

/-! ## What closes a text of several lines -/

theorem closing_quotes {quote : Char} (h : quote ≠ '\n') (rest : List Char) :
    closing quote (quote :: quote :: quote :: '\n' :: rest) = some ([], '\n' :: rest) := by
  cases rest with
  | nil => simp [closing, h.symm]
  | cons d rest => simp [closing, h.symm]

theorem closing_eq_none {quote : Char} {cs : List Char} (h : ¬ [quote, quote, quote] <+: cs) :
    closing quote cs = none := by
  unfold closing
  split
  · rename_i a b c rest
    refine if_neg ?_
    rintro ⟨rfl, rfl, rfl⟩
    exact h ⟨rest, rfl⟩
  · rfl

/-! ## Texts between double quotes -/

theorem readBasic_spelled (h : Spelled false c w) (cs : List Char) :
    readBasic (w ++ cs) = consText c (readBasic cs) := by
  cases h with
  | itself hplain hquote hslash =>
    obtain hprint | ⟨hfalse, -⟩ := hplain
    · rw [List.singleton_append, readBasic, if_pos hprint]
      · exact hquote
      · exact hslash
    · cases hfalse
  | escaped hread _ =>
    rw [List.cons_append, readBasic, hread]

theorem readBasic_flatMap (cs rest : List Char) :
    readBasic (cs.flatMap (writeChar false) ++ '"' :: rest) = some (cs, rest) := by
  induction cs with
  | nil => rw [List.flatMap_nil, List.nil_append, readBasic]
  | cons c cs ih =>
    rw [List.flatMap_cons, List.append_assoc, readBasic_spelled (spelled_writeChar false c), ih]
    rfl

theorem readBasicLines_spelled (h : Spelled true c w) (cs : List Char) :
    readBasicLines false (w ++ cs) = consText c (readBasicLines false cs) := by
  have hopen : closing '"' (w ++ cs) = none := by
    obtain ⟨a, w', rfl, ha⟩ := h.exists_cons
    refine closing_eq_none fun hquotes => ha ?_
    exact (List.cons_prefix_cons.1 hquotes).1.symm
  rw [readBasicLines.eq_def, hopen]
  cases h with
  | itself hplain hquote _ =>
    have hreturn := ne_return (hplain.imp_right And.right)
    obtain hprint | ⟨-, rfl⟩ := hplain
    · simp [hreturn, hprint]
    · simp
  | escaped hread hline =>
    simp only [List.cons_append, hline, Bool.false_eq_true, if_false]
    split
    · next hsome =>
      rw [hread] at hsome
      cases hsome
      rfl
    · next hnone =>
      rw [hread] at hnone
      cases hnone

theorem readBasicLines_flatMap (cs rest : List Char) :
    readBasicLines false (cs.flatMap (writeChar true) ++ '"' :: '"' :: '"' :: '\n' :: rest) =
      some (cs, '\n' :: rest) := by
  induction cs with
  | nil => rw [List.flatMap_nil, List.nil_append, readBasicLines.eq_def, closing_quotes (by decide)]
  | cons c cs ih =>
    rw [List.flatMap_cons, List.append_assoc, readBasicLines_spelled (spelled_writeChar true c), ih]
    rfl

/-! ## Texts between single quotes -/

/-- A text in which no three quotes are counted has none. -/
theorem not_quotes_isInfix {cs : List Char} (h : longestQuoteRun cs < 3) :
    ¬ ['\'', '\'', '\''] <:+: cs := by
  rintro ⟨front, back, rfl⟩
  refine Nat.not_le_of_lt h ?_
  unfold longestQuoteRun
  rw [List.foldl_append, List.foldl_append]
  -- Three quotes in a row are counted, and the greatest count only grows.
  refine List.foldlRecOn back _ (motive := fun s : Nat × Nat => 3 ≤ s.2) ?_ ?_
  · simp only [List.foldl_cons, List.foldl_nil, reduceIte]
    omega
  · intro s hs c _
    dsimp only
    split
    · exact Nat.le_trans hs (Nat.le_max_left ..)
    · exact hs

theorem readLiteral_append {cs : List Char} (hplain : ∀ c ∈ cs, isPrintable c = true)
    (hquote : '\'' ∉ cs) (rest : List Char) :
    readLiteral (cs ++ '\'' :: rest) = some (cs, rest) := by
  induction cs with
  | nil => rfl
  | cons c cs ih =>
    obtain ⟨hc, hcs⟩ := not_or.1 (mt List.mem_cons.2 hquote)
    obtain ⟨hpc, hpcs⟩ := List.forall_mem_cons.1 hplain
    rw [List.cons_append, readLiteral, if_pos hpc, ih hpcs hcs]
    · rfl
    · exact Ne.symm hc

/-- What stands behind a text cannot close it before its end, unless the text ends in a quote. -/
theorem not_quotes_isPrefix {cs : List Char} (hne : cs ≠ [])
    (hquotes : ¬ ['\'', '\'', '\''] <:+: cs) (hlast : cs.getLast? ≠ some '\'') (back : List Char) :
    ¬ ['\'', '\'', '\''] <+: cs ++ back := by
  intro h
  have hcs : cs <+: cs ++ back := List.prefix_append cs back
  obtain hlong | hshort := Nat.le_total 3 cs.length
  · exact hquotes (List.prefix_of_prefix_length_le h hcs hlong).isInfix
  · have hall : cs <+: ['\'', '\'', '\''] := List.prefix_of_prefix_length_le hcs h hshort
    have hmem : cs.getLast hne ∈ ['\'', '\'', '\''] := hall.subset (List.getLast_mem hne)
    have heq : cs.getLast hne = '\'' := by simpa using hmem
    exact hlast (by rw [List.getLast?_eq_some_getLast hne, heq])

theorem readLiteralLines_append {cs : List Char}
    (hplain : ∀ c ∈ cs, isPrintable c = true ∨ c = '\n') (hquotes : ¬ ['\'', '\'', '\''] <:+: cs)
    (hlast : cs.getLast? ≠ some '\'') (rest : List Char) :
    readLiteralLines (cs ++ '\'' :: '\'' :: '\'' :: '\n' :: rest) = some (cs, '\n' :: rest) := by
  induction cs with
  | nil => rw [List.nil_append, readLiteralLines.eq_def, closing_quotes (by decide)]
  | cons c cs ih =>
    obtain ⟨hpc, hpcs⟩ := List.forall_mem_cons.1 hplain
    have hopen := closing_eq_none
      (not_quotes_isPrefix (List.cons_ne_nil c cs) hquotes hlast ('\'' :: '\'' :: '\'' :: '\n' :: rest))
    have hlater : ¬ ['\'', '\'', '\''] <:+: cs := by
      intro h
      exact hquotes (h.trans (List.suffix_cons c cs).isInfix)
    have hend : cs.getLast? ≠ some '\'' := by
      intro h
      rw [List.getLast?_cons, h] at hlast
      exact hlast rfl
    have hreturn := ne_return hpc
    rw [readLiteralLines.eq_def, hopen]
    simp [hreturn, hpc, ih hpcs hlater hend]
    rfl

/-! ## Any text -/

/-- What the writer has found out about a text that it puts between single quotes. -/
theorem literal_of_prefersLiteral {cs : List Char} (h : prefersLiteral cs = true) :
    cs ≠ [] ∧ (∀ c ∈ cs, isPrintable c = true ∨ c = '\n') ∧ longestQuoteRun cs < 3 ∧
      cs.getLast? ≠ some '\'' := by
  simp only [prefersLiteral, Bool.and_eq_true, decide_eq_true_eq, List.all_eq_true, Bool.or_eq_true,
    beq_iff_eq, bne_iff_ne] at h
  obtain ⟨⟨⟨hmark, hplain⟩, hrun⟩, hlast⟩ := h
  refine ⟨?_, hplain, hrun, hlast⟩
  rintro rfl
  simp at hmark

theorem readText_basic (cs rest : List Char) :
    readText ('"' :: cs.flatMap (writeChar false) ++ ['"'] ++ '\n' :: rest) =
      some (String.ofList cs, '\n' :: rest) := by
  have hread := readBasic_flatMap cs ('\n' :: rest)
  have heq : '"' :: cs.flatMap (writeChar false) ++ ['"'] ++ '\n' :: rest =
      '"' :: (cs.flatMap (writeChar false) ++ '"' :: '\n' :: rest) := by simp
  rw [heq, readText, hread]
  · rfl
  -- The text does not begin with three quotes, for no character is written as a quote alone.
  · intro more hquotes
    cases cs with
    | nil => simp at hquotes
    | cons c cs =>
      obtain ⟨a, w, hw, ha⟩ := (spelled_writeChar false c).exists_cons
      rw [List.flatMap_cons, hw] at hquotes
      exact ha (List.cons.inj hquotes).1

theorem readText_basicLines (cs rest : List Char) :
    readText (['"', '"', '"', '\n'] ++ cs.flatMap (writeChar true) ++ ['"', '"', '"'] ++ '\n' :: rest) =
      some (String.ofList cs, '\n' :: rest) := by
  simp only [List.cons_append, List.nil_append, List.append_assoc, readText, afterOpening,
    readBasicLines_flatMap]
  rfl

theorem readText_literal {cs : List Char} (hne : cs ≠ []) (hplain : ∀ c ∈ cs, isPrintable c = true)
    (hquote : '\'' ∉ cs) (rest : List Char) :
    readText ('\'' :: cs ++ ['\''] ++ '\n' :: rest) = some (String.ofList cs, '\n' :: rest) := by
  have hread := readLiteral_append hplain hquote ('\n' :: rest)
  have heq : '\'' :: cs ++ ['\''] ++ '\n' :: rest = '\'' :: (cs ++ '\'' :: '\n' :: rest) := by simp
  rw [heq, readText, hread]
  · rfl
  · intro more hquotes
    cases cs with
    | nil => exact hne rfl
    | cons c cs => exact hquote ((List.cons.inj hquotes).1 ▸ List.mem_cons_self)

theorem afterOpening_cons {c : Char} (hbreak : c ≠ '\n') (hreturn : c ≠ '\r') (cs : List Char) :
    afterOpening (c :: cs) = c :: cs := by
  unfold afterOpening
  split
  · next heq => exact absurd (List.cons.inj heq).1 hbreak
  · next heq => exact absurd (List.cons.inj heq).1 hreturn
  · rfl

theorem readText_literalLines {cs : List Char} (hplain : ∀ c ∈ cs, isPrintable c = true ∨ c = '\n')
    (hrun : longestQuoteRun cs < 3) (hlast : cs.getLast? ≠ some '\'') (rest : List Char) :
    readText (['\'', '\'', '\''] ++ (if cs.contains '\n' then ['\n'] else []) ++ cs ++
      ['\'', '\'', '\''] ++ '\n' :: rest) = some (String.ofList cs, '\n' :: rest) := by
  have hread := readLiteralLines_append hplain (not_quotes_isInfix hrun) hlast rest
  have hopening : afterOpening ((if cs.contains '\n' then ['\n'] else []) ++
      (cs ++ '\'' :: '\'' :: '\'' :: '\n' :: rest)) =
        cs ++ '\'' :: '\'' :: '\'' :: '\n' :: rest := by
    split
    · rfl
    · next hline =>
      rw [List.contains_iff_mem] at hline
      cases cs with
      | nil => rfl
      | cons c cs =>
        have hbreak : c ≠ '\n' := fun heq => hline (heq ▸ List.mem_cons_self)
        exact afterOpening_cons hbreak (ne_return (hplain c List.mem_cons_self)) _
  simp only [List.cons_append, List.nil_append, List.append_assoc, readText, hopening, hread]
  rfl

theorem readText_writeText (s : String) (rest : List Char) :
    readText (writeText s ++ '\n' :: rest) = some (s, '\n' :: rest) := by
  obtain ⟨cs, rfl⟩ : ∃ cs, s = String.ofList cs := ⟨s.toList, String.ofList_toList.symm⟩
  simp only [writeText, styleOf, String.toList_ofList]
  by_cases hliteral : prefersLiteral cs = true
  · obtain ⟨hne, hplain, hrun, hlast⟩ := literal_of_prefersLiteral hliteral
    rw [if_pos hliteral]
    by_cases hlong : (cs.contains '\n' || cs.contains '\'') = true
    · rw [if_pos hlong]
      exact readText_literalLines hplain hrun hlast rest
    · rw [if_neg hlong]
      simp only [List.contains_iff_mem, Bool.or_eq_true, not_or] at hlong
      refine readText_literal hne (fun c hc => ?_) hlong.2 rest
      exact (hplain c hc).resolve_right fun heq => hlong.1 (heq ▸ hc)
  · rw [if_neg hliteral]
    by_cases hlong : cs.contains '\n' = true
    · rw [if_pos hlong]
      exact readText_basicLines cs rest
    · rw [if_neg hlong]
      exact readText_basic cs rest

end RepoSeal.Toml
