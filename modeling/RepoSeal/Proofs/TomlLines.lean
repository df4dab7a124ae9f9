import RepoSeal.Toml.Document
import RepoSeal.Proofs.TomlTexts

/-!
# RepoSeal — lines are read as they were written

A document is written line by line: headers, pairs of a name and a value, and empty lines between
sections. A value may stand in a line if it is read up to the end of that line (`Reads`): a text between
quotes, a number that is not too great, or a truth value. Lines are read as statements whatever the lines
below them are (`ReadsLines`), so a document is put together from lemmas about its lines.
-/

namespace RepoSeal.Toml

/-! ## Runs of characters -/

section

variable {p : Char → Bool} {run back : List Char} (hall : ∀ c ∈ run, p c = true)

include hall

theorem takeWhile_run (hback : ∀ c ∈ back.head?, p c = false) : (run ++ back).takeWhile p = run := by
  rw [List.takeWhile_append_of_pos hall]
  cases back with
  | nil => simp
  | cons d back => simp [hback d rfl]

theorem dropWhile_run (hback : ∀ c ∈ back.head?, p c = false) :
    (run ++ back).dropWhile p = back := by
  rw [List.dropWhile_append_of_pos hall]
  cases back with
  | nil => rfl
  | cons d back => simp [hback d rfl]

/-- A run does not begin with a character of another kind. -/
theorem run_ne_cons (hne : run ≠ []) {d : Char} (hd : p d = false) (ds : List Char) :
    run ++ back ≠ d :: ds := by
  intro heq
  obtain ⟨c, cs, rfl⟩ := List.exists_cons_of_ne_nil hne
  have hc : p c = true := hall c List.mem_cons_self
  rw [(List.cons.inj heq).1, hd] at hc
  cases hc

theorem skipBlanks_run (hne : run ≠ []) (hblank : ∀ c, isBlank c = true → p c = false) :
    skipBlanks (run ++ back) = run ++ back := by
  obtain ⟨c, cs, rfl⟩ := List.exists_cons_of_ne_nil hne
  refine List.dropWhile_cons_of_neg fun hc => ?_
  have hpc : p c = true := hall c List.mem_cons_self
  rw [hblank c hc] at hpc
  cases hpc

end

theorem blank_cases {c : Char} (h : isBlank c = true) : c = ' ' ∨ c = '\t' := by
  simpa [isBlank] using h

theorem not_isWordChar_of_isBlank (c : Char) (h : isBlank c = true) : isWordChar c = false := by
  obtain rfl | rfl := blank_cases h
  · decide
  · decide

theorem not_isNameChar_of_isBlank (c : Char) (h : isBlank c = true) : isNameChar c = false := by
  obtain rfl | rfl := blank_cases h
  · decide
  · decide

/-! ## Numbers -/

theorem isDigit_of_mem_writeNumber {n : Nat} {c : Char} (hc : c ∈ writeNumber n) :
    c.isDigit = true :=
  Nat.isDigit_of_mem_toDigits (by decide) (by decide) hc

theorem digitRun_of_all {isDigit : Char → Bool} (hunderscore : isDigit '_' = false) :
    ∀ {cs : List Char}, cs ≠ [] → (∀ c ∈ cs, isDigit c = true) → digitRun isDigit cs = some cs
  | [], hne, _ => absurd rfl hne
  | [c], _, hall => by rw [digitRun, if_pos (hall c List.mem_cons_self)]
  | c :: d :: cs, _, hall => by
    obtain ⟨hc, hds⟩ := List.forall_mem_cons.1 hall
    have hd : d ≠ '_' := by
      rintro rfl
      exact absurd (hds '_' List.mem_cons_self) (by simp [hunderscore])
    rw [digitRun, if_pos hc, digitRun_of_all hunderscore (List.cons_ne_nil d cs) hds]
    · rfl
    · exact fun h => absurd h (List.cons_ne_nil d cs)
    · exact fun _ h => hd (List.cons.inj h).1

/-- Only zero is written with a zero in front. -/
theorem eq_zero_of_head?_writeNumber {n : Nat} (h : (writeNumber n).head? = some '0') : n = 0 := by
  unfold writeNumber at h
  induction n using Nat.strongRecOn with
  | ind n ih =>
    obtain hlt | hge := Nat.lt_or_ge n 10
    · rw [Nat.toDigits_of_lt_base hlt] at h
      exact Nat.digitChar_eq_zero.1 (Option.some.inj h)
    · -- The first digit is that of a tenth of the number, which is not zero.
      obtain ⟨d, ds, hds⟩ := List.exists_cons_of_ne_nil (Nat.toDigits_ne_nil (n := n / 10) (b := 10))
      rw [Nat.toDigits_of_base_le (by decide) hge, hds] at h
      have hfront : n / 10 = 0 := ih (n / 10) (by omega) (by rw [hds]; exact h)
      omega

theorem decimalRun_writeNumber (n : Nat) : decimalRun (writeNumber n) = some (writeNumber n) := by
  unfold decimalRun
  split
  · next heq =>
    have hzero : n = 0 := eq_zero_of_head?_writeNumber (by rw [heq]; rfl)
    rw [hzero, writeNumber] at heq
    simp at heq
  · exact digitRun_of_all (by decide) Nat.toDigits_ne_nil fun _ => isDigit_of_mem_writeNumber

theorem foldl_hexValue {cs : List Char} (hall : ∀ c ∈ cs, c.isDigit = true) (n : Nat) :
    cs.foldl (fun n c => n * 10 + hexValue c) n = Nat.ofDigitChars 10 cs n := by
  induction cs generalizing n with
  | nil => rfl
  | cons c cs ih =>
    obtain ⟨hc, hcs⟩ := List.forall_mem_cons.1 hall
    rw [List.foldl_cons, ih hcs, Nat.ofDigitChars_cons, hexValue, if_pos hc, Nat.mul_comm n 10]
    rfl

theorem ofDigits_writeNumber (n : Nat) : ofDigits 10 (writeNumber n) = n := by
  rw [ofDigits, foldl_hexValue fun _ => isDigit_of_mem_writeNumber, writeNumber,
    Nat.ofDigitChars_ten_toDigits]

/-- A number is not taken for one with a sign or in another base. -/
theorem integer?_writeNumber {n : Nat} (h : n ≤ maxInteger) :
    integer? (writeNumber n) = some (n : Int) := by
  have hother {c : Char} (hc : c.isDigit = false) : c ∉ writeNumber n := by
    intro hmem
    rw [isDigit_of_mem_writeNumber hmem] at hc
    cases hc
  unfold integer?
  split
  · next heq => exact absurd (by simp [heq]) (hother (c := 'x') (by decide))
  · next heq => exact absurd (by simp [heq]) (hother (c := 'o') (by decide))
  · next heq => exact absurd (by simp [heq]) (hother (c := 'b') (by decide))
  · next heq => exact absurd (by simp [heq]) (hother (c := '-') (by decide))
  · next heq => exact absurd (by simp [heq]) (hother (c := '+') (by decide))
  · rw [integer?.positive, decimalRun_writeNumber, Option.bind_some, ofDigits_writeNumber]
    exact if_pos h

/-! ## Values of a line -/

/-- That a value is read up to the end of its line. -/
def Reads (written : List Char) (v : Value) : Prop :=
  ∀ rest, readValue maxDepth (skipBlanks (written ++ '\n' :: rest)) = some (v, '\n' :: rest)

section

variable {word : List Char} {v : Value} (hword : ∀ c ∈ word, isWordChar c = true)
  (hv : ofWord? word = some v)

include hword hv

theorem readScalar_word (rest : List Char) :
    readScalar (word ++ '\n' :: rest) = some (v, '\n' :: rest) := by
  have hend : ∀ c ∈ ('\n' :: rest).head?, isWordChar c = false := by
    simp
    decide
  have htake := takeWhile_run hword hend
  have hdrop := dropWhile_run hword hend
  simp [readScalar, htake, hdrop, hv]

theorem reads_word (hne : word ≠ []) : Reads word v := by
  intro rest
  have hother {d : Char} {ds : List Char} (hd : isWordChar d = false) :
      word ++ '\n' :: rest ≠ d :: ds := run_ne_cons hword hne hd ds
  rw [skipBlanks_run hword hne not_isWordChar_of_isBlank, ← readScalar_word hword hv rest]
  unfold readValue
  split
  · next heq _ => exact absurd heq (hother (by decide))
  · next heq _ => exact absurd heq (hother (by decide))
  · next heq => exact absurd heq (hother (by decide))
  · next heq => exact absurd heq (hother (by decide))
  · rfl

end

theorem ofWord?_writeNumber {n : Nat} (h : n ≤ maxInteger) :
    ofWord? (writeNumber n) = some (.integer n) := by
  have hword {c : Char} {cs : List Char} (heq : writeNumber n = c :: cs) : c.isDigit = true :=
    isDigit_of_mem_writeNumber (by rw [heq]; exact List.mem_cons_self)
  rw [ofWord?, if_neg, if_neg, integer?_writeNumber h]
  · exact fun heq => absurd (hword heq) (by decide)
  · exact fun heq => absurd (hword heq) (by decide)

theorem reads_writeNumber {n : Nat} (h : n ≤ maxInteger) : Reads (writeNumber n) (.integer n) := by
  refine reads_word (fun c hc => ?_) (ofWord?_writeNumber h) Nat.toDigits_ne_nil
  simp [isWordChar, Char.isAlphanum, isDigit_of_mem_writeNumber hc]

theorem reads_writeFlag (b : Bool) : Reads (writeFlag b) (.boolean b) := by
  cases b with
  | false => exact reads_word (List.all_eq_true.1 (by decide)) rfl (by decide)
  | true => exact reads_word (List.all_eq_true.1 (by decide)) rfl (by decide)

theorem exists_cons_writeText (s : String) :
    ∃ cs, writeText s = '"' :: cs ∨ writeText s = '\'' :: cs := by
  unfold writeText
  dsimp only
  split
  · exact ⟨_, .inl rfl⟩
  · exact ⟨_, .inl rfl⟩
  · exact ⟨_, .inr rfl⟩
  · exact ⟨_, .inr rfl⟩

theorem reads_writeText (s : String) : Reads (writeText s) (.text s) := by
  intro rest
  have hread := readText_writeText s rest
  obtain ⟨cs, hcs | hcs⟩ := exists_cons_writeText s
  · rw [hcs] at hread ⊢
    show (readText ('"' :: cs ++ '\n' :: rest)).map _ = _
    rw [hread]
    rfl
  · rw [hcs] at hread ⊢
    show (readText ('\'' :: cs ++ '\n' :: rest)).map _ = _
    rw [hread]
    rfl

/-! ## Names -/

/-- Whether a name can be written without quotes. -/
def isPlainName (name : String) : Bool := !name.toList.isEmpty && name.toList.all isNameChar

section

variable {name : String} (hname : isPlainName name = true)

include hname

theorem toList_of_isPlainName : name.toList ≠ [] ∧ ∀ c ∈ name.toList, isNameChar c = true := by
  simpa [isPlainName] using hname

/-- A name does not begin like anything else on a line. -/
theorem name_ne_cons {d : Char} (hd : isNameChar d = false) (back ds : List Char) :
    name.toList ++ back ≠ d :: ds := by
  obtain ⟨hne, hall⟩ := toList_of_isPlainName hname
  exact run_ne_cons hall hne hd ds

theorem skipBlanks_name (back : List Char) :
    skipBlanks (name.toList ++ back) = name.toList ++ back := by
  obtain ⟨hne, hall⟩ := toList_of_isPlainName hname
  exact skipBlanks_run hall hne not_isNameChar_of_isBlank

variable {back : List Char} (hback : ∀ c ∈ back.head?, isNameChar c = false)

include hback

theorem readName_of_isPlainName : readName (name.toList ++ back) = some (name, back) := by
  obtain ⟨hne, hall⟩ := toList_of_isPlainName hname
  unfold readName
  split
  · next heq => exact absurd heq (name_ne_cons hname (by decide) back _)
  · next heq => exact absurd heq (name_ne_cons hname (by decide) back _)
  · rw [takeWhile_run hall hback, dropWhile_run hall hback]
    split
    · next heq => exact absurd heq hne
    · rw [String.ofList_toList]

theorem readKey_of_isPlainName (hdot : (skipBlanks back).head? ≠ some '.') :
    readKey (name.toList ++ back) = some (⟨[], name⟩, skipBlanks back) := by
  have hnames : readNames (name.toList ++ back) = some ([name], skipBlanks back) := by
    rw [readNames, skipBlanks_name hname, readName_of_isPlainName hname hback]
    dsimp only
    split
    · next heq =>
      rw [heq] at hdot
      exact absurd rfl hdot
    · rfl
  rw [readKey, hnames]
  rfl

end

/-! ## Lines -/

/-- No line ends where something else than a blank, a comment or a line break stands. -/
theorem endLine_eq_none {cs : List Char} (hblank : skipBlanks cs = cs) (hne : cs ≠ [])
    (hcomment : ∀ ds, cs ≠ '#' :: ds) (hbreak : ∀ ds, cs ≠ '\n' :: ds)
    (hreturn : ∀ ds, cs ≠ '\r' :: ds) : endLine cs = none := by
  have hskip : skipComment (skipBlanks cs) = cs := by
    rw [hblank]
    unfold skipComment
    split
    · next rest => exact absurd rfl (hcomment rest)
    · rfl
  unfold endLine
  rw [hskip]
  split
  · exact absurd rfl hne
  · next rest => exact absurd rfl (hbreak rest)
  · next rest => exact absurd rfl (hreturn _)
  · rfl

/-- That lines are read as statements, whatever lines stand below them. -/
def ReadsLines (cs : List Char) (ss : List Statement) : Prop :=
  ∀ more, readStatements (cs ++ more) = (readStatements more).map (ss ++ ·)

theorem ReadsLines.append {cs cs' : List Char} {ss ss' : List Statement} (h : ReadsLines cs ss)
    (h' : ReadsLines cs' ss') : ReadsLines (cs ++ cs') (ss ++ ss') := by
  intro more
  rw [List.append_assoc, h, h', Option.map_map]
  congr 1
  funext after
  exact (List.append_assoc ss ss' after).symm

theorem ReadsLines.blank {cs : List Char} {ss : List Statement} (h : ReadsLines cs ss) :
    ReadsLines ('\n' :: cs) ss := by
  intro more
  have hend : endLine ('\n' :: (cs ++ more)) = some (cs ++ more) := rfl
  rw [← h more, List.cons_append, readStatements, if_neg (List.cons_ne_nil _ _), hend]
  simp

theorem ReadsLines.readStatements_eq {cs : List Char} {ss : List Statement} (h : ReadsLines cs ss) :
    readStatements cs = some ss := by
  have hnil : readStatements [] = some [] := by rw [readStatements, if_pos rfl]
  have hall := h []
  rw [List.append_nil, hnil] at hall
  simpa using hall

/-- A line with a statement on it. -/
theorem readsLines_of_statement {line : List Char} {s : Statement} (hne : line ≠ [])
    (hend : ∀ more, endLine (line ++ more) = none)
    (hread : ∀ more, readStatement (skipBlanks (line ++ more)) = some (s, '\n' :: more)) :
    ReadsLines line [s] := by
  intro more
  have hlt : more.length < (line ++ more).length := by
    rw [List.length_append]
    have := List.length_pos_iff.2 hne
    omega
  have hsome : line ++ more ≠ [] := fun h => hne (List.append_eq_nil_iff.1 h).1
  rw [readStatements, if_neg hsome, hend, hread]
  show (if more.length < (line ++ more).length then _ else _) = _
  rw [if_pos hlt]
  rfl

theorem writePair_append (name : String) (written cs : List Char) :
    writePair name written ++ cs = name.toList ++ ' ' :: '=' :: ' ' :: (written ++ '\n' :: cs) := by
  simp [writePair]

section

variable {name : String} (hname : isPlainName name = true)

include hname

theorem readStatement_writeHeader (cs : List Char) :
    readStatement (writeHeader name ++ cs) = some (.table ⟨[], name⟩, '\n' :: cs) := by
  have hskip : skipBlanks (']' :: '\n' :: cs) = ']' :: '\n' :: cs := by
    simp [skipBlanks, isBlank]
  have hkey : readKey (name.toList ++ ']' :: '\n' :: cs) = some (⟨[], name⟩, ']' :: '\n' :: cs) := by
    rw [readKey_of_isPlainName hname, hskip]
    · simp
      decide
    · rw [hskip]
      simp
  have hopen : writeHeader name ++ cs = '[' :: (name.toList ++ ']' :: '\n' :: cs) := by
    simp [writeHeader]
  rw [hopen, readStatement, hkey]
  · rfl
  · exact fun rest => name_ne_cons hname (by decide) _ rest

theorem readPair_writePair {written : List Char} {v : Value} (h : Reads written v) (cs : List Char) :
    readPair (readValue maxDepth) (writePair name written ++ cs) =
      some ((⟨[], name⟩, v), '\n' :: cs) := by
  have hskip (cs : List Char) : skipBlanks (' ' :: '=' :: cs) = '=' :: cs := by
    simp [skipBlanks, isBlank]
  have hvalue : skipBlanks (' ' :: (written ++ '\n' :: cs)) = skipBlanks (written ++ '\n' :: cs) := by
    simp [skipBlanks, isBlank]
  rw [readPair, writePair_append, readKey_of_isPlainName hname, hskip]
  · show (readValue maxDepth (skipBlanks (' ' :: (written ++ '\n' :: cs)))).map _ = _
    rw [hvalue, h cs]
    rfl
  · simp
    decide
  · rw [hskip]
    simp

theorem readStatement_writePair {written : List Char} {v : Value} (h : Reads written v)
    (cs : List Char) :
    readStatement (writePair name written ++ cs) = some (.pair ⟨[], name⟩ v, '\n' :: cs) := by
  have hpair := readPair_writePair hname h cs
  rw [writePair_append] at hpair ⊢
  unfold readStatement
  split
  · next heq => exact absurd heq (name_ne_cons hname (by decide) _ _)
  · next heq => exact absurd heq (name_ne_cons hname (by decide) _ _)
  · rw [hpair]
    rfl

end

theorem readsLines_header (name : String) (hname : isPlainName name = true) :
    ReadsLines (writeHeader name) [.table ⟨[], name⟩] := by
  refine readsLines_of_statement (List.cons_ne_nil _ _) (fun more => ?_) fun more => ?_
  · exact endLine_eq_none rfl (by simp [writeHeader]) (by simp [writeHeader])
      (by simp [writeHeader]) (by simp [writeHeader])
  · exact readStatement_writeHeader hname more

theorem readsLines_pair (name : String) (hname : isPlainName name = true) {written : List Char}
    {v : Value} (h : Reads written v) :
    ReadsLines (writePair name written) [.pair ⟨[], name⟩ v] := by
  have hskip (more : List Char) :
      skipBlanks (writePair name written ++ more) = writePair name written ++ more := by
    rw [writePair_append]
    exact skipBlanks_name hname _
  have hother {d : Char} (hd : isNameChar d = false) (more ds : List Char) :
      writePair name written ++ more ≠ d :: ds := by
    rw [writePair_append]
    exact name_ne_cons hname hd _ ds
  have hne : writePair name written ≠ [] := by simp [writePair]
  refine readsLines_of_statement hne (fun more => ?_) fun more => ?_
  · exact endLine_eq_none (hskip more) (List.append_ne_nil_of_left_ne_nil hne more)
      (hother (by decide) more) (hother (by decide) more) (hother (by decide) more)
  · rw [hskip]
    exact readStatement_writePair hname h more

end RepoSeal.Toml
