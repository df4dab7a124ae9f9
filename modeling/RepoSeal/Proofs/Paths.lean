import RepoSeal.Tree.Files
import Mathlib.Data.List.Induction
import Mathlib.Data.String.Basic

/-!
# RepoSeal — the parts of paths

A path below another one has that path's parts and one more (`parts_join`), and its parent has one
less (`parts_parent`). A path is refused for its text alone if it holds a NUL, if it is too long or if
one of its parts is (`Fits`); the parent of a path that fits does so as well.
-/

namespace RepoSeal

namespace Path

/-! ## Cutting at slashes -/

theorem splitSlash_slash (cs : List Char) : splitSlash ('/' :: cs) = [] :: splitSlash cs := by
  rw [splitSlash]

theorem splitSlash_ne_nil (cs : List Char) : splitSlash cs ≠ [] := by
  induction cs with
  | nil => simp [splitSlash]
  | cons c cs ih =>
    unfold splitSlash
    split <;> simp

theorem splitSlash_cons {c : Char} {cs : List Char} {piece : List Char} {pieces : List (List Char)}
    (hc : c ≠ '/') (h : splitSlash cs = piece :: pieces) :
    splitSlash (c :: cs) = (c :: piece) :: pieces := by
  unfold splitSlash
  rw [h]
  split
  · exact absurd rfl hc
  · rename_i heq
    cases heq
    rfl
  · rename_i heq
    cases heq

theorem splitSlash_append_slash (a b : List Char) :
    splitSlash (a ++ '/' :: b) = splitSlash a ++ splitSlash b := by
  induction a with
  | nil => exact splitSlash_slash b
  | cons c a ih =>
    by_cases hc : c = '/'
    · rw [hc, List.cons_append, splitSlash_slash, splitSlash_slash, ih, List.cons_append]
    · obtain ⟨piece, pieces, ha⟩ := List.exists_cons_of_ne_nil (splitSlash_ne_nil a)
      rw [ha, List.cons_append] at ih
      rw [List.cons_append, splitSlash_cons hc ih, splitSlash_cons hc ha, List.cons_append]

theorem splitSlash_of_no_slash {cs : List Char} (h : '/' ∉ cs) : splitSlash cs = [cs] := by
  induction cs with
  | nil => rfl
  | cons c cs ih =>
    rw [List.mem_cons, not_or] at h
    exact splitSlash_cons (Ne.symm h.1) (ih h.2)

theorem intercalate_splitSlash (cs : List Char) : ['/'].intercalate (splitSlash cs) = cs := by
  induction cs with
  | nil => rfl
  | cons c cs ih =>
    obtain ⟨piece, pieces, hcs⟩ := List.exists_cons_of_ne_nil (splitSlash_ne_nil cs)
    by_cases hc : c = '/'
    · rw [hc, splitSlash_slash, hcs, List.intercalate_cons_cons, ← hcs, ih]
      rfl
    · rw [splitSlash_cons hc hcs]
      rw [hcs] at ih
      cases pieces with
      | nil =>
        rw [List.intercalate_singleton] at ih ⊢
        rw [ih]
      | cons next rest =>
        rw [List.intercalate_cons_cons] at ih ⊢
        rw [← ih]
        rfl

theorem no_slash_of_mem_splitSlash {cs piece : List Char} (h : piece ∈ splitSlash cs) :
    '/' ∉ piece := by
  induction cs generalizing piece with
  | nil =>
    cases List.mem_singleton.mp h
    exact List.not_mem_nil
  | cons c cs ih =>
    by_cases hc : c = '/'
    · rw [hc, splitSlash_slash] at h
      rcases List.mem_cons.mp h with rfl | h
      · exact List.not_mem_nil
      · exact ih h
    · obtain ⟨first, pieces, hcs⟩ := List.exists_cons_of_ne_nil (splitSlash_ne_nil cs)
      rw [splitSlash_cons hc hcs] at h
      rw [hcs] at ih
      rcases List.mem_cons.mp h with rfl | h
      · rw [List.mem_cons, not_or]
        exact ⟨Ne.symm hc, ih List.mem_cons_self⟩
      · exact ih (List.mem_cons_of_mem _ h)

/-! ## Parts -/

/-- A text that is one part of a path. -/
structure IsPart (name : String) : Prop where
  ne_empty : name ≠ ""
  no_slash : '/' ∉ name.toList
  ne_dot : name ≠ "."

theorem parts_append_slash (a b : String) :
    (Path.mk (a ++ "/" ++ b)).parts = (Path.mk a).parts ++ (Path.mk b).parts := by
  have htext : (a ++ "/" ++ b).toList = a.toList ++ '/' :: b.toList := by
    rw [String.toList_append, String.toList_append, List.append_assoc]
    rfl
  rw [parts, htext, splitSlash_append_slash, List.filterMap_append]
  rfl

theorem parts_empty : (Path.mk "").parts = [] := rfl

theorem parts_of_isPart {name : String} (h : IsPart name) : (Path.mk name).parts = [name] := by
  have hempty : name.toList ≠ [] := fun hnil => h.ne_empty (String.toList_eq_nil_iff.mp hnil)
  have hdot : name.toList ≠ ['.'] := fun hdot => h.ne_dot (String.toList_inj.mp hdot)
  rw [parts, splitSlash_of_no_slash h.no_slash]
  simp [hempty, hdot]

theorem isPart_of_mem_parts {p : Path} {name : String} (h : name ∈ p.parts) : IsPart name := by
  obtain ⟨cs, hcs, hname⟩ := List.mem_filterMap.mp h
  split at hname
  · cases hname
  · rename_i hkeep
    cases hname
    simp only [Bool.or_eq_true, List.isEmpty_iff, beq_iff_eq, not_or] at hkeep
    refine ⟨fun hempty => hkeep.1 ?_, ?_, fun hdot => hkeep.2 ?_⟩
    · rw [← String.toList_ofList (l := cs), hempty]
      rfl
    · rw [String.toList_ofList]
      exact no_slash_of_mem_splitSlash hcs
    · rw [← String.toList_ofList (l := cs), hdot]
      rfl

/-- Nothing stands behind the last piece if that names something. -/
theorem ending_of_concat {p : Path} {pieces : List (List Char)} {piece : List Char}
    (h : splitSlash p.text.toList = pieces ++ [piece]) :
    p.ending = [] ↔ isNamed piece = true := by
  rw [ending, h, List.reverse_concat, isNamed, Bool.not_eq_true', Bool.or_eq_false_iff,
    List.isEmpty_eq_false_iff, beq_eq_false_iff_ne]
  split
  · rename_i heq
    rw [(List.cons.inj heq).1]
    split <;> simp
  · rename_i heq
    rw [(List.cons.inj heq).1]
    simp
  · rename_i hempty hdot
    refine ⟨fun _ => ⟨fun h => hempty _ (by rw [h]), fun h => hdot _ (by rw [h])⟩, fun _ => rfl⟩

theorem isNamed_of_isPart {name : String} (h : IsPart name) : isNamed name.toList = true := by
  have hempty : name.toList ≠ [] := fun hnil => h.ne_empty (String.toList_eq_nil_iff.mp hnil)
  have hdot : name.toList ≠ ['.'] := fun hdot => h.ne_dot (String.toList_inj.mp hdot)
  simp [isNamed, hempty, hdot]

/-- Nothing stands behind a part at the end of a path. -/
theorem ending_of_isPart {a name : String} (h : IsPart name) :
    (Path.mk (a ++ "/" ++ name)).ending = [] ∧ (Path.mk name).ending = [] := by
  have hnamed := isNamed_of_isPart h
  constructor
  · have htext : (a ++ "/" ++ name).toList = a.toList ++ '/' :: name.toList := by
      rw [String.toList_append, String.toList_append, List.append_assoc]
      rfl
    have hpieces : splitSlash (a ++ "/" ++ name).toList = splitSlash a.toList ++ [name.toList] := by
      rw [htext, splitSlash_append_slash, splitSlash_of_no_slash h.no_slash]
    exact (ending_of_concat hpieces).mpr hnamed
  · have hpieces : splitSlash name.toList = [] ++ [name.toList] := splitSlash_of_no_slash h.no_slash
    exact (ending_of_concat hpieces).mpr hnamed

theorem not_isAbsolute_of_isPart {name : String} (h : IsPart name) :
    (Path.mk name).isAbsolute = false := by
  rw [isAbsolute, beq_eq_false_iff_ne]
  intro hhead
  exact h.no_slash (List.mem_of_head? hhead)

/-! ## Joining -/

/-- The text of a path below another one. -/
theorem join_cases (p : Path) {name : String} (h : IsPart name) :
    (p.text = "" ∧ (p / name).text = name) ∨
      ∃ a, (p / name).text = a ++ "/" ++ name ∧ (p.text = a ∨ p.text = a ++ "/") ∧ p.text ≠ "" := by
  show (p.text = "" ∧ (p.join name).text = name) ∨
    ∃ a, (p.join name).text = a ++ "/" ++ name ∧ (p.text = a ∨ p.text = a ++ "/") ∧ p.text ≠ ""
  unfold join
  rw [not_isAbsolute_of_isPart h]
  by_cases hempty : p.text = ""
  · left
    simp [hempty]
  right
  have hisEmpty : p.text.isEmpty = false := by simpa using hempty
  by_cases hlast : p.text.toList.getLast? = some '/'
  · obtain ⟨front, hfront⟩ := List.getLast?_eq_some_iff.mp hlast
    have htext : p.text = String.ofList front ++ "/" := by
      rw [← String.toList_inj, String.toList_append, String.toList_ofList, hfront]
      rfl
    refine ⟨String.ofList front, ?_, .inr htext, hempty⟩
    simp [hlast, ← htext]
  · refine ⟨p.text, ?_, .inl rfl, hempty⟩
    simp [hlast, hisEmpty]

@[simp] theorem parts_join (p : Path) {name : String} (h : IsPart name) :
    (p / name).parts = p.parts ++ [name] := by
  obtain ⟨text⟩ := p
  rcases join_cases ⟨text⟩ h with ⟨rfl, hjoin⟩ | ⟨a, hjoin, hp | hp, -⟩
  · rw [show (Path.mk "" / name) = Path.mk name from congrArg Path.mk hjoin, parts_of_isPart h]
    rfl
  all_goals
    rw [show (Path.mk text / name) = Path.mk _ from congrArg Path.mk hjoin, parts_append_slash,
      parts_of_isPart h]
  · rw [← hp]
  · have hdir : text = a ++ "/" ++ "" := by rw [String.append_empty]; exact hp
    rw [hdir, parts_append_slash, parts_empty, List.append_nil]

@[simp] theorem ending_join (p : Path) {name : String} (h : IsPart name) :
    (p / name).ending = [] := by
  rcases join_cases p h with ⟨-, hjoin⟩ | ⟨a, hjoin, -, -⟩
  · rw [show (p / name) = Path.mk name from congrArg Path.mk hjoin]
    exact (ending_of_isPart (a := "") h).2
  · rw [show (p / name) = Path.mk _ from congrArg Path.mk hjoin]
    exact (ending_of_isPart h).1

theorem text_prefix_join (p : Path) {name : String} (h : IsPart name) :
    p.text.toList <+: (p / name).text.toList := by
  rcases join_cases p h with ⟨hempty, -⟩ | ⟨a, hjoin, hp | hp, -⟩
  · rw [hempty]
    exact List.nil_prefix
  · rw [hjoin, hp, String.append_assoc, String.toList_append]
    exact List.prefix_append _ _
  · rw [hjoin, hp, String.toList_append (s := a ++ "/")]
    exact List.prefix_append _ _

@[simp] theorem isAbsolute_join (p : Path) {name : String} (h : IsPart name) :
    (p / name).isAbsolute = p.isAbsolute := by
  rcases join_cases p h with ⟨hempty, hjoin⟩ | ⟨a, -, -, hne⟩
  · rw [show (p / name) = Path.mk name from congrArg Path.mk hjoin, not_isAbsolute_of_isPart h,
      isAbsolute, hempty]
    rfl
  · obtain ⟨rest, hrest⟩ := text_prefix_join p h
    rw [isAbsolute, isAbsolute, ← hrest, List.head?_append_of_ne_nil]
    exact fun hnil => hne (String.toList_eq_nil_iff.mp hnil)

/-! ## The path before the last part -/

theorem upToNamed_concat (pieces : List (List Char)) (piece : List Char) :
    upToNamed (pieces ++ [piece]) =
      if isNamed piece then pieces ++ [piece] else upToNamed pieces := by
  rw [upToNamed, List.reverse_concat, List.dropWhile_cons]
  by_cases hnamed : isNamed piece = true
  · rw [hnamed, if_pos rfl, if_neg (by decide), List.reverse_cons, List.reverse_reverse]
  · rw [if_neg hnamed, if_pos (by simpa using hnamed), upToNamed]

theorem isPrefix_upToNamed (pieces : List (List Char)) : upToNamed pieces <+: pieces := by
  induction pieces using List.reverseRecOn with
  | nil => exact List.nil_prefix
  | append_singleton pieces piece ih =>
    rw [upToNamed_concat]
    split
    · exact List.prefix_rfl
    · exact ih.trans (List.prefix_append _ _)

theorem isNamed_of_upToNamed {pieces front : List (List Char)} {piece : List Char}
    (h : upToNamed pieces = front ++ [piece]) : isNamed piece = true := by
  induction pieces using List.reverseRecOn with
  | nil => exact absurd h.symm (List.append_ne_nil_of_right_ne_nil _ (List.cons_ne_nil _ _))
  | append_singleton pieces last ih =>
    rw [upToNamed_concat] at h
    split at h
    · rename_i hnamed
      cases (List.append_inj' h rfl).2
      exact hnamed
    · exact ih h

/-- What the pieces name. -/
def namedBy (pieces : List (List Char)) : List String :=
  pieces.filterMap fun cs => if cs.isEmpty || cs == ['.'] then none else some (String.ofList cs)

theorem parts_eq_namedBy (p : Path) : p.parts = namedBy (splitSlash p.text.toList) := rfl

theorem namedBy_concat (pieces : List (List Char)) (piece : List Char) :
    namedBy (pieces ++ [piece]) =
      namedBy pieces ++ if isNamed piece then [String.ofList piece] else [] := by
  rw [namedBy, List.filterMap_append, List.filterMap_cons, isNamed]
  cases piece.isEmpty || piece == ['.'] <;> rfl

theorem namedBy_upToNamed (pieces : List (List Char)) :
    namedBy (upToNamed pieces) = namedBy pieces := by
  induction pieces using List.reverseRecOn with
  | nil => rfl
  | append_singleton pieces piece ih =>
    rw [upToNamed_concat]
    split
    · rfl
    · rename_i hnot
      rw [ih, namedBy_concat, if_neg hnot, List.append_nil]

theorem upToNamed_of_ending {p : Path} (h : p.ending = []) :
    upToNamed (splitSlash p.text.toList) = splitSlash p.text.toList := by
  obtain ⟨pieces, piece, hpieces⟩ :=
    (List.eq_nil_or_concat' _).resolve_left (splitSlash_ne_nil p.text.toList)
  rw [hpieces, upToNamed_concat, if_pos ((ending_of_concat hpieces).mp h)]

theorem splitSlash_intercalate {pieces : List (List Char)} (hne : pieces ≠ [])
    (h : ∀ piece ∈ pieces, '/' ∉ piece) : splitSlash (['/'].intercalate pieces) = pieces := by
  induction pieces with
  | nil => exact absurd rfl hne
  | cons piece pieces ih =>
    obtain ⟨hpiece, hpieces⟩ := List.forall_mem_cons.mp h
    cases pieces with
    | nil =>
      rw [List.intercalate_singleton]
      exact splitSlash_of_no_slash hpiece
    | cons next rest =>
      rw [List.intercalate_cons_cons, List.append_assoc, List.singleton_append,
        splitSlash_append_slash, splitSlash_of_no_slash hpiece, ih (List.cons_ne_nil _ _) hpieces]
      rfl

theorem isPrefix_intercalate {α : Type} (sep : List α) (as bs : List (List α)) :
    sep.intercalate as <+: sep.intercalate (as ++ bs) := by
  induction as with
  | nil => exact List.nil_prefix
  | cons a as ih =>
    cases as with
    | nil =>
      cases bs with
      | nil => exact List.prefix_rfl
      | cons b bs =>
        rw [List.cons_append, List.nil_append, List.intercalate_singleton,
          List.intercalate_cons_cons, List.append_assoc]
        exact List.prefix_append _ _
    | cons a' as =>
      rw [List.cons_append, List.cons_append, List.intercalate_cons_cons,
        List.intercalate_cons_cons]
      exact (List.prefix_append_right_inj _).mpr ih

section

variable {p : Path} {ps : List String} {name : String}

theorem exists_front (hp : p.parts = ps ++ [name]) :
    ∃ front, upToNamed (splitSlash p.text.toList) = front ++ [name.toList] ∧ namedBy front = ps := by
  rw [parts_eq_namedBy, ← namedBy_upToNamed] at hp
  rcases List.eq_nil_or_concat' (upToNamed (splitSlash p.text.toList)) with
    hnil | ⟨front, piece, hfront⟩
  · rw [hnil] at hp
    exact absurd hp.symm (List.append_ne_nil_of_right_ne_nil _ (List.cons_ne_nil _ _))
  · rw [hfront, namedBy_concat, if_pos (isNamed_of_upToNamed hfront)] at hp
    obtain ⟨hps, hname⟩ := List.append_inj' hp rfl
    refine ⟨front, ?_, hps⟩
    rw [hfront, ← List.singleton_inj.mp hname, String.toList_ofList]

theorem pieces_parent {front : List (List Char)}
    (hfront : upToNamed (splitSlash p.text.toList) = front ++ [name.toList])
    (hne : upToNamed front ≠ []) : splitSlash p.parent.text.toList = upToNamed front := by
  rw [parent, hfront, List.dropLast_concat, String.toList_ofList]
  -- the pieces come from cutting at slashes, so cutting again gives them back
  refine splitSlash_intercalate hne fun piece hpiece => ?_
  have hmem : piece ∈ upToNamed (splitSlash p.text.toList) := by
    rw [hfront]
    exact List.mem_append_left _ ((isPrefix_upToNamed front).subset hpiece)
  exact no_slash_of_mem_splitSlash ((isPrefix_upToNamed _).subset hmem)

theorem parts_parent (hp : p.parts = ps ++ [name]) : p.parent.parts = ps := by
  obtain ⟨front, hfront, rfl⟩ := exists_front hp
  by_cases hne : upToNamed front = []
  · rw [← namedBy_upToNamed, hne, parent, hfront, List.dropLast_concat, hne]
    rfl
  · rw [parts_eq_namedBy, pieces_parent hfront hne, namedBy_upToNamed]

theorem ending_parent (hp : p.parts = ps ++ [name]) (hne : ps ≠ []) : p.parent.ending = [] := by
  obtain ⟨front, hfront, rfl⟩ := exists_front hp
  rcases List.eq_nil_or_concat' (upToNamed front) with hnil | ⟨pieces, piece, hpieces⟩
  · rw [← namedBy_upToNamed, hnil] at hne
    exact absurd rfl hne
  · have hsplit := pieces_parent hfront
      (by rw [hpieces]; exact List.append_ne_nil_of_right_ne_nil _ (List.cons_ne_nil _ _))
    rw [hpieces] at hsplit
    exact (ending_of_concat hsplit).mpr (isNamed_of_upToNamed hpieces)

theorem isPrefix_parent (p : Path) : p.parent.text.toList <+: p.text.toList := by
  obtain ⟨rest, hrest⟩ := ((isPrefix_upToNamed _).trans (List.dropLast_prefix _)).trans
    (isPrefix_upToNamed (splitSlash p.text.toList))
  have hprefix := isPrefix_intercalate ['/']
    (upToNamed (upToNamed (splitSlash p.text.toList)).dropLast) rest
  rw [hrest, intercalate_splitSlash] at hprefix
  rwa [parent, String.toList_ofList]

theorem isAbsolute_parent (hrel : p.isAbsolute = false) : p.parent.isAbsolute = false := by
  obtain ⟨rest, hrest⟩ := p.isPrefix_parent
  rw [isAbsolute, beq_eq_false_iff_ne] at hrel ⊢
  intro hhead
  rw [← hrest] at hrel
  obtain ⟨cs, hcs⟩ := List.head?_eq_some_iff.mp hhead
  rw [hcs] at hrel
  exact hrel rfl

/-- Taking back a part that was joined to a path that ends in a part. -/
theorem parent_join (h : p.ending = []) (hname : IsPart name) : (p / name).parent = p := by
  have hwhole := upToNamed_of_ending h
  -- the path ends in a part, so a slash is put behind it
  have htext : (p / name).text.toList = p.text.toList ++ '/' :: name.toList := by
    have hnotEmpty : ∀ front, splitSlash p.text.toList ≠ front ++ [[]] := fun front hsplit =>
      absurd ((ending_of_concat hsplit).mp h) (by decide)
    rcases join_cases p hname with ⟨hempty, -⟩ | ⟨a, hjoin, hp | hp, -⟩
    · exact absurd (by rw [hempty]; rfl) (hnotEmpty [])
    · rw [hjoin, hp, String.toList_append, String.toList_append, List.append_assoc]
      rfl
    · refine absurd ?_ (hnotEmpty (splitSlash a.toList))
      rw [hp, String.toList_append]
      exact splitSlash_append_slash a.toList []
  rw [parent, htext, splitSlash_append_slash, splitSlash_of_no_slash hname.no_slash,
    upToNamed_concat, if_pos (isNamed_of_isPart hname), List.dropLast_concat, hwhole,
    intercalate_splitSlash, String.ofList_toList]

end

/-! ## Paths that fit -/

/-- A path whose text is not refused as a whole. -/
structure TextFits (p : Path) : Prop where
  no_nul : '\x00' ∉ p.text.toList
  length_le : p.text.utf8ByteSize ≤ Tree.maxPathLength

/-- A path that is not refused, whatever lies there. -/
structure Fits (p : Path) : Prop extends TextFits p where
  part_le : ∀ part ∈ p.parts, part.utf8ByteSize ≤ Tree.maxNameLength

instance (p : Path) : Decidable p.Fits :=
  decidable_of_iff
    (('\x00' ∉ p.text.toList ∧ p.text.utf8ByteSize ≤ Tree.maxPathLength) ∧
      ∀ part ∈ p.parts, part.utf8ByteSize ≤ Tree.maxNameLength)
    ⟨fun h => ⟨⟨h.1.1, h.1.2⟩, h.2⟩, fun h => ⟨⟨h.no_nul, h.length_le⟩, h.part_le⟩⟩

theorem utf8ByteSize_le_of_sublist {a b : String} (h : a.toList.Sublist b.toList) :
    a.utf8ByteSize ≤ b.utf8ByteSize := by
  rw [← String.ofList_toList (s := a), ← String.ofList_toList (s := b),
    String.utf8ByteSize_ofList, String.utf8ByteSize_ofList]
  exact String.utf8Len_le_of_sublist h

theorem Fits.parent {p : Path} (h : p.Fits) {ps : List String} {name : String}
    (hp : p.parts = ps ++ [name]) : p.parent.Fits where
  no_nul := fun hmem => h.no_nul (p.isPrefix_parent.subset hmem)
  length_le := (utf8ByteSize_le_of_sublist p.isPrefix_parent.sublist).trans h.length_le
  part_le := fun part hpart => h.part_le part (by
    rw [parts_parent hp] at hpart
    rw [hp]
    exact List.mem_append_left _ hpart)

theorem holderOf_eq {p : Path} {ps : List String} {name : String}
    (hp : p.parts = ps ++ [name]) (hne : ps ≠ []) : Tree.holderOf p = p.parent := by
  obtain ⟨x, rest, rfl⟩ := List.exists_cons_of_ne_nil hne
  obtain ⟨y, ys, hys⟩ := List.exists_cons_of_ne_nil
    (List.append_ne_nil_of_right_ne_nil rest (List.cons_ne_nil name []))
  unfold Tree.holderOf
  rw [hp, List.cons_append, hys]

end Path

end RepoSeal
