import RepoSeal.Proofs.Paths
import Mathlib.Data.List.Induction
import Mathlib.Data.List.Nodup

/-!
# RepoSeal — trees that are sound

A tree is sound if each location is used once and each node lies in a directory (`Sound`). Then a
directory's children are just the nodes one step below it (`mem_childrenOf`). A walk to a directory is
described by the steps it takes (`Goes`), which other nodes do not disturb; so the walk along a longer
path goes on from where the shorter one ends (`Goes.walk_append`).
-/

namespace RepoSeal.Tree

variable {t t' : Tree} {dir loc : Location} {name : String} {node : Node}

/-! ## Nodes -/

/-- A tree as a file system keeps it. -/
structure Sound (t : Tree) : Prop where
  nodup : (t.nodes.map Prod.fst).Nodup
  /-- What lies somewhere lies in a directory. -/
  held : ∀ dir name node, t.find? (dir ++ [name]) = some node → t.find? dir = some .directory

/-- One tree has all nodes of another one. -/
def Grows (t t' : Tree) : Prop := ∀ loc node, t.find? loc = some node → t'.find? loc = some node

theorem find?_concat (t : Tree) (dir : Location) (name : String) :
    t.find? (dir ++ [name]) = (t.nodes.find? (·.1 = dir ++ [name])).map Prod.snd := by
  rw [find?, if_neg]
  simp

theorem sound_empty : Sound {} where
  nodup := List.nodup_nil
  held := by
    intro dir name node h
    rw [find?_concat] at h
    cases h

theorem Sound.find?_eq_some (h : t.Sound) :
    t.find? (dir ++ [name]) = some node ↔ (dir ++ [name], node) ∈ t.nodes := by
  rw [find?_concat, Option.map_eq_some_iff]
  constructor
  · rintro ⟨⟨loc, node'⟩, hfind, rfl⟩
    have hloc : loc = dir ++ [name] := by simpa using List.find?_some hfind
    rw [← hloc]
    exact List.mem_of_find?_eq_some hfind
  · intro hmem
    cases hfind : t.nodes.find? (·.1 = dir ++ [name]) with
    | none =>
      have hnot := List.find?_eq_none.mp hfind _ hmem
      simp at hnot
    | some entry =>
      have hloc : entry.1 = dir ++ [name] := by simpa using List.find?_some hfind
      have hsame := List.inj_on_of_nodup_map h.nodup (List.mem_of_find?_eq_some hfind) hmem hloc
      exact ⟨entry, rfl, by rw [hsame]⟩

/-- Above a node there are directories all the way. -/
theorem Sound.directory_of_below (h : t.Sound) {below : Location} (hne : below ≠ [])
    (hnode : t.find? (dir ++ below) = some node) : t.find? dir = some .directory := by
  induction below using List.reverseRecOn generalizing node with
  | nil => exact absurd rfl hne
  | append_singleton below name ih =>
    rw [← List.append_assoc] at hnode
    have hheld := h.held _ _ _ hnode
    cases below with
    | nil => rwa [List.append_nil] at hheld
    | cons first rest => exact ih (List.cons_ne_nil _ _) hheld

theorem Sound.absent_below (h : t.Sound) (habsent : t.find? dir = none) (below : Location) :
    t.find? (dir ++ below) = none := by
  cases below with
  | nil => rwa [List.append_nil]
  | cons first rest =>
    cases hfind : t.find? (dir ++ first :: rest) with
    | none => rfl
    | some node =>
      rw [h.directory_of_below (List.cons_ne_nil _ _) hfind] at habsent
      cases habsent

/-! ## New nodes -/

theorem put_of_absent (habsent : t.find? (dir ++ [name]) = none) (node : Node) :
    (t.put (dir ++ [name]) node).nodes = t.nodes ++ [(dir ++ [name], node)] := by
  rw [find?_concat, Option.map_eq_none_iff, List.find?_eq_none] at habsent
  have hany : t.nodes.any (·.1 = dir ++ [name]) = false := by
    rw [List.any_eq_false]
    exact habsent
  unfold put
  rw [hany]
  rfl

/-- Putting a node changes what lies at its location, and nothing else. -/
theorem find?_put (t : Tree) (dir : Location) (name : String) (node : Node) (loc : Location) :
    (t.put (dir ++ [name]) node).find? loc =
      if loc = dir ++ [name] then some node else t.find? loc := by
  induction loc using List.reverseRecOn with
  | nil =>
    rw [if_neg (by simp)]
    rfl
  | append_singleton above last _ =>
    by_cases habsent : t.find? (dir ++ [name]) = none
    · rw [find?_concat, put_of_absent habsent, List.find?_append, find?_concat]
      by_cases hsame : above ++ [last] = dir ++ [name]
      · rw [find?_concat, Option.map_eq_none_iff] at habsent
        rw [if_pos hsame, hsame, habsent]
        simp
      · rw [if_neg hsame]
        have hother : List.find? (fun e : Location × Node => decide (e.1 = above ++ [last]))
            [(dir ++ [name], node)] = none := by
          simp [Ne.symm hsame]
        rw [hother, Option.or_none]
    · -- the node is replaced where it is, so every location is still found in the same place
      have hany : t.nodes.any (·.1 = dir ++ [name]) = true := by
        rw [find?_concat, Option.map_eq_none_iff, List.find?_eq_none] at habsent
        simpa using habsent
      have hreplaced : (t.put (dir ++ [name]) node).nodes =
          t.nodes.map fun e => if e.1 = dir ++ [name] then (dir ++ [name], node) else e := by
        rw [put, hany]
        rfl
      have hplaces : (fun e : Location × Node => decide (e.1 = above ++ [last])) ∘
          (fun e => if e.1 = dir ++ [name] then (dir ++ [name], node) else e) =
          fun e => decide (e.1 = above ++ [last]) := by
        funext e
        by_cases he : e.1 = dir ++ [name]
        · simp [he]
        · simp [he]
      rw [find?_concat, hreplaced, List.find?_map, hplaces, find?_concat]
      cases hfind : t.nodes.find? fun e => decide (e.1 = above ++ [last]) with
      | none =>
        have hne : above ++ [last] ≠ dir ++ [name] := by
          intro hsame
          rw [find?_concat, ← hsame, hfind] at habsent
          exact habsent rfl
        rw [if_neg hne]
        rfl
      | some e =>
        have he : e.1 = above ++ [last] := by simpa using List.find?_some hfind
        by_cases hsame : above ++ [last] = dir ++ [name]
        · simp [he, hsame]
        · simp [he, hsame]

/-- Removing what lies at a location leaves everything else. -/
theorem find?_remove (t : Tree) (dir : Location) (name : String) (loc : Location) :
    (t.remove (dir ++ [name])).find? loc =
      if loc = dir ++ [name] then none else t.find? loc := by
  induction loc using List.reverseRecOn with
  | nil =>
    rw [if_neg (by simp)]
    rfl
  | append_singleton above last _ =>
    rw [find?_concat, remove, List.find?_filter, find?_concat]
    by_cases hsame : above ++ [last] = dir ++ [name]
    · rw [if_pos hsame, hsame, Option.map_eq_none_iff, List.find?_eq_none]
      simp
    · rw [if_neg hsame]
      congr 2
      funext e
      by_cases he : e.1 = above ++ [last]
      · simp [he, hsame]
      · simp [he]

theorem grows_put (habsent : t.find? (dir ++ [name]) = none) (node : Node) :
    t.Grows (t.put (dir ++ [name]) node) := by
  intro loc old hold
  rw [find?_put]
  split
  · rename_i heq
    rw [heq, habsent] at hold
    cases hold
  · exact hold

theorem Sound.put (h : t.Sound) (hdir : t.find? dir = some .directory)
    (habsent : t.find? (dir ++ [name]) = none) (node : Node) :
    (t.put (dir ++ [name]) node).Sound where
  nodup := by
    rw [put_of_absent habsent, List.map_append, List.nodup_append]
    refine ⟨h.nodup, List.nodup_singleton _, ?_⟩
    intro loc hloc loc' hloc' heq
    cases List.mem_singleton.mp hloc'
    obtain ⟨⟨loc, old⟩, hmem, rfl⟩ := List.mem_map.mp hloc
    have hloc : loc = dir ++ [name] := heq
    rw [h.find?_eq_some.mpr (hloc ▸ hmem)] at habsent
    cases habsent
  held := by
    intro above last old hold
    rw [find?_put] at hold
    have habove : t.find? above = some .directory := by
      split at hold
      · rename_i heq
        rw [(List.append_inj' heq rfl).1]
        exact hdir
      · exact h.held _ _ _ hold
    exact grows_put habsent node _ _ habove

/-! ## Children -/

theorem Sound.mem_childrenOf (h : t.Sound) :
    (name, node) ∈ t.childrenOf dir ↔ t.find? (dir ++ [name]) = some node := by
  rw [h.find?_eq_some, childrenOf, List.mem_filterMap]
  constructor
  · rintro ⟨⟨loc, node'⟩, hmem, hchild⟩
    induction loc using List.reverseRecOn with
    | nil => cases hchild
    | append_singleton above last _ =>
      rw [List.getLast?_concat, List.dropLast_concat] at hchild
      dsimp only at hchild
      split at hchild
      · rename_i heq
        cases hchild
        rw [← heq]
        exact hmem
      · cases hchild
  · intro hmem
    refine ⟨(dir ++ [name], node), hmem, ?_⟩
    rw [List.getLast?_concat, List.dropLast_concat]
    exact if_pos rfl

theorem Sound.nodup_childrenOf (h : t.Sound) (dir : Location) :
    ((t.childrenOf dir).map Prod.fst).Nodup := by
  -- the locations of children are among those of nodes, which are all different
  have hloc : (t.childrenOf dir).map (fun c => dir ++ [c.1]) =
      (t.nodes.map Prod.fst).filter fun loc => loc ≠ [] ∧ loc.dropLast = dir := by
    rw [childrenOf]
    generalize t.nodes = nodes
    induction nodes with
    | nil => rfl
    | cons e nodes ih =>
      obtain ⟨loc, node⟩ := e
      rw [List.filterMap_cons, List.map_cons, List.filter_cons]
      induction loc using List.reverseRecOn with
      | nil => simpa using ih
      | append_singleton above last _ =>
        rw [List.getLast?_concat, List.dropLast_concat]
        by_cases hdir : above = dir
        · simp [hdir, ih]
        · simp [hdir, ih]
  have hnodup : ((t.childrenOf dir).map fun c => dir ++ [c.1]).Nodup := by
    rw [hloc]
    exact h.nodup.filter _
  have hmap : (t.childrenOf dir).map (fun c => dir ++ [c.1]) =
      ((t.childrenOf dir).map Prod.fst).map fun name => dir ++ [name] := by
    rw [List.map_map]
    rfl
  rw [hmap] at hnodup
  exact hnodup.of_map _

/-! ## Walks

A walk to a directory takes its steps whatever the purpose is, as long as something is left to go on
with. -/

/-- The steps of a walk that ends at a directory, with the number of links that it may still follow. -/
inductive Goes (t : Tree) : Nat → Location → List String → Nat → Location → Prop
  | done (links : Nat) (dir : Location) : Goes t links dir [] links dir
  | slash {links k : Nat} {dir loc : Location} {rest : List String}
      (h : Goes t links dir rest k loc) : Goes t links dir ("/" :: rest) k loc
  | dot {links k : Nat} {dir loc : Location} {rest : List String}
      (h : Goes t links dir rest k loc) : Goes t links dir ("." :: rest) k loc
  | up {links k : Nat} {dir loc : Location} {rest : List String} (hne : dir ≠ [])
      (h : Goes t links dir.dropLast rest k loc) : Goes t links dir (".." :: rest) k loc
  | into {links k : Nat} {dir loc : Location} {name : String} {rest : List String}
      (hslash : name ≠ "/") (hdot : name ≠ ".") (hup : name ≠ "..")
      (hlen : name.utf8ByteSize ≤ maxNameLength)
      (hfind : t.find? (dir ++ [name]) = some .directory)
      (h : Goes t links (dir ++ [name]) rest k loc) : Goes t links dir (name :: rest) k loc
  | follow {links k : Nat} {dir loc : Location} {name : String} {rest : List String} {target : Path}
      (hslash : name ≠ "/") (hdot : name ≠ ".") (hup : name ≠ "..")
      (hlen : name.utf8ByteSize ≤ maxNameLength)
      (hfind : t.find? (dir ++ [name]) = some (.link target))
      (htarget : (target.isAbsolute || target.text.isEmpty) = false)
      (h : Goes t links dir (steps target ++ rest) k loc) : Goes t (links + 1) dir (name :: rest) k loc

section

variable {purpose : Purpose} {links k : Nat} {todo rest : List String}

theorem walk_name (hslash : name ≠ "/") (hdot : name ≠ ".") (hup : name ≠ "..") :
    t.walk purpose links dir (name :: rest) =
      if maxNameLength < name.utf8ByteSize then .error .nameTooLong
      else if purpose = .change && isLast rest then .ok (.entry dir name !rest.isEmpty)
      else
        match t.find? (dir ++ [name]) with
        | none => if rest.isEmpty then .ok (.vacant dir name) else .error .notFound
        | some .directory => t.walk purpose links (dir ++ [name]) rest
        | some (.file content mode) =>
          if rest.isEmpty then .ok (.found (dir ++ [name]) (.file content mode))
          else .error .notADirectory
        | some (.link target) =>
          match links with
          | 0 => .error .linkLoop
          | links + 1 =>
            if target.isAbsolute || target.text.isEmpty then .error .notFound
            else t.walk purpose links dir (steps target ++ rest) :=
  -- the last case of the walk, for a name that is none of the special steps
  walk.eq_5 t purpose links dir name rest hslash hdot hup

theorem ne_slash_of_isPart (h : Path.IsPart name) : name ≠ "/" := by
  rintro rfl
  exact h.no_slash (by decide)

theorem isLast_append (a b : List String) : isLast (a ++ b) = (isLast a && isLast b) :=
  List.all_append

theorem goes_of_walk (h : t.walk .use links dir todo = .ok (.found loc .directory)) :
    ∃ k, Goes t links dir todo k loc := by
  -- a walk that ends at a directory takes the steps of one of six cases
  fun_induction walk t .use links dir todo with
  | case1 links dir =>
    cases h
    exact ⟨links, .done _ _⟩
  | case2 links dir rest ih =>
    obtain ⟨k, hgoes⟩ := ih h
    exact ⟨k, .slash hgoes⟩
  | case4 links dir rest _ ih =>
    obtain ⟨k, hgoes⟩ := ih h
    exact ⟨k, .dot hgoes⟩
  | case7 links dir rest _ hne ih =>
    obtain ⟨k, hgoes⟩ := ih h
    exact ⟨k, .up (fun hnil => hne (List.isEmpty_iff.mpr hnil)) hgoes⟩
  | case12 links dir name rest hslash hdot hup hlen _ hfind ih =>
    obtain ⟨k, hgoes⟩ := ih h
    exact ⟨k, .into hslash hdot hup (Nat.le_of_not_lt hlen) hfind hgoes⟩
  | case17 dir name rest hslash hdot hup hlen _ target hfind links htarget ih =>
    obtain ⟨k, hgoes⟩ := ih h
    exact ⟨k, .follow hslash hdot hup (Nat.le_of_not_lt hlen) hfind (Bool.eq_false_iff.mpr htarget)
      hgoes⟩
  | _ => cases h

/-- A walk along a longer path goes on from where the shorter one ends. -/
theorem Goes.walk_append (h : Goes t links dir todo k loc) (hrest : isLast rest = false) :
    t.walk purpose links dir (todo ++ rest) = t.walk purpose k loc rest := by
  -- with something left behind them, the steps are not the last ones, which only `.use` may take
  have hlast : ∀ todo, isLast (todo ++ rest) = false := fun todo => by
    rw [isLast_append, hrest, Bool.and_false]
  have hne : ∀ todo, (todo ++ rest).isEmpty = false := by
    intro todo
    cases rest with
    | nil => cases hrest
    | cons x rest => cases todo <;> rfl
  induction h with
  | done => rfl
  | slash h ih =>
    rw [List.cons_append, walk]
    exact ih
  | dot h ih =>
    rw [List.cons_append, walk, hlast, Bool.and_false]
    exact ih
  | up hdir h ih =>
    rw [List.cons_append, walk, hlast, Bool.and_false]
    simpa [hdir] using ih
  | into hslash hdot hup hlen hfind h ih =>
    rw [List.cons_append, walk_name hslash hdot hup, hlast, hfind, if_neg (Nat.not_lt.mpr hlen),
      Bool.and_false, if_neg Bool.false_ne_true]
    exact ih
  | follow hslash hdot hup hlen hfind htarget h ih =>
    rw [List.cons_append, walk_name hslash hdot hup, hlast, hfind, if_neg (Nat.not_lt.mpr hlen),
      Bool.and_false, if_neg Bool.false_ne_true]
    dsimp only
    rw [htarget, ← List.append_assoc]
    exact ih

/-- Only the directories and the links of a tree matter for where steps lead. -/
theorem Goes.mono (h : Goes t links dir todo k loc)
    (hdirs : ∀ at_, t.find? at_ = some .directory → t'.find? at_ = some .directory)
    (hlinks : ∀ at_ target, t.find? at_ = some (.link target) → t'.find? at_ = some (.link target)) :
    Goes t' links dir todo k loc := by
  induction h with
  | done => exact .done _ _
  | slash h ih => exact .slash ih
  | dot h ih => exact .dot ih
  | up hne h ih => exact .up hne ih
  | into hslash hdot hup hlen hfind h ih => exact .into hslash hdot hup hlen (hdirs _ hfind) ih
  | follow hslash hdot hup hlen hfind htarget h ih =>
    exact .follow hslash hdot hup hlen (hlinks _ _ hfind) htarget ih

theorem Goes.grows (h : Goes t links dir todo k loc) (hgrows : t.Grows t') :
    Goes t' links dir todo k loc :=
  h.mono (fun at_ => hgrows at_ _) fun at_ _ => hgrows at_ _

/-- A walk from a directory ends at a directory. -/
theorem Goes.directory (h : Goes t links dir todo k loc) (hsound : t.Sound)
    (hdir : t.find? dir = some .directory) : t.find? loc = some .directory := by
  induction h with
  | done => exact hdir
  | slash h ih => exact ih hdir
  | dot h ih => exact ih hdir
  | @up links k dir loc rest hne h ih =>
    -- the directory above holds this one
    rw [← List.dropLast_append_getLast hne] at hdir
    exact ih (hsound.held _ _ _ hdir)
  | into hslash hdot hup hlen hfind h ih => exact ih hfind
  | follow hslash hdot hup hlen hfind htarget h ih => exact ih hdir

theorem Goes.name_le (h : Goes t links dir todo k loc) :
    ∀ name ∈ todo, name.utf8ByteSize ≤ maxNameLength := by
  induction h with
  | done => exact fun _ h => absurd h List.not_mem_nil
  | slash h ih => exact List.forall_mem_cons.mpr ⟨by decide, ih⟩
  | dot h ih => exact List.forall_mem_cons.mpr ⟨by decide, ih⟩
  | up hne h ih => exact List.forall_mem_cons.mpr ⟨by decide, ih⟩
  | into hslash hdot hup hlen hfind h ih => exact List.forall_mem_cons.mpr ⟨hlen, ih⟩
  | follow hslash hdot hup hlen hfind htarget h ih =>
    exact List.forall_mem_cons.mpr ⟨hlen, fun x hx => ih x (List.mem_append_right _ hx)⟩

end

end RepoSeal.Tree
