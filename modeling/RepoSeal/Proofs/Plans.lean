import RepoSeal.Plan

/-!
# RepoSeal — running plans that can fail

`Attempt.on` is the result of a plan in surroundings in memory, with the surroundings after it. Each
way of building such a plan has one equation, so a plan is run by rewriting from its first request to
its last. A plan that only asks the tree gives one result for each tree (`Attempt.Gives`).
-/

namespace RepoSeal

namespace Plan

variable {α : Type}

theorem bind_done (p : Plan α) : p.bind done = p := by
  induction p with
  | done a => rfl
  | note events next ih => exact congrArg (note events) ih
  | print b next ih => exact congrArg (print b) ih
  | _ => simp only [bind, *]

theorem bind_bind {β γ : Type} (p : Plan α) (f : α → Plan β) (g : β → Plan γ) :
    (p.bind f).bind g = p.bind fun a => (f a).bind g := by
  induction p with
  | done a => rfl
  | note events next ih => exact congrArg (note events) ih
  | print b next ih => exact congrArg (print b) ih
  | _ => simp only [bind, *]

instance : LawfulMonad Plan :=
  LawfulMonad.mk' Plan bind_done (fun _ _ => rfl) bind_bind

@[simp] theorem run_contents (p : Path) (w : World) :
    (contents p).run w = (w.tree.contentsAt p, w) := rfl

@[simp] theorem run_listDirectory (p : Path) (w : World) :
    (listDirectory p).run w = (w.tree.listDirectory p, w) := rfl

@[simp] theorem run_makeDirectories (p : Path) (w : World) :
    (makeDirectories p).run w =
      ((w.tree.makeDirectories p).1, { w with tree := (w.tree.makeDirectories p).2 }) := rfl

theorem run_replaceFile (p : Path) (content : Bytes) (w : World) :
    (replaceFile p content).run w =
      match w.tree.replaceFile p content with
      | .ok tree => (.ok (), { w with tree })
      | .error fault => (.error fault, w) := by
  unfold replaceFile
  rw [run]
  cases w.tree.replaceFile p content with
  | ok tree => rfl
  | error fault => rfl

@[simp] theorem run_random (n : Nat) (w : World) :
    (random n).run w = (.ok (w.draw n).1, (w.draw n).2) := rfl

@[simp] theorem run_log (events : Log) (w : World) :
    (log events).run w = ((), { w with log := w.log ++ events }) := rfl

@[simp] theorem run_exists (p : Path) (w : World) :
    (exists_ p).run w = (decide (w.tree.presence p ≠ .absent), w) := by
  unfold exists_
  rw [run_bind]
  rfl

end Plan

namespace Attempt

variable {ε α β : Type}

/-- The result of a plan in surroundings in memory, and the surroundings after it. -/
def on (p : Attempt ε α) (w : World) : Except ε α × World := Plan.run p.run w

@[simp] theorem on_pure (a : α) (w : World) : (pure a : Attempt ε α).on w = (.ok a, w) := rfl

@[simp] theorem on_fail (e : ε) (w : World) : (fail e : Attempt ε α).on w = (.error e, w) := rfl

@[simp] theorem on_ofExcept (r : Except ε α) (w : World) : (ofExcept r).on w = (r, w) := rfl

theorem on_bind (p : Attempt ε α) (f : α → Attempt ε β) (w : World) :
    (p >>= f).on w =
      match p.on w with
      | (.ok a, w') => (f a).on w'
      | (.error e, w') => (.error e, w') := by
  unfold on
  rw [ExceptT.run_bind, Plan.run_bind]
  rcases Plan.run p.run w with ⟨_ | _, _⟩ <;> rfl

theorem on_bind_pure (p : Attempt ε α) (g : α → β) (w : World) :
    (p >>= fun a => pure (g a)).on w = ((p.on w).1.map g, (p.on w).2) := by
  rw [on_bind]
  rcases p.on w with ⟨_ | _, _⟩ <;> rfl

@[simp] theorem on_ask (p : Plan α) (w : World) :
    (ask p : Attempt ε α).on w = (.ok (p.run w).1, (p.run w).2) := by
  unfold on ask
  rw [ExceptT.run_mk, Plan.run_bind]
  rfl

theorem on_orFault (p : Plan (Except Fault α)) (w : World) :
    (orFault p).on w = ((p.run w).1.mapError .io, (p.run w).2) := by
  unfold on orFault
  rw [ExceptT.run_mk, Plan.run_bind]
  rcases p.run w with ⟨_ | _, _⟩ <;> rfl

/-- A plan given by its result. -/
theorem on_mk (p : Plan (Except ε α)) (w : World) : on (ExceptT.mk p) w = p.run w := rfl

/-! ## Plans that only ask -/

/-- For a tree the plan gives one result, whatever else is around, and the tree stays as it is. -/
def Gives (p : Attempt ε α) (t : Tree) (r : Except ε α) : Prop :=
  ∀ w : World, w.tree = t → (p.on w).1 = r ∧ (p.on w).2.tree = t

variable {t : Tree} {p : Attempt ε α} {f : α → Attempt ε β} {a : α} {r : Except ε β}

theorem Gives.unique {r r' : Except ε α} (h : p.Gives t r) (h' : p.Gives t r') : r = r' := by
  obtain ⟨hresult, -⟩ := h { tree := t } rfl
  obtain ⟨hresult', -⟩ := h' { tree := t } rfl
  rw [← hresult, hresult']

theorem gives_pure (a : α) : (pure a : Attempt ε α).Gives t (.ok a) := fun _ h => ⟨rfl, h⟩

theorem gives_fail (e : ε) : (fail e : Attempt ε α).Gives t (.error e) := fun _ h => ⟨rfl, h⟩

theorem gives_ofExcept (r : Except ε α) : (ofExcept r).Gives t r := fun _ h => ⟨rfl, h⟩

theorem gives_log (events : Log) : (ask (Plan.log events) : Attempt ε Unit).Gives t (.ok ()) :=
  fun _ h => ⟨rfl, h⟩

theorem gives_presence (p : Path) :
    (ask (Plan.presence p) : Attempt ε Presence).Gives t (.ok (t.presence p)) := by
  rintro w rfl
  exact ⟨rfl, rfl⟩

theorem gives_exists (p : Path) :
    (ask (Plan.exists_ p) : Attempt ε Bool).Gives t (.ok (decide (t.presence p ≠ .absent))) := by
  rintro w rfl
  exact ⟨rfl, rfl⟩

theorem gives_listDirectory {p : Path} {entries : List (String × EntryKind)}
    (h : t.listDirectory p = .ok entries) :
    (orFault (Plan.listDirectory p)).Gives t (.ok entries) := by
  rintro w rfl
  rw [on_orFault, Plan.run_listDirectory, h]
  exact ⟨rfl, rfl⟩

theorem gives_listDirectory_error {p : Path} {fault : Fault}
    (h : t.listDirectory p = .error fault) :
    (orFault (Plan.listDirectory p)).Gives t (.error (.io fault)) := by
  rintro w rfl
  rw [on_orFault, Plan.run_listDirectory, h]
  exact ⟨rfl, rfl⟩

theorem gives_contents {p : Path} {content : Bytes} (h : t.contentsAt p = .ok content) :
    (orFault (Plan.contents p)).Gives t (.ok content) := by
  rintro w rfl
  rw [on_orFault, Plan.run_contents, h]
  exact ⟨rfl, rfl⟩

theorem gives_contents_error {p : Path} {fault : Fault} (h : t.contentsAt p = .error fault) :
    (orFault (Plan.contents p)).Gives t (.error (.io fault)) := by
  rintro w rfl
  rw [on_orFault, Plan.run_contents, h]
  exact ⟨rfl, rfl⟩

theorem Gives.bind (hp : p.Gives t (.ok a)) (hf : (f a).Gives t r) : (p >>= f).Gives t r := by
  intro w hw
  obtain ⟨hresult, htree⟩ := hp w hw
  rw [on_bind]
  generalize p.on w = o at hresult htree
  obtain ⟨result, w'⟩ := o
  cases hresult
  exact hf w' htree

theorem Gives.bind_error {e : ε} (hp : p.Gives t (.error e)) : (p >>= f).Gives t (.error e) := by
  intro w hw
  obtain ⟨hresult, htree⟩ := hp w hw
  rw [on_bind]
  generalize p.on w = o at hresult htree
  obtain ⟨result, w'⟩ := o
  cases hresult
  exact ⟨rfl, htree⟩

/-- Asking for the outcome of a plan that may fail. -/
theorem Gives.outcome {ε' : Type} {r : Except ε α} (hp : p.Gives t r) :
    (ask p.run : Attempt ε' (Except ε α)).Gives t (.ok r) := by
  intro w hw
  obtain ⟨hresult, htree⟩ := hp w hw
  rw [on_ask]
  exact ⟨congrArg Except.ok hresult, htree⟩

/-- Plans whose results are lists in order, one behind the other: all their results are in order. -/
theorem gives_flatten (f : α → Attempt ε (List β)) (mine : α → β → Prop) (before : β → β → Prop)
    {l : List α}
    (heach : ∀ x ∈ l, ∃ ys, (f x).Gives t (.ok ys) ∧ ys.Pairwise before ∧ ∀ y, y ∈ ys ↔ mine x y)
    (horder : l.Pairwise fun x x' => ∀ y y', mine x y → mine x' y' → before y y') :
    ∃ ys, (do return (← l.mapM f).flatten : Attempt ε (List β)).Gives t (.ok ys) ∧
      ys.Pairwise before ∧ ∀ y, y ∈ ys ↔ ∃ x ∈ l, mine x y := by
  have hlist : ∃ yss, (l.mapM f).Gives t (.ok yss) ∧ yss.flatten.Pairwise before ∧
      ∀ y, y ∈ yss.flatten ↔ ∃ x ∈ l, mine x y := by
    induction l with
    | nil => exact ⟨[], gives_pure [], List.Pairwise.nil, by simp⟩
    | cons x l ih =>
      obtain ⟨⟨ys, hys, hsorted, hmem⟩, heach⟩ := List.forall_mem_cons.mp heach
      obtain ⟨hfirst, horder⟩ := List.pairwise_cons.mp horder
      obtain ⟨yss, hyss, hsorted', hmem'⟩ := ih heach horder
      refine ⟨ys :: yss, ?_, ?_, ?_⟩
      · rw [List.mapM_cons]
        exact hys.bind (hyss.bind (gives_pure _))
      · rw [List.flatten_cons, List.pairwise_append]
        refine ⟨hsorted, hsorted', fun y hy y' hy' => ?_⟩
        obtain ⟨x', hx', hmine⟩ := (hmem' y').mp hy'
        exact hfirst x' hx' y y' ((hmem y).mp hy) hmine
      · intro y
        rw [List.flatten_cons, List.mem_append, hmem, hmem']
        simp
  obtain ⟨yss, hyss, hsorted, hmem⟩ := hlist
  exact ⟨yss.flatten, hyss.bind (gives_pure _), hsorted, hmem⟩

/-- Plans of which one fails, and which fail with the same error if they do: together they fail. -/
theorem gives_flatten_error {f : α → Attempt ε (List β)} {e : ε} {l : List α}
    (heach : ∀ x ∈ l, (∃ ys, (f x).Gives t (.ok ys)) ∨ (f x).Gives t (.error e))
    (hfail : ∃ x ∈ l, (f x).Gives t (.error e)) :
    (do return (← l.mapM f).flatten : Attempt ε (List β)).Gives t (.error e) := by
  have hlist : (l.mapM f).Gives t (.error e) := by
    induction l with
    | nil =>
      obtain ⟨x, hx, -⟩ := hfail
      cases hx
    | cons x l ih =>
      obtain ⟨hx, heach⟩ := List.forall_mem_cons.mp heach
      rw [List.mapM_cons]
      rcases hx with ⟨ys, hys⟩ | herror
      · -- the failure is further behind, unless this plan gives two results
        obtain ⟨x', hx', hfail'⟩ := hfail
        rcases List.mem_cons.mp hx' with rfl | hx'
        · exact hfail'.bind_error
        · exact hys.bind (ih heach ⟨x', hx', hfail'⟩).bind_error
      · exact herror.bind_error
  exact hlist.bind_error

end Attempt

end RepoSeal
