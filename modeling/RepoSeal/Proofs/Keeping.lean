import RepoSeal.Proofs.KeyDisk

/-!
# RepoSeal — plans that keep a property of the tree

A plan keeps a property if every run of it from a tree with the property ends in one, and then whatever
the plan gives has a property of its own (`Attempt.Keeps`). Each way of building a plan has one rule, so
what a command keeps is found by going through its text. A plan that does not change the tree keeps
everything (`Plan.Still`).
-/

namespace RepoSeal

/-! ## Plans that change nothing -/

namespace Plan

variable {α β : Type}

/-- Every run leaves the tree as it was. -/
def Still (p : Plan α) : Prop := ∀ w : World, (p.run w).2.tree = w.tree

theorem still_pure (a : α) : (pure a : Plan α).Still := fun _ => rfl

theorem Still.bind {p : Plan α} {f : α → Plan β} (hp : p.Still) (hf : ∀ a, (f a).Still) :
    (p >>= f).Still := by
  intro w
  rw [run_bind, hf, hp]

theorem still_log (events : Log) : (log events).Still := fun _ => rfl

theorem still_write (b : Bytes) : (write b).Still := fun _ => rfl

theorem still_writeLine (text : String) : (writeLine text).Still := fun _ => rfl

theorem still_input : input.Still := fun _ => rfl

theorem still_random (n : Nat) : (random n).Still := fun _ => rfl

theorem still_presence (p : Path) : (presence p).Still := fun _ => rfl

theorem still_exists (p : Path) : (exists_ p).Still := fun w => by rw [run_exists]

theorem still_readText (p : Path) : (readText p).Still := by
  refine Still.bind (fun _ => rfl) fun r => ?_
  cases r with
  | error fault => exact still_pure _
  | ok b =>
    dsimp only
    split
    · exact still_pure _
    · exact still_pure _

theorem still_forM (l : List α) {f : α → Plan Unit} (hf : ∀ a, (f a).Still) : (l.forM f).Still := by
  induction l with
  | nil => exact still_pure _
  | cons a l ih => exact (hf a).bind fun _ => ih

end Plan

namespace Attempt

variable {ε α β : Type} {inv : Tree → Prop} {post : α → Prop} {mid : β → Prop}

/-- Every run from a tree with a property ends in one, and what the plan gives is as it should be. -/
def Keeps (p : Attempt ε α) (inv : Tree → Prop) (post : α → Prop) : Prop :=
  ∀ w : World, inv w.tree → inv (p.on w).2.tree ∧ ∀ a, (p.on w).1 = .ok a → post a

theorem keeps_pure {a : α} (h : post a) : (pure a : Attempt ε α).Keeps inv post := by
  intro w hw
  refine ⟨hw, fun a' ha' => ?_⟩
  cases ha'
  exact h

theorem keeps_fail (e : ε) : (fail e : Attempt ε α).Keeps inv post := by
  intro w hw
  refine ⟨hw, fun a ha => ?_⟩
  cases ha

theorem keeps_ofExcept {r : Except ε α} (h : ∀ a, r = .ok a → post a) :
    (ofExcept r).Keeps inv post :=
  fun _ hw => ⟨hw, h⟩

theorem keeps_ask {p : Plan α} (h : p.Still) : (ask p : Attempt ε α).Keeps inv fun _ => True := by
  intro w hw
  rw [on_ask]
  exact ⟨(h w).symm ▸ hw, fun _ _ => trivial⟩

/-- A plan with one result for each tree keeps everything. -/
theorem keeps_of_gives {p : Attempt ε α}
    (h : ∀ t, inv t → ∃ r, p.Gives t r ∧ ∀ a, r = .ok a → post a) : p.Keeps inv post := by
  intro w hw
  obtain ⟨r, hgives, hpost⟩ := h w.tree hw
  obtain ⟨hresult, htree⟩ := hgives w rfl
  exact ⟨htree.symm ▸ hw, fun a ha => hpost a (hresult.symm.trans ha)⟩

theorem Keeps.bind {p : Attempt ε β} {f : β → Attempt ε α} (hp : p.Keeps inv mid)
    (hf : ∀ b, mid b → (f b).Keeps inv post) : (p >>= f).Keeps inv post := by
  intro w hw
  obtain ⟨htree, hmid⟩ := hp w hw
  rw [on_bind]
  generalize p.on w = o at htree hmid
  obtain ⟨_ | b, w'⟩ := o
  · refine ⟨htree, fun a ha => ?_⟩
    cases ha
  · exact hf b (hmid b rfl) w' htree

/-- After a plan whose result does not matter. -/
theorem Keeps.andThen {p : Attempt ε β} {f : β → Attempt ε α} (hp : p.Keeps inv fun _ => True)
    (hf : ∀ b, (f b).Keeps inv post) : (p >>= f).Keeps inv post :=
  hp.bind fun b _ => hf b

/-- Asking for the outcome of a plan that may fail. -/
theorem Keeps.outcome {ε' : Type} {p : Attempt ε α} (h : p.Keeps inv post) :
    (ask p.run : Attempt ε' (Except ε α)).Keeps inv fun r => ∀ a, r = .ok a → post a := by
  intro w hw
  obtain ⟨htree, hpost⟩ := h w hw
  rw [on_ask]
  refine ⟨htree, fun r hr a ha => hpost a ?_⟩
  cases hr
  exact ha

theorem eq_ok_of_mapError {ε' : Type} {f : ε → ε'} {r : Except ε α} {a : α}
    (h : r.mapError f = .ok a) : r = .ok a := by
  cases r with
  | error e => cases h
  | ok b =>
    cases h
    rfl

theorem Keeps.inLibrary {p : Attempt Error α} (h : p.Keeps inv post) :
    p.inLibrary.Keeps inv post := by
  intro w hw
  rw [on_inLibrary]
  exact ⟨(h w hw).1, fun a ha => (h w hw).2 a (eq_ok_of_mapError ha)⟩

theorem Keeps.during {p : Attempt Failure α} (h : p.Keeps inv post) (activity : Activity) :
    (p.during activity).Keeps inv post := by
  intro w hw
  rw [on_during]
  exact ⟨(h w hw).1, fun a ha => (h w hw).2 a (eq_ok_of_mapError ha)⟩

theorem keeps_putBlob {p : Path} {content : Bytes}
    (hwidens : ∀ t t', inv t → t.Widens t' → inv t')
    (hput : ∀ t t', inv t → t.replaceFile p content = .ok t' → inv t') :
    (Store.putBlob p content).Keeps inv fun _ => True := by
  intro w hw
  refine ⟨?_, fun _ _ => trivial⟩
  rcases Store.on_putBlob_cases p content w with ⟨-, t', hnew, hon⟩ | ⟨-, e, t', hnew, hon⟩
  · rw [hon]
    exact hput _ _ (hwidens _ _ hw (w.tree.widens_makeDirectories _)) hnew
  · rw [hon]
    exact hwidens _ _ hw hnew

end Attempt

end RepoSeal
