import RepoSeal.Proofs.Filters
import RepoSeal.Proofs.Migration

/-!
# RepoSeal — calls of the program

A call runs one command in a session, on the tree that the calls before it left. No command takes a key
away from version 0 (`keeps_run`), so none does whatever the calls are, and what a key seals in a tree
that only calls have changed it also opens (`Tree.Keyless.keys_first`). Wrapped keys lie in directories
of version 0 as long as no link has that name (`afterCalls_linked`).
-/

namespace RepoSeal

variable {t start : Tree} {kf : KeyFile} {place : Workplace} {key : KeyChoice}

open Attempt

namespace Command

/-- No command makes a key of another version, or puts a copy elsewhere. -/
theorem keeps_run (place : Workplace) (hscheme : place.scheme.Reliable) (command : Command) :
    (command.run place).Keeps (Managed place.scheme start) fun _ => True := by
  cases command with
  | clean key => exact keeps_sealInput place key
  | smudge key => exact keeps_openInput place key
  | diff file key => exact keeps_openForDiff place file key
  | keygen p name => exact keeps_generateKey hscheme p name
  | exportKey p key => exact keeps_copyKey hscheme place p key
  | migrateKey old new => exact keeps_convertKey hscheme old new
  | unlock files => exact keeps_installKeys place hscheme files
  | addCollaborator recipients trusted name => exact keeps_share place hscheme recipients trusted name
  | lsCollaborators => exact keeps_listShared place

end Command

/-! ## Sessions -/

namespace Session

def outcomeOf : Except Failure Ending → Outcome
  | .ok ending => .ended ending
  | .error f => .failed f

/-- A session ends as its command does; only what is logged of it differs. -/
theorem exists_run_eq (s : Session) (w : World) :
    ∃ started log, s.run.run w =
      (outcomeOf ((s.invocation.command.run s.workplace).on { w with log := started }).1,
        { ((s.invocation.command.run s.workplace).on { w with log := started }).2 with log }) := by
  obtain ⟨log, hrun⟩ := Plan.run_logging s.filter.passes (do
    Plan.log [s.startingEvent]
    match ← (s.invocation.command.run s.workplace).run with
    | .ok ending => return .ended ending
    | .error f => return .failed f : Plan Outcome) w w.log
  refine ⟨w.log ++ [s.startingEvent], log, hrun.trans ?_⟩
  rw [Plan.run_bind, Plan.run_log, Plan.run_bind]
  unfold Attempt.on
  dsimp only
  rcases (s.invocation.command.run s.workplace).run.run { w with log := w.log ++ [s.startingEvent] }
    with ⟨_ | _, w'⟩
  · rfl
  · rfl

theorem status_outcomeOf_eq_zero {r : Except Failure Ending} (h : (outcomeOf r).status = 0) :
    r = .ok .done := by
  cases r with
  | error f => cases h
  | ok ending =>
    cases ending with
    | done => rfl
    | tampered => cases h

end Session

/-! ## Calls one after the other -/

/-- A call of the program: a session and its surroundings, all but the tree. -/
structure Call where
  session : Session
  world : World

def Call.on (c : Call) (t : Tree) : Outcome × World := c.session.run.run { c.world with tree := t }

namespace Tree

/-- The tree after calls, one after the other. -/
def afterCalls (start : Tree) (calls : List Call) : Tree :=
  calls.foldl (fun t c => (c.on t).2.tree) start

/-- No file is a key file, and from none a private key gets one. -/
structure Keyless (t : Tree) (scheme : Age.Scheme) : Prop where
  not_loaded : ∀ loc content mode kf, t.find? loc = some (.file content mode) →
    KeyFile.decode content ≠ .ok kf
  not_wrapped : ∀ loc content mode kf, t.find? loc = some (.file content mode) →
    ¬ scheme.Wraps content kf

/-- Whatever one call seals, another one with the same key and configuration opens afterwards. -/
def Reopens (t : Tree) : Prop :=
  ∀ (c c' : Call) (key : KeyChoice) (p : Bytes) (schedule schedule' : Schedule),
    c.session.invocation.command = .clean key → c'.session.invocation.command = .smudge key →
    c'.session.workplace = c.session.workplace →
    c.world.input = { rest := p, schedule } → c.world.printed = [] → (c.on t).1.status = 0 →
    c'.world.input = { rest := (c.on t).2.printed, schedule := schedule' } → c'.world.printed = [] →
      (c'.on (c.on t).2.tree).1.status = 0 ∧ (c'.on (c.on t).2.tree).2.printed = p

end Tree

variable {scheme : Age.Scheme} {calls : List Call} {c c' : Call}

theorem Tree.Keyless.managed (h : start.Keyless scheme) : Managed scheme start start where
  loaded loc content mode kf hfile hkf := absurd hkf (h.not_loaded loc content mode kf hfile)
  wrapped loc content mode kf hfile hkf := absurd hkf (h.not_wrapped loc content mode kf hfile)
  filed _ loc content mode kf hfile hkf := absurd hkf (h.not_wrapped loc content mode kf hfile)
  links _ _ hlink := hlink

/-- A call does what its command does; only what is logged of it differs. -/
theorem Call.exists_on_eq (c : Call) (t : Tree) :
    ∃ w log : _, w.tree = t ∧ w.input = c.world.input ∧ w.printed = c.world.printed ∧
      c.on t =
        (Session.outcomeOf ((c.session.invocation.command.run c.session.workplace).on w).1,
          { ((c.session.invocation.command.run c.session.workplace).on w).2 with log }) := by
  obtain ⟨started, log, hrun⟩ := c.session.exists_run_eq { c.world with tree := t }
  exact ⟨{ c.world with tree := t, log := started }, log, rfl, rfl, rfl, hrun⟩

namespace Managed

theorem on_call (h : Managed scheme start t) (hscheme : scheme.Reliable)
    (hc : c.session.workplace.scheme = scheme) : Managed scheme start (c.on t).2.tree := by
  subst hc
  obtain ⟨w, log, rfl, -, -, hon⟩ := c.exists_on_eq t
  rw [hon]
  exact (Command.keeps_run c.session.workplace hscheme c.session.invocation.command w h).1

theorem on_calls (h : Managed scheme start t) (hscheme : scheme.Reliable)
    (hcalls : ∀ c ∈ calls, c.session.workplace.scheme = scheme) :
    Managed scheme start (t.afterCalls calls) := by
  induction calls generalizing t with
  | nil => exact h
  | cons c calls ih =>
    obtain ⟨hc, hcalls⟩ := List.forall_mem_cons.mp hcalls
    exact ih (h.on_call hscheme hc) hcalls

theorem reopens (h : Managed scheme start t) : t.Reopens := by
  intro c c' key p schedule schedule' hclean hsmudge hplace hinput hprinted hdone hinput' hprinted'
  obtain ⟨w, log, rfl, hin, hout, hon⟩ := c.exists_on_eq t
  obtain ⟨w', log', htree', hin', hout', hon'⟩ := c'.exists_on_eq (c.on w.tree).2.tree
  rw [hclean] at hon
  rw [hon] at hdone htree' hinput'
  obtain ⟨hopened, hprints⟩ := Command.openInput_of_sealInput h (hin.trans hinput)
    (hout.trans hprinted) (Session.status_outcomeOf_eq_zero hdone) htree' (hin'.trans hinput')
  rw [hon', hsmudge, hplace]
  exact ⟨congrArg (fun r => (Session.outcomeOf r).status) hopened,
    hprints.trans (by rw [hout', hprinted', List.nil_append])⟩

end Managed

/-- **Keys stay at version 0.** Whatever calls changed a tree without keys, one after the other, every key
file that can be loaded from it or unwrapped has version 0 and no other, and what a key seals it opens. A
wrapped one lies in a directory of version 0, if no link had that name to begin with. -/
theorem Tree.Keyless.keys_first (hstart : start.Keyless scheme) (hscheme : scheme.Reliable)
    (hcalls : ∀ c ∈ calls, c.session.workplace.scheme = scheme) :
    (∀ p kf, (KeyFile.loadFrom p).Gives (start.afterCalls calls) (.ok kf) → kf.IsFirst) ∧
    (∀ loc content mode kf, (start.afterCalls calls).find? loc = some (.file content mode) →
      scheme.Wraps content kf →
        kf.IsFirst ∧ (start.PlainZero → ∃ above file, loc = above ++ ["0", file])) ∧
    (start.afterCalls calls).Reopens := by
  have hmanaged := hstart.managed.on_calls hscheme hcalls
  refine ⟨fun p kf hload => ?_, fun loc content mode kf hfile hkf => ?_, hmanaged.reopens⟩
  · have hkeeps := KeyFile.keeps_loadFrom p { tree := start.afterCalls calls } hmanaged
    exact hkeeps.2 kf (hload { tree := start.afterCalls calls } rfl).1
  · exact ⟨hmanaged.wrapped loc content mode kf hfile hkf,
      fun hzero => hmanaged.filed hzero loc content mode kf hfile hkf⟩

/-! ## Giving and copying keys -/

/-- A recipient without a copy is given one. -/
theorem Store.tree_addCollaborators {s : Store} {w : World} {entry : KeyEntry} {p : Path}
    {text f : String} {trusted : Bool} {content : Bytes} {loc : Location}
    (hf : s.wrapper.fingerprint text = .ok f)
    (hp : s.blobPath ((none : Option KeyName).map KeyName.text) entry.version f = p)
    (hwrap : ∀ seed, s.wrapper.wrap seed (KeyFile.single none entry).encode f trusted = .ok content)
    (habsent : w.tree.presence p = .absent) (haccepts : w.tree.Accepts p loc) :
    ((s.addCollaborators (.single none entry) [text] trusted).on w).2.tree =
      w.tree.put loc (.file content Tree.privateMode) := by
  subst hp
  have hmap : [text].mapM s.wrapper.fingerprint = .ok [f] := by
    rw [List.mapM_cons, hf]
    rfl
  have hlatest : (KeyFile.single none entry).requireLatest = .ok entry := rfl
  have haccepts' : { w with
      log := w.log ++ s.wrapper.wrapEvents f trusted
      drawn := w.drawn + s.wrapper.seedLength }.tree.Accepts
        (s.blobPath ((none : Option KeyName).map KeyName.text) entry.version f) loc := haccepts
  rw [addCollaborators, hmap, hlatest, on_bind, on_ofExcept]
  dsimp only
  rw [on_bind, on_ofExcept]
  dsimp only
  rw [on_bind, on_ofExcept, KeyFile.add_empty]
  dsimp only
  rw [KeyFile.name_single, on_addEach_absent habsent, on_wrapFor, hwrap]
  dsimp only
  rw [on_putBlob_of_accepts haccepts']
  rfl

namespace Command

/-- Sharing a key changes the tree as adding the recipients does. -/
theorem tree_share {w : World} {name : Option String} (recipients : List String) (trusted : Bool)
    (hload : (place.loadKey { name }).Gives w.tree (.ok kf)) :
    ∃ log, ((share place recipients trusted name).on w).2.tree =
      (((place.store []).addCollaborators kf recipients
        (trusted || place.config.identities.trustRecipients)).on { w with log }).2.tree := by
  obtain ⟨r, log, hgives, hon⟩ := place.exists_on_loadKey { name } w
  have hsame := hgives.unique hload
  refine ⟨log, ?_⟩
  rw [share, on_bind, hon, hsame]
  dsimp only
  rw [on_bind, on_inLibrary]
  rcases ((place.store []).addCollaborators kf recipients
    (trusted || place.config.identities.trustRecipients)).on { w with log } with ⟨_ | added, w'⟩
  · rfl
  · dsimp only [Except.mapError]
    -- what is told of it changes nothing
    have hlines : (do
        Attempt.ask (added.forM fun p => Plan.writeLine s!"Added {p}")
        return .done : Attempt Failure Ending).Keeps (· = w'.tree) fun _ => True := keeps_lines _ _
    split
    · exact (((keeps_ask (Plan.still_writeLine _)).andThen fun _ => hlines) w' rfl).1
    · exact (hlines w' rfl).1

theorem tree_copyKey {w : World} {p : Path} {loc : Location}
    (hload : (place.loadKey key).Gives w.tree (.ok kf)) (hp : namesOutput p = false)
    (haccepts : w.tree.Accepts p loc) :
    ((copyKey place p key).on w).2.tree = w.tree.put loc (.file kf.encode Tree.privateMode) := by
  obtain ⟨r, log, hgives, hon⟩ := place.exists_on_loadKey key w
  have hsame := hgives.unique hload
  rw [copyKey, on_bind, hon, hsame]
  dsimp only
  rw [hp, if_neg Bool.false_ne_true, on_bind, on_inLibrary, KeyFile.storeAt_eq, on_bind,
    Store.on_putBlob_of_accepts (w := { w with log }) haccepts]
  rfl

end Command

/-! ## A scheme that hides nothing -/

namespace Age

/-- The front of a file for a recipient: how an age file begins, and the public key. -/
def bareFront (recipient : X25519.PublicKey) : Bytes := Header.magic ++ recipient.toList

theorem length_bareFront (recipient other : X25519.PublicKey) :
    (bareFront recipient).length = (bareFront other).length := by
  rw [bareFront, bareFront, List.length_append, List.length_append, recipient.length_toList,
    other.length_toList]

theorem foreign_bareFront (recipient : X25519.PublicKey) (content : Bytes) :
    ¬ KeyFile.magic <+: bareFront recipient ++ content := by
  refine foreign_of_magic ?_
  rw [bareFront, List.append_assoc]
  exact List.prefix_append _ _

/-- A scheme that only notes for whom a file is, and reads it for nobody else. -/
def Scheme.bare : Scheme where
  encrypt _ recipient content := bareFront recipient ++ content
  decrypt identity data :=
    let front := bareFront (X25519.publicKey identity)
    if front.isPrefixOf data then .ok (data.drop front.length) else .error .noMatch

theorem decrypt_bare_eq_ok {identity : X25519.PrivateKey} {data plaintext : Bytes} :
    Scheme.bare.decrypt identity data = .ok plaintext ↔
      data = bareFront (X25519.publicKey identity) ++ plaintext := by
  show (if (bareFront (X25519.publicKey identity)).isPrefixOf data then _ else _) = _ ↔ _
  constructor
  · intro h
    split at h
    · rename_i hfront
      cases h
      obtain ⟨rest, rfl⟩ := List.isPrefixOf_iff_prefix.mp hfront
      rw [List.drop_left]
    · cases h
  · rintro rfl
    rw [if_pos (List.isPrefixOf_iff_prefix.mpr (List.prefix_append _ _)), List.drop_left]

theorem bare_reliable : Scheme.bare.Reliable where
  faithful _ recipient content identity plaintext h :=
    ((List.append_inj (decrypt_bare_eq_ok.mp h)
      (length_bareFront recipient (X25519.publicKey identity))).2).symm
  encrypt_foreign _ recipient content := foreign_bareFront recipient content
  decrypt_foreign identity data plaintext h := by
    rw [decrypt_bare_eq_ok.mp h]
    exact foreign_bareFront _ _

end Age

/-! ## A key that is given to one recipient -/

namespace Handover

open Command

def identity : X25519.PrivateKey := .replicate 32 7

/-- The text of the public key. -/
def recipient : String := "age1zwlyl6h27gzv0lfntr7fcqrjrzqazap8sy5zylkxwneh7llf0dksu37mwt"

theorem parse_recipient : Age.parseRecipient recipient = .ok (X25519.publicKey identity) := by
  decide +kernel

theorem write_recipient : Age.writeRecipient (X25519.publicKey identity) = recipient := by
  decide +kernel

/-- Where that scheme is used, and all else is as by default. -/
def workplace : Workplace := { anywhere with scheme := .bare }

def callOf (command : Command) (input : Source) : Call where
  session := { invocation := { command }, workplace, format := .text, filter := ⟨[]⟩ }
  world := { input }

theorem tree_callOf {command : Command} {input : Source} {t t' : Tree}
    (h : ∀ w : World, w.tree = t → ((command.run workplace).on w).2.tree = t') :
    ((callOf command input).on t).2.tree = t' := by
  obtain ⟨w, log, hw, -, -, hon⟩ := (callOf command input).exists_on_eq t
  rw [hon]
  exact h w hw

/-! The trees: a node `zero` has the name of version 0, in the directory where copies of the default key
go. It is a directory, or a link to the directory beside it. -/

def keysLoc : Location := [".git", "git-crypt", "keys"]

def copiesLoc : Location := [".git-crypt", "keys", "default"]

def keyPath : Path := ⟨".git/git-crypt/keys/default"⟩

def zeroPath : Path := ⟨".git-crypt/keys/default/0"⟩

def copyName : String := recipient ++ ".age"

/-- What the copy of the key is. -/
def copy : Bytes := Age.bareFront (X25519.publicKey identity) ++ (framed oldKey).encode

/-- A key without framing, and directories for keys. -/
def startTree (zero : Node) : Tree where
  nodes := [(["old"], .file oldKey.toList Tree.plainMode), ([".git"], .directory),
    ([".git", "git-crypt"], .directory), (keysLoc, .directory), ([".git-crypt"], .directory),
    ([".git-crypt", "keys"], .directory), (copiesLoc, .directory), (copiesLoc ++ ["5"], .directory),
    (copiesLoc ++ ["0"], zero)]

/-- With a key file that was made of the key. -/
def keyedTree (zero : Node) : Tree :=
  (startTree zero).put (keysLoc ++ ["default"]) (.file (framed oldKey).encode Tree.privateMode)

/-- And with a copy for the recipient in a directory. -/
def copiedTree (zero : Node) (loc : Location) : Tree :=
  (keyedTree zero).put (loc ++ [copyName]) (.file copy Tree.privateMode)

variable {t : Tree} {zero node : Node} {loc : Location}

theorem exists_mem_nodes (h : t.find? loc = some node) (hnode : node ≠ .directory) :
    ∃ at_, (at_, node) ∈ t.nodes := by
  unfold Tree.find? at h
  split at h
  · exact absurd (Option.some.inj h).symm hnode
  · obtain ⟨⟨at_, node⟩, hfind, rfl⟩ := Option.map_eq_some_iff.mp h
    exact ⟨at_, List.mem_of_find?_eq_some hfind⟩

theorem wraps_copy : Age.Scheme.bare.Wraps copy (framed oldKey) :=
  ⟨identity, (framed oldKey).encode, Age.decrypt_bare_eq_ok.mpr rfl, KeyFile.decode_encode _⟩

theorem keyless_startTree (hzero : ∀ content mode, zero ≠ .file content mode) :
    (startTree zero).Keyless .bare := by
  have hold : ∀ loc content mode, (startTree zero).find? loc = some (.file content mode) →
      content = oldKey.toList := by
    intro loc content mode h
    obtain ⟨at_, hmem⟩ := exists_mem_nodes h (by simp)
    simp only [startTree, List.mem_cons, Prod.mk.injEq, Node.file.injEq, reduceCtorEq, and_false,
      false_or, List.not_mem_nil, or_false] at hmem
    rcases hmem with ⟨-, rfl, -⟩ | ⟨-, hfile⟩
    · rfl
    · exact absurd hfile.symm (hzero content mode)
  refine ⟨fun loc content mode kf h hkf => ?_, fun loc content mode kf h hkf => ?_⟩
  · rw [hold loc content mode h] at hkf
    exact isUnframed_oldKey.2 (KeyFile.magic_prefix_of_decode hkf)
  · obtain ⟨identity, plaintext, hdecrypt, -⟩ := hkf
    rw [hold loc content mode h] at hdecrypt
    have hage : Age.Header.magic <+: oldKey.toList := by
      rw [Age.decrypt_bare_eq_ok.mp hdecrypt, Age.bareFront, List.append_assoc]
      exact List.prefix_append _ _
    exact absurd hage (by decide)

theorem reaches_keys : (startTree zero).Reaches ⟨".git/git-crypt/keys"⟩ keysLoc :=
  ⟨by decide, by decide, by decide, Tree.maxLinks, Tree.goes_along (by decide) fun n hn =>
    match n, hn with
    | 0, _ => rfl
    | 1, _ => rfl
    | 2, _ => rfl⟩

theorem goes_copies :
    Tree.Goes (startTree zero) Tree.maxLinks [] copiesLoc Tree.maxLinks ([] ++ copiesLoc) :=
  Tree.goes_along (by decide) fun n hn =>
    match n, hn with
    | 0, _ => rfl
    | 1, _ => rfl
    | 2, _ => rfl

theorem reaches_copies : (startTree zero).Reaches ⟨".git-crypt/keys/default"⟩ copiesLoc :=
  ⟨by decide, by decide, by decide, Tree.maxLinks, goes_copies⟩

theorem reaches_zero {k : Nat} (h : Tree.Goes (startTree zero) Tree.maxLinks copiesLoc ["0"] k loc) :
    (startTree zero).Reaches zeroPath loc :=
  ⟨by decide, by decide, by decide, k, goes_copies.append h⟩

theorem startTree_grows : (startTree zero).Grows (keyedTree zero) := Tree.grows_put rfl _

theorem isStep_default : Path.IsStep "default" :=
  ⟨⟨by decide, by decide, by decide⟩, by decide, by decide⟩

theorem gives_loadKey (h : (keyedTree zero).Grows t) :
    (workplace.loadKey {}).Gives t (.ok (framed oldKey)) := by
  have hentry : (keyedTree zero).NamesEntry keyPath keysLoc "default" :=
    (reaches_keys.grows startTree_grows).namesEntry isStep_default (by decide) (by decide)
  exact workplace.gives_loadKey rfl (h.contentsAt (hentry.contentsAt rfl))

def migrate : Call := callOf (.migrateKey ⟨"old"⟩ keyPath) { rest := [] }

def give : Call := callOf (.addCollaborator [recipient] false none) { rest := [] }

theorem tree_migrate : (migrate.on (startTree zero)).2.tree = keyedTree zero := by
  have hold : (startTree zero).NamesEntry ⟨"old"⟩ [] "old" :=
    ⟨by decide, by decide, by decide, by decide, by decide, by decide, by decide, by decide,
      [], Tree.maxLinks, by decide, .done _ _⟩
  have hread : (startTree zero).contentsAt ⟨"old"⟩ = .ok oldKey.toList := hold.contentsAt rfl
  have hnone : (startTree zero).find? (keysLoc ++ ["default"]) = none := rfl
  have haccepts : (startTree zero).Accepts keyPath (keysLoc ++ ["default"]) :=
    reaches_keys.accepts (by decide) (by decide) isStep_default (by decide) (by decide)
      (by simp [hnone])
  refine tree_callOf fun w hw => ?_
  rw [← hw] at hread haccepts
  exact (on_convertKey_of_accepts hread isUnframed_oldKey.2 haccepts).2.trans (by rw [hw]; rfl)

theorem tree_give (hzero : (startTree zero).Reaches zeroPath loc)
    (hnone : (keyedTree zero).find? (loc ++ [copyName]) = none) :
    (give.on (keyedTree zero)).2.tree = copiedTree zero loc := by
  have hstep : Path.IsStep copyName := ⟨⟨by decide, by decide, by decide⟩, by decide, by decide⟩
  have hkeyed := hzero.grows startTree_grows
  have hentry := hkeyed.namesEntry hstep (by decide) (by decide)
  have haccepts := hkeyed.accepts rfl (by decide) hstep (by decide) (by decide) (by simp [hnone])
  refine tree_callOf fun w hw => ?_
  have hload : (workplace.loadKey { name := none }).Gives w.tree (.ok (framed oldKey)) :=
    hw ▸ gives_loadKey fun _ _ h => h
  rw [← hw] at hentry haccepts hnone
  obtain ⟨log, hshare⟩ := tree_share [recipient] false hload
  have hput : (((workplace.store []).addCollaborators (.single none (.ofMaterial 0 oldKey)) [recipient]
      false).on { w with log }).2.tree =
        w.tree.put (loc ++ [copyName]) (.file copy Tree.privateMode) := by
    have hplace : (workplace.store []).blobPath ((none : Option KeyName).map KeyName.text)
        (KeyEntry.ofMaterial 0 oldKey).version recipient = zeroPath / copyName := by decide
    refine Store.tree_addCollaborators ?_ hplace (fun seed => ?_) (hentry.presence_of_none hnone)
      haccepts
    · exact (Age.fingerprint_of_parse parse_recipient).trans (congrArg _ write_recipient)
    · exact Age.wrap_of_parse parse_recipient
  have htrusted : (false || workplace.config.identities.trustRecipients) = false := rfl
  have hkey : framed oldKey = .single none (.ofMaterial 0 oldKey) := rfl
  show ((share workplace [recipient] false none).on w).2.tree = _
  rw [hshare, htrusted, hkey, hput, copiedTree, hw]

theorem afterCalls_give (hzero : (startTree zero).Reaches zeroPath loc)
    (hnone : (keyedTree zero).find? (loc ++ [copyName]) = none) :
    (startTree zero).afterCalls [migrate, give] = copiedTree zero loc := by
  show (give.on (migrate.on (startTree zero)).2.tree).2.tree = _
  rw [tree_migrate, tree_give hzero hnone]

/-! ## Where version 0 has a directory -/

theorem reaches_directory : (startTree .directory).Reaches zeroPath (copiesLoc ++ ["0"]) :=
  reaches_zero (.into (by decide) (by decide) (by decide) (by decide) rfl (.done _ _))

/-- The tree with a copy in the directory of version 0. -/
def sharedTree : Tree := copiedTree .directory (copiesLoc ++ ["0"])

def sealing : Call := callOf (.clean {}) { rest := [1, 2, 3] }

def opening : Call := callOf (.smudge {}) { rest := (sealing.on sharedTree).2.printed }

theorem status_sealing : (sealing.on sharedTree).1.status = 0 := by
  obtain ⟨w, log, hw, hinput, -, hon⟩ := sealing.exists_on_eq sharedTree
  have hload : (workplace.loadKey {}).Gives w.tree (.ok (framed oldKey)) :=
    hw ▸ gives_loadKey (Tree.grows_put rfl _)
  have hlatest : (framed oldKey).requireLatest = .ok (.ofMaterial 0 oldKey) := rfl
  obtain ⟨hsealed, -⟩ := Envelope.sealWith_unlimited (.ofMaterial 0 oldKey) workplace.config.options
    [1, 2, 3] .prompt .prompt (by decide) (by decide)
  have hdone := (on_sealInput hload hlatest).1.mpr ⟨3, by rw [hinput]; exact hsealed⟩
  rw [hon]
  exact congrArg (fun r => (Session.outcomeOf r).status) hdone

/-- A key that was made of one without framing, a copy of it, and what it seals and opens. -/
theorem keys_first_sharedTree :
    (startTree .directory).PlainZero ∧ (startTree .directory).afterCalls [migrate, give] = sharedTree ∧
      sharedTree.find? (copiesLoc ++ ["0"] ++ [copyName]) = some (.file copy Tree.privateMode) ∧
      Age.Scheme.bare.Wraps copy (framed oldKey) ∧ (framed oldKey).IsFirst ∧
      (sealing.on sharedTree).1.status = 0 ∧
      (opening.on (sealing.on sharedTree).2.tree).1.status = 0 ∧
      (opening.on (sealing.on sharedTree).2.tree).2.printed = [1, 2, 3] := by
  have hcalls : (startTree .directory).afterCalls [migrate, give] = sharedTree :=
    afterCalls_give reaches_directory rfl
  have hkeyless : (startTree .directory).Keyless .bare :=
    keyless_startTree fun _ _ hfile => by cases hfile
  have hzero : (startTree .directory).PlainZero := by
    intro above target hlink
    obtain ⟨at_, hmem⟩ := exists_mem_nodes hlink (by simp)
    simp [startTree] at hmem
  have hcopy : sharedTree.find? (copiesLoc ++ ["0"] ++ [copyName]) =
      some (.file copy Tree.privateMode) := by
    rw [sharedTree, copiedTree, Tree.find?_put, if_pos rfl]
  have hscheme : ∀ c ∈ [migrate, give], c.session.workplace.scheme = .bare := by
    simp [migrate, give, callOf, workplace]
  obtain ⟨-, hwrapped, hopens⟩ := hkeyless.keys_first Age.bare_reliable hscheme
  rw [hcalls] at hwrapped hopens
  obtain ⟨hopened, hprinted⟩ := hopens sealing opening {} [1, 2, 3] _ _ rfl rfl rfl rfl rfl
    status_sealing rfl rfl
  exact ⟨hzero, hcalls, hcopy, wraps_copy, (hwrapped _ _ _ _ hcopy wraps_copy).1, status_sealing,
    hopened, hprinted⟩

/-! ## Where version 0 has a link -/

def linkedTree : Tree := startTree (.link ⟨"5"⟩)

/-- The tree with a copy in the directory that the link leads to. -/
def strayTree : Tree := copiedTree (.link ⟨"5"⟩) (copiesLoc ++ ["5"])

theorem reaches_link : linkedTree.Reaches zeroPath (copiesLoc ++ ["5"]) :=
  reaches_zero (.follow (by decide) (by decide) (by decide) (by decide) rfl (by decide)
    (.into (by decide) (by decide) (by decide) (by decide) rfl (.done _ _)))

/-- Another copy of the key takes the place of the link. -/
def unlink : Call := callOf (.exportKey zeroPath {}) { rest := [] }

theorem tree_unlink : (unlink.on strayTree).2.tree =
    strayTree.put (copiesLoc ++ ["0"]) (.file (framed oldKey).encode Tree.privateMode) := by
  have hkeyed : (keyedTree (.link ⟨"5"⟩)).Grows strayTree := Tree.grows_put rfl _
  have hgrows : linkedTree.Grows strayTree := fun loc node h => hkeyed loc node (startTree_grows loc node h)
  have haccepts : strayTree.Accepts zeroPath (copiesLoc ++ ["0"]) :=
    (reaches_copies.grows hgrows).accepts (by decide) (by decide)
      ⟨⟨by decide, by decide, by decide⟩, by decide, by decide⟩ (by decide) (by decide) (by decide)
  have hload := gives_loadKey hkeyed
  refine tree_callOf fun w hw => ?_
  rw [← hw] at hload haccepts
  exact (tree_copyKey hload (by decide) haccepts).trans (by rw [hw])

/-- The copy lies in the directory of another version, and no directory of version 0 is left. -/
theorem afterCalls_linked :
    Age.Scheme.bare.Reliable ∧ linkedTree.Keyless .bare ∧
      (∀ c ∈ [migrate, give, unlink], c.session.workplace.scheme = .bare) ∧
      ∃ loc content mode kf,
        (linkedTree.afterCalls [migrate, give, unlink]).find? loc = some (.file content mode) ∧
        Age.Scheme.bare.Wraps content kf ∧ ¬ ∃ above file, loc = above ++ ["0", file] := by
  have hgiven : linkedTree.afterCalls [migrate, give] = strayTree := afterCalls_give reaches_link rfl
  have hcalls : linkedTree.afterCalls [migrate, give, unlink] =
      strayTree.put (copiesLoc ++ ["0"]) (.file (framed oldKey).encode Tree.privateMode) :=
    (congrArg (fun t => (unlink.on t).2.tree) hgiven).trans tree_unlink
  have hkeyless : linkedTree.Keyless .bare := keyless_startTree fun _ _ hfile => by cases hfile
  refine ⟨Age.bare_reliable, hkeyless, by simp [migrate, give, unlink, callOf, workplace],
    copiesLoc ++ ["5"] ++ [copyName], copy, Tree.privateMode, framed oldKey, ?_, wraps_copy, ?_⟩
  · rw [hcalls, Tree.find?_put, if_neg (by decide), strayTree, copiedTree, Tree.find?_put, if_pos rfl]
  · rintro ⟨above, file, habove⟩
    rw [List.append_cons above "0" [file]] at habove
    have hversion := (List.append_inj' (List.append_inj' habove rfl).1 rfl).2
    exact absurd hversion (by decide)

end Handover

end RepoSeal
