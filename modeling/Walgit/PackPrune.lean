import Mathlib

/-!
# Which packs a repository handle prunes

A pack lies on disk under its final name before the manifest lists it, and a pass of the
reconciler takes every pack off the disk that its manifest does not list. What keeps the
two apart are the prune lock, the guards on staged packs and the lock of the readers. Each
section of the code between two looks at what is shared is a step here, and the sections
of all requests come in any order.
-/

namespace Walgit.PackPrune

section Code

variable {κ : Type}

/-- What packs need of a manifest. -/
structure Manifest (κ : Type) where
  revision : ℕ
  headSeq : ℕ
  packs : List κ

structure RepoState (κ : Type) where
  revision : ℕ
  packsRevision : ℕ
  packsDirty : Bool
  pendingPackRemovals : List κ

/-- The fields of `RepoHandle` that packs go by, and the packs its local repository holds. -/
structure Handle (κ : Type) where
  manifest : Manifest κ
  state : RepoState κ
  packsVerified : Bool
  stagedPacks : κ → ℕ
  pruneLock : Bool
  readers : ℕ
  writing : Bool
  packs : List κ

/-- Who holds a guard: a request that took the prune lock first (`receive-pack`, `follow`, a
compaction), the task that waits for the publisher, or `add_pack`, which takes no lock. -/
inductive Origin
  | writer
  | waiter
  | adder
  deriving DecidableEq

/-- How far the drop of a guard is. -/
inductive Ending (κ : Type)
  | none
  | unstaged (p : κ)
  | orphan (p : κ)
  deriving DecidableEq

structure Task (κ : Type) where
  origin : Origin
  cleared : Bool
  visible : List κ
  guards : List κ
  publishing : List κ
  ending : Ending κ
  deriving DecidableEq

/-- Where `reconcile_packs_inner` stands, with what it holds there. -/
inductive Pass (κ : Type)
  | idle
  | took (m : Manifest κ)
  | installing (m : Manifest κ)
  | locked (m : Manifest κ)
  | sorting (m : Manifest κ) (listed : Bool) (todo candidates deferred : List κ)
  | holding (m : Manifest κ) (candidates deferred : List κ)
  | rechecking (m : Manifest κ) (liveNow todo doomed deferred : List κ)
  | removing (m : Manifest κ) (doomed deferred : List κ)
  | closing (m : Manifest κ) (still : List κ)
  | stating (m : Manifest κ)
  | checking (m : Manifest κ)
  | marking (m : Manifest κ)
  | leaving

/-- Where the sync that holds the `sync_mutex` stands. -/
inductive Sync (κ : Type)
  | idle
  | fetched (m : Manifest κ)
  | emptied (m : Manifest κ) (packsEmpty : Bool)
  | replayed (m : Manifest κ)
  | applied (m : Manifest κ)

variable [DecidableEq κ]

def RepoState.packsReady (st : RepoState κ) : Bool :=
  !st.packsDirty && st.packsRevision == st.revision && st.pendingPackRemovals.isEmpty

/-- What every place that adds to `pending_pack_removals` does. -/
def RepoState.pend (st : RepoState κ) : List κ → RepoState κ
  | [] => st
  | p :: ps =>
    if p ∈ st.pendingPackRemovals then st.pend ps
    else pend { st with pendingPackRemovals := st.pendingPackRemovals ++ [p] } ps

def Handle.packStaged (h : Handle κ) (p : κ) : Bool := h.stagedPacks p != 0

def Handle.stagePack (h : Handle κ) (p : κ) : Handle κ :=
  { h with stagedPacks := Function.update h.stagedPacks p (h.stagedPacks p + 1) }

/-- Whether the guard was the last on the pack. -/
def Handle.unstagePack (h : Handle κ) (p : κ) : Bool × Handle κ :=
  if 1 < h.stagedPacks p then
    (false, { h with stagedPacks := Function.update h.stagedPacks p (h.stagedPacks p - 1) })
  else if h.stagedPacks p = 1 then
    (true, { h with stagedPacks := Function.update h.stagedPacks p 0 })
  else (false, h)

/-- The end of the drop of a guard whose pack is not live. -/
def Handle.recordOrphan (h : Handle κ) (p : κ) : Handle κ :=
  { h with state := { h.state.pend [p] with packsDirty := true } }

/-- What an ingest or an install adds to the local packs and what a repack takes off them. -/
def Handle.install (h : Handle κ) (gone new : List κ) : Handle κ :=
  { h with packs := h.packs.filter (· ∉ gone) ++ new }

/-- The manifest of a batch of pushes; without packs that of a checkpoint, of an annotation or of
new settings. -/
def Manifest.publish (m : Manifest κ) (headSeq : ℕ) (packs : List κ) : Manifest κ :=
  ⟨m.revision + 1, headSeq, m.packs ++ packs⟩

def Manifest.compact (m : Manifest κ) (headSeq : ℕ) (p : κ) (supersedes : List κ) : Manifest κ :=
  ⟨m.revision + 1, headSeq, m.packs.filter (· ∉ supersedes) ++ [p]⟩

/-- What a sync does to the state where the manifest it read has no entries. -/
def RepoState.reset (st : RepoState κ) (m : Manifest κ) (packsEmpty : Bool) : RepoState κ :=
  { st with
    packsDirty := !packsEmpty
    packsRevision := if m.packs = [] ∧ packsEmpty then m.revision else st.packsRevision }

/-- A commit that is in the store. New settings and an annotation do not look at whether the packs
of the handle were ready; every other commit does. -/
structure Landed (κ : Type) where
  manifest : Manifest κ
  supersedes : List κ
  looks : Bool

/-- What a commit does to the state once the manifest is swapped. -/
def RepoState.note (st : RepoState κ) (c : Landed κ) : RepoState κ :=
  let st := st.pend c.supersedes
  if c.looks && st.packsReady then
    { st with revision := c.manifest.revision, packsRevision := c.manifest.revision }
  else { st with revision := c.manifest.revision }

/-- How far a sync goes. -/
inductive SyncLevel
  | refs
  | serve
  | full
  deriving DecidableEq

/-- `mountable` and `linked` are what the disk says of packs that are not stored there. -/
def Handle.levelSatisfied (h : Handle κ) (level : SyncLevel) (mountable linked : Bool) : Bool :=
  match level with
  | .refs => true
  | .serve => h.packsVerified && h.state.packsReady && !mountable
  | .full => h.packsVerified && h.state.packsReady && !linked

/-- One pack of the first scan: `candidates` is a set, `deferred` the list of staged packs. -/
def Handle.sort (h : Handle κ) (m : Manifest κ) (p : κ) (candidates deferred : List κ) :
    List κ × List κ :=
  if p ∈ m.packs then (candidates, deferred)
  else if h.packStaged p then (candidates, deferred ++ [p])
  else (candidates.insert p, deferred)

/-- One pack of the second look, under the write lock. -/
def Handle.recheck (h : Handle κ) (liveNow : List κ) (p : κ) (doomed deferred : List κ) :
    List κ × List κ :=
  if p ∈ liveNow ∨ h.packStaged p then (doomed, deferred ++ [p]) else (doomed ++ [p], deferred)

def Pass.pruning : Pass κ → Bool
  | .idle | .took _ | .installing _ => false
  | _ => true

def Pass.writing : Pass κ → Bool
  | .holding .. | .rechecking .. | .removing .. => true
  | _ => false

/-- A section of a pass. -/
inductive PassStep (h : Handle κ) : Pass κ → Handle κ → Pass κ → Prop
  | take : PassStep h .idle h (.took h.manifest)
  | start (m : Manifest κ) : PassStep h (.took m) { h with packsVerified := false } (.installing m)
  | install (m : Manifest κ) (p : κ) (hp : p ∈ m.packs) :
      PassStep h (.installing m) (h.install [] [p]) (.installing m)
  | busy (m : Manifest κ) (hlock : h.pruneLock) :
      PassStep h (.installing m) { h with state := { h.state with packsDirty := true } } .idle
  | lock (m : Manifest κ) (hlock : h.pruneLock = false) :
      PassStep h (.installing m) { h with pruneLock := true } (.locked m)
  | pending (m : Manifest κ) :
      PassStep h (.locked m) { h with state := { h.state with pendingPackRemovals := [] } }
        (.sorting m false h.state.pendingPackRemovals [] [])
  | sort (m : Manifest κ) (listed : Bool) (p : κ) (todo candidates deferred : List κ) :
      PassStep h (.sorting m listed (p :: todo) candidates deferred) h
        (.sorting m listed todo (h.sort m p candidates deferred).1
          (h.sort m p candidates deferred).2)
  | list (m : Manifest κ) (candidates deferred : List κ) :
      PassStep h (.sorting m false [] candidates deferred) h
        (.sorting m true h.packs candidates deferred)
  | nothing (m : Manifest κ) (deferred : List κ) :
      PassStep h (.sorting m true [] [] deferred) h (.closing m deferred)
  | write (m : Manifest κ) (candidates deferred : List κ) (hc : candidates ≠ [])
      (hread : h.readers = 0) : PassStep h (.sorting m true [] candidates deferred)
        { h with writing := true } (.holding m candidates deferred)
  | keep (m : Manifest κ) (candidates deferred : List κ) (hc : candidates ≠ [])
      (hread : h.readers ≠ 0) : PassStep h (.sorting m true [] candidates deferred) h
        (.closing m (candidates ++ deferred))
  | live (m : Manifest κ) (candidates deferred : List κ) :
      PassStep h (.holding m candidates deferred) h
        (.rechecking m h.manifest.packs candidates [] deferred)
  | recheck (m : Manifest κ) (liveNow : List κ) (p : κ) (todo doomed deferred : List κ) :
      PassStep h (.rechecking m liveNow (p :: todo) doomed deferred) h
        (.rechecking m liveNow todo (h.recheck liveNow p doomed deferred).1
          (h.recheck liveNow p doomed deferred).2)
  | doom (m : Manifest κ) (liveNow doomed deferred : List κ) :
      PassStep h (.rechecking m liveNow [] doomed deferred) h (.removing m doomed deferred)
  | remove (m : Manifest κ) (p : κ) (doomed deferred : List κ) :
      PassStep h (.removing m (p :: doomed) deferred) (h.install [p] [])
        (.removing m doomed deferred)
  | unlock (m : Manifest κ) (deferred : List κ) :
      PassStep h (.removing m [] deferred) { h with writing := false } (.closing m deferred)
  | close (m : Manifest κ) (still : List κ) :
      PassStep h (.closing m still)
        (if still = [] then h
          else { h with state := { h.state with pendingPackRemovals := still } })
        (.stating m)
  | state (m : Manifest κ) :
      PassStep h (.stating m)
        { h with state := { h.state with packsRevision := m.revision, packsDirty := false } }
        (.checking m)
  | check (m : Manifest κ) :
      PassStep h (.checking m) h (if h.state.packsReady then .marking m else .leaving)
  | mark (m : Manifest κ) : PassStep h (.marking m) { h with packsVerified := true } .leaving
  | finish : PassStep h .leaving { h with pruneLock := false } .idle
  -- Every `?` of the pass, and its future being dropped.
  | abort (P : Pass κ) :
      PassStep h P { h with
        pruneLock := h.pruneLock && !P.pruning
        writing := h.writing && !P.writing } .idle

/-- A section of a request that has packs to publish, and the requests it leaves behind. -/
inductive TaskStep (h : Handle κ) (t : Task κ) : Handle κ → List (Task κ) → Prop
  | clear (ho : t.origin = .writer) (hc : t.cleared = false) :
      TaskStep h t { h with packsVerified := false } [{ t with cleared := true }]
  | install (ho : t.origin = .writer) (hc : t.cleared) (gone new : List κ) :
      TaskStep h t (h.install gone new) [{ t with visible := t.visible ++ new }]
  | stage (p : κ) (ps : List κ) (hv : t.visible = p :: ps) :
      TaskStep h t (h.stagePack p) [{ t with visible := ps, guards := p :: t.guards }]
  | enqueue (ho : t.origin = .writer) (p : κ) (hp : p ∈ t.guards) :
      TaskStep h t (h.stagePack p) [t, ⟨.waiter, false, [], [p], [p], .none⟩]
  | compact (ho : t.origin = .writer) (p : κ) (hp : p ∈ t.guards) :
      TaskStep h t (h.stagePack p)
        [{ t with guards := p :: t.guards, publishing := p :: t.publishing }]
  | place (ho : t.origin = .adder) (p : κ) (hp : p ∈ t.guards) :
      TaskStep h t (h.install [] [p]) [{ t with publishing := [p] }]
  | answer (p : κ) (hp : p ∈ t.publishing) :
      TaskStep h t h [{ t with publishing := t.publishing.erase p }]
  | unstage (p : κ) (hp : p ∈ t.guards) (hpub : p ∉ t.publishing) (he : t.ending = .none) :
      TaskStep h t (h.unstagePack p).2
        [{ t with
          guards := t.guards.erase p
          ending := if (h.unstagePack p).1 then .unstaged p else .none }]
  | check (p : κ) (he : t.ending = .unstaged p) :
      TaskStep h t h
        [{ t with ending := if p ∈ h.manifest.packs then .none else .orphan p }]
  | record (p : κ) (he : t.ending = .orphan p) :
      TaskStep h t (h.recordOrphan p) [{ t with ending := .none }]
  | done (hg : t.guards = []) (he : t.ending = .none) (hc : t.origin = .writer → t.cleared) :
      TaskStep h t
        (if t.origin = .writer then { h with pruneLock := false } else h) []

/-- The process: `landed` holds the commits that are not in the state yet. Of the last two
fields the code has nothing: the packs that some manifest of this process listed, and those
that a push or a compaction of this process committed, whose packs come to the disk under the
prune lock, and that every manifest since lists. A pack of `add_pack` is none of them. -/
structure System (κ : Type) extends Handle κ where
  tasks : List (Task κ)
  pass : Pass κ
  sync : Sync κ
  landed : List (Landed κ)
  listed : List κ
  own : List κ

def System.published (s : System κ) (p : κ) : Bool :=
  s.tasks.any fun t => t.origin ≠ .adder ∧ p ∈ t.publishing

def System.commit (s : System κ) (c : Landed κ) (packs : List κ) : System κ :=
  { s with
    manifest := c.manifest
    landed := c :: s.landed
    listed := s.listed ++ c.manifest.packs
    own := packs.filter s.published ++ s.own.filter (· ∈ c.manifest.packs) }

def System.adopt (s : System κ) (m : Manifest κ) : System κ :=
  { s with
    manifest := m
    sync := .idle
    listed := s.listed ++ m.packs
    own := s.own.filter (· ∈ m.packs) }

inductive Step (s : System κ) : System κ → Prop
  | lock (hlock : s.pruneLock = false) :
      Step s { s with
        pruneLock := true
        tasks := ⟨.writer, false, [], [], [], .none⟩ :: s.tasks }
  | add (p : κ) :
      Step s { s with
        stagedPacks := (s.stagePack p).stagedPacks
        tasks := ⟨.adder, false, [], [p], [], .none⟩ :: s.tasks }
  | task (l r ts : List (Task κ)) (t : Task κ) (h : Handle κ) (ht : s.tasks = l ++ t :: r)
      (hstep : TaskStep s.toHandle t h ts) :
      Step s { s with toHandle := h, tasks := l ++ ts ++ r }
  | pass (h : Handle κ) (P : Pass κ) (hstep : PassStep s.toHandle s.pass h P) :
      Step s { s with toHandle := h, pass := P }
  -- A push commits under the `sync_mutex`; the manifest it was built on is an earlier one.
  | push (base : Manifest κ) (headSeq : ℕ) (packs : List κ) (hsync : s.sync = .idle)
      (hp : ∀ p ∈ packs, ∃ t ∈ s.tasks, t.origin = .waiter ∧ p ∈ t.publishing) :
      Step s (s.commit ⟨base.publish headSeq packs, [], true⟩ packs)
  | compact (base : Manifest κ) (headSeq : ℕ) (p : κ) (supersedes : List κ)
      (hp : ∃ t ∈ s.tasks, t.origin ≠ .waiter ∧ p ∈ t.publishing) :
      Step s (s.commit ⟨base.compact headSeq p supersedes, supersedes, true⟩ [p])
  -- A checkpoint, new settings or an annotation.
  | rewrite (base : Manifest κ) (headSeq : ℕ) (looks : Bool) :
      Step s (s.commit ⟨base.publish headSeq [], [], looks⟩ [])
  | note (l r : List (Landed κ)) (c : Landed κ) (hl : s.landed = l ++ c :: r) :
      Step s { s with state := s.state.note c, landed := l ++ r }
  | fetch (m : Manifest κ) (hsync : s.sync = .idle) (hrev : s.manifest.revision ≤ m.revision) :
      Step s { s with sync := .fetched m }
  | same (m : Manifest κ) (hsync : s.sync = .fetched m) (hrev : m.revision = s.manifest.revision) :
      Step s (s.adopt m)
  | empty (m : Manifest κ) (hsync : s.sync = .fetched m) (h0 : m.headSeq = 0) :
      Step s { s with sync := .emptied m s.packs.isEmpty }
  | reset (m : Manifest κ) (packsEmpty : Bool) (hsync : s.sync = .emptied m packsEmpty) :
      Step s { s with state := s.state.reset m packsEmpty, sync := .replayed m }
  | replay (m : Manifest κ) (supersedes : List κ) (hsync : s.sync = .fetched m)
      (h0 : m.headSeq ≠ 0) :
      Step s { s with state := s.state.pend supersedes, sync := .replayed m }
  | apply (m : Manifest κ) (hsync : s.sync = .replayed m) :
      Step s { s with state := { s.state with revision := m.revision }, sync := .applied m }
  | adopt (m : Manifest κ) (hsync : s.sync = .applied m) : Step s (s.adopt m)
  | fail : Step s { s with sync := .idle }
  | read (hw : s.writing = false) : Step s { s with readers := s.readers + 1 }
  | unread : Step s { s with readers := s.readers - 1 }

/-- A process that just opened the repository: what lies on disk may be anything. -/
structure System.Opened (s : System κ) : Prop where
  verified : s.packsVerified = false
  staged : ∀ p, s.stagedPacks p = 0
  lock : s.pruneLock = false
  readers : s.readers = 0
  writing : s.writing = false
  tasks : s.tasks = []
  pass : s.pass = .idle
  sync : s.sync = .idle
  landed : s.landed = []
  listed : s.listed = s.manifest.packs
  own : s.own = []

inductive Reach : System κ → Prop
  | opened {s : System κ} (h : s.Opened) : Reach s
  | step {s s' : System κ} (h : Reach s) (hstep : Step s s') : Reach s'

end Code

section Guards

variable {κ : Type} [DecidableEq κ] {h h' : Handle κ} {t t' : Task κ} {ts : List (Task κ)}
  {P P' : Pass κ} {p q : κ} {own : List κ} {s s' : System κ}

/-- Packs a pass has chosen and not let go again. -/
def Pass.chosen : Pass κ → List κ
  | .sorting _ _ _ candidates _ => candidates
  | .holding _ candidates _ => candidates
  | .rechecking _ _ todo doomed _ => todo ++ doomed
  | .removing _ doomed _ => doomed
  | _ => []

/-- What the second look of a pass says of the packs this process published. -/
def Pass.Past (own : List κ) : Pass κ → Prop
  | .rechecking _ liveNow todo doomed _ =>
    (∀ p ∈ todo, p ∈ own → p ∈ liveNow) ∧ ∀ p ∈ doomed, p ∉ own
  | .removing _ doomed _ => ∀ p ∈ doomed, p ∉ own
  | _ => True

/-- Guards are counted, the prune lock has one holder, and what a pass has chosen no guard holds
that was taken under the lock. -/
structure Inv (s : System κ) : Prop where
  counted : ∀ p, s.stagedPacks p = (s.tasks.flatMap Task.guards).count p
  alone : s.tasks.countP (fun t => t.origin = .writer) + s.pass.pruning.toNat = s.pruneLock.toNat
  publishing : ∀ t ∈ s.tasks, ∀ p ∈ t.publishing, p ∈ t.guards
  visible : ∀ t ∈ s.tasks, t.origin ≠ .writer → t.visible = []
  spared : ∀ p ∈ s.pass.chosen, ∀ t ∈ s.tasks, t.origin ≠ .adder → p ∉ t.guards
  writing : s.writing = s.pass.writing
  quiet : s.pass.writing → s.readers = 0
  own : ∀ p ∈ s.own, p ∈ s.manifest.packs
  past : s.pass.Past s.own

theorem inv_opened (h : s.Opened) : Inv s where
  counted p := by simp [h.staged, h.tasks]
  alone := by simp [h.tasks, h.pass, h.lock, Pass.pruning]
  publishing := by simp [h.tasks]
  visible := by simp [h.tasks]
  spared := by simp [h.tasks]
  writing := by simp [h.writing, h.pass, Pass.writing]
  quiet := by simp [h.readers]
  own := by simp [h.own]
  past := by simp [h.pass, Pass.Past]

@[simp] theorem packs_install {gone new : List κ} :
    (h.install gone new).packs = h.packs.filter (· ∉ gone) ++ new := rfl

theorem TaskStep.frame (hs : TaskStep h t h' ts) :
    h'.manifest = h.manifest ∧ h'.readers = h.readers ∧ h'.writing = h.writing := by
  cases hs with
  | unstage => unfold Handle.unstagePack; split_ifs <;> exact ⟨rfl, rfl, rfl⟩
  | done => split_ifs <;> exact ⟨rfl, rfl, rfl⟩
  | _ => exact ⟨rfl, rfl, rfl⟩

theorem PassStep.frame (hs : PassStep h P h' P') :
    h'.manifest = h.manifest ∧ h'.readers = h.readers ∧ h'.stagedPacks = h.stagedPacks := by
  cases hs with
  | close => split_ifs <;> exact ⟨rfl, rfl, rfl⟩
  | _ => exact ⟨rfl, rfl, rfl⟩

theorem stagedPacks_stagePack :
    (h.stagePack p).stagedPacks q = h.stagedPacks q + if p == q then 1 else 0 := by
  by_cases hq : q = p
  · simp [Handle.stagePack, hq]
  · simp [Handle.stagePack, hq, Ne.symm hq]

theorem unstagePack_update (hp : 0 < h.stagedPacks p) :
    h.unstagePack p = (decide (h.stagedPacks p = 1),
      { h with stagedPacks := Function.update h.stagedPacks p (h.stagedPacks p - 1) }) := by
  unfold Handle.unstagePack
  by_cases h1 : h.stagedPacks p = 1
  · simp [h1]
  · have hlt : 1 < h.stagedPacks p := by omega
    simp [hlt, h1]

theorem stagedPacks_unstagePack (hp : 0 < h.stagedPacks p) :
    (h.unstagePack p).2.stagedPacks q + (if p == q then 1 else 0) = h.stagedPacks q := by
  rw [unstagePack_update hp]
  by_cases hq : q = p
  · subst hq
    simp
    omega
  · simp [hq, Ne.symm hq]

theorem TaskStep.counted (hs : TaskStep h t h' ts)
    (hle : ∀ p, t.guards.count p ≤ h.stagedPacks p) :
    h'.stagedPacks q + t.guards.count q = h.stagedPacks q + (ts.flatMap Task.guards).count q := by
  cases hs with
  | clear | install | place | answer | check | record => simp [Handle.install, Handle.recordOrphan]
  | stage p ps hv => simp [stagedPacks_stagePack, List.count_cons]; omega
  | enqueue ho p hp => simp [stagedPacks_stagePack, List.count_cons]; omega
  | compact ho p hp => simp [stagedPacks_stagePack, List.count_cons]; omega
  | unstage p hp hpub he =>
    have hpos : 0 < h.stagedPacks p := (List.count_pos_iff.mpr hp).trans_le (hle p)
    have hun := stagedPacks_unstagePack (q := q) hpos
    have herase := (List.perm_cons_erase hp).count_eq q
    rw [List.count_cons] at herase
    simp only [List.flatMap_cons, List.flatMap_nil, List.append_nil]
    omega
  | done hg he hc => split_ifs <;> simp [hg]

theorem TaskStep.lock (hs : TaskStep h t h' ts) (hl : t.origin = .writer → h.pruneLock) :
    ts.countP (fun t => t.origin = .writer) + h.pruneLock.toNat =
      [t].countP (fun t => t.origin = .writer) + h'.pruneLock.toNat := by
  cases hs with
  | done hg he hc =>
    by_cases ho : t.origin = .writer
    · simp [ho, hl ho]
    · simp [ho]
  | unstage p hp hpub he => unfold Handle.unstagePack; split_ifs <;> simp [List.countP_cons]
  | _ => simp_all [List.countP_cons, Handle.install, Handle.stagePack, Handle.recordOrphan]

/-- A publication is guarded by the task that carries it, and only a task that took the prune lock
has packs on disk that it has no guard on. -/
theorem TaskStep.guarded (hs : TaskStep h t h' ts) (hp : ∀ p ∈ t.publishing, p ∈ t.guards)
    (hv : t.origin ≠ .writer → t.visible = []) (ht : t' ∈ ts) :
    (∀ p ∈ t'.publishing, p ∈ t'.guards) ∧ (t'.origin ≠ .writer → t'.visible = []) := by
  cases hs with
  | stage p ps hvis =>
    simp only [List.mem_singleton] at ht
    subst ht
    refine ⟨fun q hq => List.mem_cons_of_mem _ (hp q hq), fun ho => ?_⟩
    simp [hv ho] at hvis
  | enqueue ho p hg =>
    simp only [List.mem_cons, List.not_mem_nil, or_false] at ht
    rcases ht with rfl | rfl
    · exact ⟨hp, hv⟩
    · simp
  | answer p hpub =>
    simp only [List.mem_singleton] at ht
    subst ht
    exact ⟨fun q hq => hp q (List.mem_of_mem_erase hq), hv⟩
  | unstage p hg hpub he =>
    simp only [List.mem_singleton] at ht
    subst ht
    refine ⟨fun q hq => ?_, hv⟩
    have hne : q ≠ p := fun heq => hpub (heq ▸ hq)
    exact (List.mem_erase_of_ne hne).mpr (hp q hq)
  | _ => simp_all

theorem TaskStep.shrinks (hs : TaskStep h t h' ts) (ho : t.origin ≠ .writer) (hv : t.visible = [])
    (ht : t' ∈ ts) : t'.origin = t.origin ∧ ∀ p ∈ t'.guards, p ∈ t.guards := by
  cases hs with
  | unstage p hg hpub he =>
    simp only [List.mem_singleton] at ht
    subst ht
    exact ⟨rfl, fun q hq => List.mem_of_mem_erase hq⟩
  | _ => simp_all

omit [DecidableEq κ] in
theorem pruning_of_chosen (hp : p ∈ P.chosen) : P.pruning := by
  cases P <;> simp_all [Pass.chosen, Pass.pruning]

theorem Inv.locked (hi : Inv s) (hp : s.pass.pruning) : s.pruneLock := by
  have := hi.alone
  cases hl : s.pruneLock <;> simp_all

theorem Inv.no_writer (hi : Inv s) (hp : s.pass.pruning) (ht : t ∈ s.tasks) :
    t.origin ≠ .writer := by
  have halone := hi.alone
  simp only [hp, hi.locked hp, Bool.toNat_true, Nat.add_eq_right, List.countP_eq_zero] at halone
  simpa using halone t ht

theorem Inv.unguarded (hi : Inv s) (hp : s.stagedPacks p = 0) (ht : t ∈ s.tasks) :
    p ∉ t.guards := fun hmem => by
  rw [hi.counted, List.count_eq_zero] at hp
  exact hp (List.mem_flatMap.mpr ⟨t, ht, hmem⟩)

theorem Inv.task {l r : List (Task κ)} (hi : Inv s) (ht : s.tasks = l ++ t :: r)
    (hs : TaskStep s.toHandle t h ts) :
    Inv { s with toHandle := h, tasks := l ++ ts ++ r } := by
  have hmem : t ∈ s.tasks := by simp [ht]
  have hother : ∀ x ∈ l ++ ts ++ r, x ∈ s.tasks ∨ x ∈ ts := by
    intro x hx
    simp only [ht, List.mem_append, List.mem_cons] at hx ⊢
    tauto
  obtain ⟨hman, hread, hwrite⟩ := hs.frame
  refine ⟨fun p => ?_, ?_, fun x hx => ?_, fun x hx => ?_, fun p hp x hx => ?_, ?_, ?_, ?_, hi.past⟩
  · have hle : ∀ p, t.guards.count p ≤ s.stagedPacks p := fun p => by
      rw [hi.counted, ht]
      simp
      omega
    have hc := hs.counted (q := p) hle
    have hall := hi.counted p
    rw [ht] at hall
    simp only [List.flatMap_append, List.flatMap_cons, List.count_append] at hall ⊢
    omega
  · have hlock := hs.lock fun ho => by
      have halone := hi.alone
      cases hl : s.pruneLock with
      | true => rfl
      | false =>
        simp only [hl, Bool.toNat_false, Nat.add_eq_zero_iff, List.countP_eq_zero] at halone
        exact absurd ho (by simpa using halone.1 t hmem)
    have hall := hi.alone
    rw [ht, ← List.singleton_append (x := t)] at hall
    simp only [List.countP_append] at hall ⊢
    omega
  · rcases hother x hx with hx | hx
    · exact hi.publishing x hx
    · exact (hs.guarded (hi.publishing t hmem) (hi.visible t hmem) hx).1
  · rcases hother x hx with hx | hx
    · exact hi.visible x hx
    · exact (hs.guarded (hi.publishing t hmem) (hi.visible t hmem) hx).2
  · have hpr := pruning_of_chosen hp
    have ho := hi.no_writer hpr hmem
    rcases hother x hx with hx | hx
    · exact hi.spared p hp x hx
    · obtain ⟨horg, hsub⟩ := hs.shrinks ho (hi.visible t hmem ho) hx
      rw [horg]
      exact fun hadd hg => hi.spared p hp t hmem hadd (hsub p hg)
  · exact hwrite.trans hi.writing
  · exact fun hw => hread.trans (hi.quiet hw)
  · rw [hman]
    exact hi.own

theorem PassStep.held (hs : PassStep h P h' P') (hl : P.pruning → h.pruneLock) :
    P'.pruning.toNat + h.pruneLock.toNat = P.pruning.toNat + h'.pruneLock.toNat := by
  cases hs with
  | close m still => split_ifs <;> rfl
  | check m => split_ifs <;> rfl
  | abort => cases hp : P.pruning <;> simp_all [Pass.pruning]
  | _ => simp_all [Pass.pruning, Handle.install]

theorem PassStep.writing (hs : PassStep h P h' P') (hw : h.writing = P.writing) :
    h'.writing = P'.writing := by
  cases hs with
  | close m still => split_ifs <;> exact hw
  | check m => split_ifs <;> exact hw
  | abort => simp [hw, Pass.writing]
  | _ => simp_all [Pass.writing, Handle.install]

theorem PassStep.quiet (hs : PassStep h P h' P') (hq : P.writing → h.readers = 0)
    (hw : P'.writing) : h.readers = 0 := by
  cases hs with
  | check m => split_ifs at hw <;> simp [Pass.writing] at hw
  | _ => simp_all [Pass.writing]

theorem PassStep.chooses (hs : PassStep h P h' P') (hp : p ∈ P'.chosen) :
    p ∈ P.chosen ∨ h.stagedPacks p = 0 := by
  cases hs with
  | sort m listed q todo candidates deferred =>
    by_cases hlive : q ∈ m.packs
    · exact .inl (by simpa [Pass.chosen, Handle.sort, hlive] using hp)
    by_cases hst : h.stagedPacks q = 0
    · simp only [Pass.chosen, Handle.sort, Handle.packStaged, hlive, hst] at hp ⊢
      rcases List.mem_insert_iff.mp hp with rfl | hp
      · exact .inr hst
      · exact .inl hp
    · exact .inl (by simpa [Pass.chosen, Handle.sort, Handle.packStaged, hlive, hst] using hp)
  | recheck m liveNow q todo doomed deferred =>
    simp only [Pass.chosen, Handle.recheck] at hp ⊢
    split_ifs at hp
    · simp_all
    · simp_all
      tauto
  | check m => split_ifs at hp <;> simp [Pass.chosen] at hp
  | remove m q doomed deferred => exact .inl (List.mem_cons_of_mem _ hp)
  | _ => simp_all [Pass.chosen]

theorem PassStep.past (hs : PassStep h P h' P') (hown : ∀ p ∈ own, p ∈ h.manifest.packs)
    (hp : P.Past own) : P'.Past own := by
  cases hs with
  | live m candidates deferred => exact ⟨fun p _ => hown p, by simp⟩
  | recheck m liveNow q todo doomed deferred =>
    obtain ⟨htodo, hdoomed⟩ := hp
    refine ⟨fun p hp => htodo p (List.mem_cons_of_mem _ hp), fun p hp => ?_⟩
    unfold Handle.recheck at hp
    split_ifs at hp with hlive
    · exact hdoomed p hp
    · rcases List.mem_append.mp hp with hp | hp
      · exact hdoomed p hp
      · rw [List.mem_singleton] at hp
        subst hp
        exact fun ho => hlive (.inl (htodo p List.mem_cons_self ho))
  | doom m liveNow doomed deferred => exact hp.2
  | remove m q doomed deferred => exact fun p hd => hp p (List.mem_cons_of_mem _ hd)
  | check m => split_ifs <;> trivial
  | _ => trivial

theorem Inv.pass (hi : Inv s) (hs : PassStep s.toHandle s.pass h P) :
    Inv { s with toHandle := h, pass := P } := by
  obtain ⟨hman, hread, hst⟩ := hs.frame
  refine ⟨fun p => ?_, ?_, hi.publishing, hi.visible, fun p hp t ht ho => ?_, hs.writing hi.writing,
    fun hw => hread.trans (hs.quiet hi.quiet hw), ?_, hs.past hi.own hi.past⟩
  · rw [hst]
    exact hi.counted p
  · have hlock := hs.held hi.locked
    have hall := hi.alone
    simp only at hlock hall ⊢
    omega
  · rcases hs.chooses hp with hp | hp
    · exact hi.spared p hp t ht ho
    · exact hi.unguarded hp ht
  · rw [hman]
    exact hi.own

/-- No commit lists a pack that a pass has chosen, unless `add_pack` published it. -/
theorem Inv.not_published (hi : Inv s) (hp : p ∈ s.pass.chosen) : s.published p = false := by
  unfold System.published
  rw [List.any_eq_false]
  intro t ht
  simp only [decide_eq_true_eq, not_and]
  exact fun ho hpub => hi.spared p hp t ht ho (hi.publishing t ht p hpub)

omit [DecidableEq κ] in
theorem Past.mono {own' : List κ} (hp : P.Past own)
    (hsub : ∀ p ∈ P.chosen, p ∈ own' → p ∈ own) : P.Past own' := by
  cases P with
  | rechecking m liveNow todo doomed deferred =>
    exact ⟨fun p ht ho => hp.1 p ht (hsub p (List.mem_append_left _ ht) ho),
      fun p hd ho => hp.2 p hd (hsub p (List.mem_append_right _ hd) ho)⟩
  | removing m doomed deferred => exact fun p hd ho => hp p hd (hsub p hd ho)
  | _ => trivial

theorem Inv.commit {c : Landed κ} {packs : List κ} (hi : Inv s)
    (hc : ∀ p ∈ packs, p ∈ c.manifest.packs) : Inv (s.commit c packs) where
  counted := hi.counted
  alone := hi.alone
  publishing := hi.publishing
  visible := hi.visible
  spared := hi.spared
  writing := hi.writing
  quiet := hi.quiet
  own p hp := by
    simp only [System.commit, List.mem_append, List.mem_filter, decide_eq_true_eq] at hp
    exact hp.elim (fun h => hc p h.1) And.right
  past := Past.mono hi.past fun p hp ho => by
    simp only [System.commit, List.mem_append, List.mem_filter, hi.not_published hp] at ho
    simp at ho
    exact ho.1

theorem Inv.adopt {m : Manifest κ} (hi : Inv s) : Inv (s.adopt m) where
  counted := hi.counted
  alone := hi.alone
  publishing := hi.publishing
  visible := hi.visible
  spared := hi.spared
  writing := hi.writing
  quiet := hi.quiet
  own _ hp := of_decide_eq_true (List.mem_filter.mp hp).2
  past := Past.mono hi.past fun _ _ ho => (List.mem_filter.mp ho).1

theorem inv_step (hi : Inv s) (hs : Step s s') : Inv s' := by
  cases hs with
  | lock hlock =>
    have halone := hi.alone
    simp only [hlock, Bool.toNat_false, Nat.add_eq_zero_iff] at halone
    refine ⟨fun p => by simpa using hi.counted p, ?_, ?_, ?_, fun p hp => ?_, hi.writing, hi.quiet,
      hi.own, hi.past⟩
    · simp [halone.1, halone.2]
    · simpa using hi.publishing
    · simpa using hi.visible
    · have hpr := pruning_of_chosen hp
      simp [hpr] at halone
  | add p =>
    refine ⟨fun q => ?_, ?_, ?_, ?_, fun q hq => ?_, hi.writing, hi.quiet, hi.own, hi.past⟩
    · have hc := hi.counted q
      simp only [stagedPacks_stagePack, List.flatMap_cons, List.count_append, List.count_cons,
        List.count_nil]
      omega
    · simpa [List.countP_cons] using hi.alone
    · simpa using hi.publishing
    · simpa using hi.visible
    · simpa using hi.spared q hq
  | task l r ts t h ht hstep => exact hi.task ht hstep
  | pass h P hstep => exact hi.pass hstep
  | push base headSeq packs hsync hp =>
    exact hi.commit fun _ hp => List.mem_append_right _ hp
  | compact base headSeq p supersedes hp =>
    exact hi.commit fun _ hq => List.mem_append_right _ hq
  | rewrite base headSeq looks => exact hi.commit (by simp)
  | same m hsync hrev => exact hi.adopt
  | adopt m hsync => exact hi.adopt
  | read hw =>
    refine ⟨hi.counted, hi.alone, hi.publishing, hi.visible, hi.spared, hi.writing, fun hwr => ?_,
      hi.own, hi.past⟩
    rw [← hi.writing, hw] at hwr
    simp at hwr
  | unread =>
    refine ⟨hi.counted, hi.alone, hi.publishing, hi.visible, hi.spared, hi.writing, fun hwr => ?_,
      hi.own, hi.past⟩
    simp [hi.quiet hwr]
  | note | fetch | empty | reset | replay | apply | fail =>
    exact ⟨hi.counted, hi.alone, hi.publishing, hi.visible, hi.spared, hi.writing, hi.quiet, hi.own,
      hi.past⟩

theorem inv_reach (hr : Reach s) : Inv s := by
  induction hr with
  | opened h => exact inv_opened h
  | step _ hs ih => exact inv_step ih hs

theorem removed_chosen (hs : PassStep h P h' P') (hp : p ∈ h.packs) (hgone : p ∉ h'.packs) :
    ∃ m doomed deferred, P = .removing m (p :: doomed) deferred := by
  cases hs with
  | remove m q doomed deferred =>
    simp [hp] at hgone
    exact ⟨m, doomed, deferred, by rw [hgone]⟩
  | close m still => split_ifs at hgone <;> exact absurd hp hgone
  | install m q hq => simp [hp] at hgone
  | _ => exact absurd hp hgone

/-- A process that finds a pack on disk that its manifest does not list. -/
def residue : System ℕ where
  manifest := ⟨1, 1, []⟩
  state := ⟨1, 1, false, []⟩
  packsVerified := false
  stagedPacks _ := 0
  pruneLock := false
  readers := 0
  writing := false
  packs := [7]
  tasks := []
  pass := .idle
  sync := .idle
  landed := []
  listed := []
  own := []

/-- Whatever a pass takes off the disk, nobody reads, no request has it guarded or on disk under
the prune lock, and no push or compaction of this process left it in the manifest. -/
theorem prune_spares (hr : Reach s) (hs : PassStep s.toHandle s.pass h P) (hp : p ∈ s.packs)
    (hgone : p ∉ h.packs) :
    s.readers = 0 ∧ p ∉ s.own ∧
      ∀ t ∈ s.tasks, t.origin ≠ .adder → p ∉ t.visible ∧ p ∉ t.guards := by
  obtain ⟨m, doomed, deferred, hP⟩ := removed_chosen hs hp hgone
  have hi := inv_reach hr
  have hchosen : p ∈ s.pass.chosen := by simp [hP, Pass.chosen]
  have hpast := hi.past
  rw [hP] at hpast
  refine ⟨hi.quiet (by simp [hP, Pass.writing]), hpast p List.mem_cons_self, fun t ht ho => ?_⟩
  have hw := hi.no_writer (pruning_of_chosen hchosen) ht
  exact ⟨by simp [hi.visible t ht hw], hi.spared p hchosen t ht ho⟩

/-- A pass takes the pack of `residue` after one push has committed, while the publication of
another that was cancelled is in flight; somebody reads until the pass wants the write lock. -/
theorem prune_spares_busy : ∃ (s : System ℕ) (h : Handle ℕ) (P : Pass ℕ), Reach s ∧
    PassStep s.toHandle s.pass h P ∧ s.packs = [7, 1, 2] ∧ h.packs = [1, 2] ∧ s.own = [1] ∧
      s.tasks = [⟨.waiter, false, [], [2], [2], .none⟩] ∧
      s.readers = 0 ∧ 7 ∉ s.own ∧
      ∀ t ∈ s.tasks, t.origin ≠ .adder → 7 ∉ t.visible ∧ 7 ∉ t.guards := by
  have h0 : Reach residue := .opened ⟨rfl, fun _ => rfl, rfl, rfl, rfl, rfl, rfl, rfl,
    rfl, rfl, rfl⟩
  -- the first push, to the end of its guards
  have h1 := h0.step (.lock rfl)
  have h2 := h1.step (.task [] [] _ _ _ rfl (.clear rfl rfl))
  have h3 := h2.step (.task [] [] _ _ _ rfl (.install rfl rfl [] [1]))
  have h4 := h3.step (.task [] [] _ _ _ rfl (.stage 1 [] rfl))
  have h5 := h4.step (.task [] [] _ _ _ rfl (.enqueue rfl 1 (by decide)))
  have h6 := h5.step (.push ⟨1, 1, []⟩ 2 [1] rfl (by decide))
  have h7 := h6.step (.note [] [] _ rfl)
  have h8 := h7.step (.task [_] [] _ _ _ rfl (.answer 1 (by decide)))
  have h9 := h8.step (.task [_] [] _ _ _ rfl (.unstage 1 (by decide) (by decide) rfl))
  have h10 := h9.step (.task [_] [] _ _ _ rfl (.done rfl rfl nofun))
  have h11 := h10.step (.task [] [] _ _ _ rfl (.unstage 1 (by decide) (by decide) rfl))
  have h12 := h11.step (.task [] [] _ _ _ rfl (.check 1 rfl))
  have h13 := h12.step (.task [] [] _ _ _ rfl (.done rfl rfl fun _ => rfl))
  -- the second, cancelled once the publisher has it
  have h14 := h13.step (.lock rfl)
  have h15 := h14.step (.task [] [] _ _ _ rfl (.clear rfl rfl))
  have h16 := h15.step (.task [] [] _ _ _ rfl (.install rfl rfl [] [2]))
  have h17 := h16.step (.task [] [] _ _ _ rfl (.stage 2 [] rfl))
  have h18 := h17.step (.task [] [] _ _ _ rfl (.enqueue rfl 2 (by decide)))
  have h19 := h18.step (.task [] [_] _ _ _ rfl (.unstage 2 (by decide) (by decide) rfl))
  have h20 := h19.step (.task [] [_] _ _ _ rfl (.done rfl rfl fun _ => rfl))
  have h21 := h20.step (.read rfl)
  have h22 := h21.step (.pass _ _ .take)
  have h23 := h22.step (.pass _ _ (.start _))
  have h24 := h23.step (.pass _ _ (.lock _ rfl))
  have h25 := h24.step (.pass _ _ (.pending _))
  have h26 := h25.step (.pass _ _ (.list _ _ _))
  have h27 := h26.step (.pass _ _ (.sort _ _ _ _ _ _))
  have h28 := h27.step (.pass _ _ (.sort _ _ _ _ _ _))
  have h29 := h28.step (.pass _ _ (.sort _ _ _ _ _ _))
  have h30 := h29.step .unread
  have h31 := h30.step (.pass _ _ (.write _ _ _ (by decide) rfl))
  have h32 := h31.step (.pass _ _ (.live _ _ _))
  have h33 := h32.step (.pass _ _ (.recheck _ _ _ _ _ _))
  have h34 := h33.step (.pass _ _ (.doom _ _ _ _))
  exact ⟨_, _, _, h34, .remove _ _ _ _, rfl, rfl, rfl, rfl,
    prune_spares h34 (.remove _ _ _ _) (by decide) (by decide)⟩

end Guards

section Orphans

variable {κ : Type} [DecidableEq κ] {h h' : Handle κ} {t t' : Task κ} {ts : List (Task κ)}
  {P P' : Pass κ} {p q : κ} {s s' : System κ}

/-- A request that has a pack on disk or under guard, or is at the end of its guard. -/
def Task.Protects (t : Task κ) (p : κ) : Prop :=
  p ∈ t.visible ∨ p ∈ t.guards ∨ t.ending = .unstaged p ∨ t.ending = .orphan p

/-- Why a pack may lie on disk though a pass is done. -/
def System.Accounted (s : System κ) (p : κ) : Prop :=
  p ∈ s.listed ∨ p ∈ s.state.pendingPackRemovals ∨ ∃ t ∈ s.tasks, t.Protects p

def Pass.manifest : Pass κ → Option (Manifest κ)
  | .took m | .installing m => some m
  | .locked m | .sorting m .. | .holding m .. | .rechecking m .. | .removing m .. => some m
  | .closing m _ | .stating m | .checking m | .marking m => some m
  | .idle | .leaving => none

/-- From where the proof of the last pass is gone to where this one has its own. -/
def Pass.unproven : Pass κ → Bool
  | .idle | .took _ | .leaving => false
  | _ => true

/-- The packs that a pass found on disk and has to speak of yet. -/
def Pass.waiting : Pass κ → Option (List κ)
  | .sorting _ true todo candidates deferred => some (todo ++ candidates ++ deferred)
  | .holding _ candidates deferred => some (candidates ++ deferred)
  | .rechecking _ _ todo doomed deferred => some (todo ++ doomed ++ deferred)
  | .removing _ doomed deferred => some (doomed ++ deferred)
  | .closing _ still => some still
  | .marking _ => some []
  | _ => none

/-- The proof of a pass has been written but the state was not looked at again. -/
def Pass.closed : Pass κ → Bool
  | .stating _ | .checking _ => true
  | _ => false

structure Noticed (s : System κ) : Prop where
  live : ∀ p ∈ s.manifest.packs, p ∈ s.listed
  planned : ∀ m, s.pass.manifest = some m → ∀ p ∈ m.packs, p ∈ s.listed
  cleared : s.packsVerified → ∀ t ∈ s.tasks, t.origin = .writer → t.cleared = false
  proven : s.packsVerified → s.pass.unproven = false
  seen : s.packsVerified → ∀ p ∈ s.packs, s.Accounted p
  waiting : ∀ w, s.pass.waiting = some w → ∀ p ∈ s.packs, p ∈ w ∨ s.Accounted p
  closed : s.pass.closed → s.state.pendingPackRemovals = [] → ∀ p ∈ s.packs, s.Accounted p

omit [DecidableEq κ] in
theorem noticed_opened (h : s.Opened) : Noticed s where
  live := by simp [h.listed]
  planned := by simp [h.pass, Pass.manifest]
  cleared := by simp [h.verified]
  proven := by simp [h.verified]
  seen := by simp [h.verified]
  waiting := by simp [h.pass, Pass.waiting]
  closed := by simp [h.pass, Pass.closed]

theorem mem_pend {st : RepoState κ} {ps : List κ} :
    p ∈ (st.pend ps).pendingPackRemovals ↔ p ∈ st.pendingPackRemovals ∨ p ∈ ps := by
  induction ps generalizing st with
  | nil => simp [RepoState.pend]
  | cons q ps ih =>
    rw [RepoState.pend]
    split_ifs with hq
    · rw [ih]
      by_cases hpq : p = q
      · simp [hpq, hq]
      · simp [hpq]
    · simp [ih, or_assoc]

/-- What steps other than those of a pass do to what is accounted for. -/
structure Carries (s s' : System κ) : Prop where
  pass : s'.pass = s.pass
  verified : s'.packsVerified → s.packsVerified
  cleared : s'.packsVerified → ∀ t ∈ s'.tasks, t.origin = .writer → t.cleared = false
  listed : ∀ p ∈ s.listed, p ∈ s'.listed
  live : ∀ p ∈ s'.manifest.packs, p ∈ s'.listed
  pending : ∀ p ∈ s.state.pendingPackRemovals, p ∈ s'.state.pendingPackRemovals
  packs : ∀ p ∈ s'.packs, p ∈ s.packs ∨ s'.Accounted p
  accounted : (s.packsVerified ∨ s.pass.pruning) → ∀ p, s.Accounted p → s'.Accounted p

omit [DecidableEq κ] in
theorem pruning_of_waiting {w : List κ} (hw : P.waiting = some w) : P.pruning := by
  cases P <;> simp_all [Pass.waiting, Pass.pruning]

omit [DecidableEq κ] in
theorem pruning_of_closed (hc : P.closed) : P.pruning := by
  cases P <;> simp_all [Pass.closed, Pass.pruning]

omit [DecidableEq κ] in
theorem Noticed.carry (hn : Noticed s) (hc : Carries s s') : Noticed s' where
  live := hc.live
  planned m hm p hp := hc.listed p (hn.planned m (hc.pass ▸ hm) p hp)
  cleared := hc.cleared
  proven hv := by
    rw [hc.pass]
    exact hn.proven (hc.verified hv)
  seen hv p hp := by
    have hv' := hc.verified hv
    exact (hc.packs p hp).elim (fun h => hc.accounted (.inl hv') p (hn.seen hv' p h)) id
  waiting w hw p hp := by
    rw [hc.pass] at hw
    rcases hc.packs p hp with hp | hp
    · exact (hn.waiting w hw p hp).imp_right (hc.accounted (.inr (pruning_of_waiting hw)) p)
    · exact .inr hp
  closed hcl hnil p hp := by
    rw [hc.pass] at hcl
    have hpend : s.state.pendingPackRemovals = [] :=
      List.eq_nil_iff_forall_not_mem.mpr fun q hq => by simpa [hnil] using hc.pending q hq
    rcases hc.packs p hp with hp | hp
    · exact hc.accounted (.inr (pruning_of_closed hcl)) p (hn.closed hcl hpend p hp)
    · exact hp

theorem TaskStep.protects (hs : TaskStep h t h' ts) (hp : t.Protects p)
    (hw : t.origin = .writer → t.cleared = false) (hv : t.origin ≠ .writer → t.visible = [])
    (hle : ∀ p, t.guards.count p ≤ h.stagedPacks p) :
    (∃ t' ∈ ts, t'.Protects p) ∨ p ∈ h'.state.pendingPackRemovals ∨ p ∈ h.manifest.packs ∨
      0 < h'.stagedPacks p := by
  cases hs with
  | unstage q hq hpub he =>
    have hpos : 0 < h.stagedPacks q := (List.count_pos_iff.mpr hq).trans_le (hle q)
    by_cases hpq : p = q
    · subst hpq
      rw [unstagePack_update hpos]
      by_cases h1 : h.stagedPacks p = 1
      · exact .inl ⟨_, List.mem_singleton_self _, .inr (.inr (.inl (by simp [h1])))⟩
      · refine .inr (.inr (.inr ?_))
        simp
        omega
    · refine .inl ⟨_, List.mem_singleton_self _, ?_⟩
      rcases hp with hp | hp | hp | hp
      · exact .inl hp
      · exact .inr (.inl ((List.mem_erase_of_ne hpq).mpr hp))
      · simp [he] at hp
      · simp [he] at hp
  | check q he =>
    rcases hp with hp | hp | hp | hp
    · exact .inl ⟨_, List.mem_singleton_self _, .inl hp⟩
    · exact .inl ⟨_, List.mem_singleton_self _, .inr (.inl hp)⟩
    · rw [he, Ending.unstaged.injEq] at hp
      subst hp
      by_cases hlive : q ∈ h.manifest.packs
      · exact .inr (.inr (.inl hlive))
      · exact .inl ⟨_, List.mem_singleton_self _, .inr (.inr (.inr (by simp [hlive])))⟩
    · simp [he] at hp
  | record q he =>
    rcases hp with hp | hp | hp | hp
    · exact .inl ⟨_, List.mem_singleton_self _, .inl hp⟩
    · exact .inl ⟨_, List.mem_singleton_self _, .inr (.inl hp)⟩
    · simp [he] at hp
    · rw [he, Ending.orphan.injEq] at hp
      subst hp
      exact .inr (.inl (mem_pend.mpr (.inr (List.mem_singleton_self _))))
  | done hg he hc =>
    have ho : t.origin ≠ .writer := fun ho => by simp [hw ho] at hc; exact hc ho
    simp [Task.Protects, hv ho, hg, he] at hp
  | stage q qs hvis =>
    refine .inl ⟨_, List.mem_singleton_self _, ?_⟩
    simp only [Task.Protects, hvis, List.mem_cons] at hp ⊢
    tauto
  | enqueue ho q hq => exact .inl ⟨t, List.mem_cons_self, hp⟩
  | install ho hc gone new => simp [hw ho] at hc
  | compact ho q hq =>
    refine .inl ⟨_, List.mem_singleton_self _, ?_⟩
    simp only [Task.Protects, List.mem_cons] at hp ⊢
    tauto
  | clear | place | answer => exact .inl ⟨_, List.mem_singleton_self _, hp⟩

theorem TaskStep.adds (hs : TaskStep h t h' ts) (hp : p ∈ h'.packs) :
    p ∈ h.packs ∨ ∃ t' ∈ ts, t'.Protects p := by
  cases hs with
  | install ho hc gone new =>
    rcases List.mem_append.mp hp with hp | hp
    · exact .inl (List.mem_filter.mp hp).1
    · exact .inr ⟨_, List.mem_singleton_self _, .inl (List.mem_append_right _ hp)⟩
  | place ho q hq =>
    rcases List.mem_append.mp hp with hp | hp
    · exact .inl (List.mem_filter.mp hp).1
    · rw [List.mem_singleton] at hp
      subst hp
      exact .inr ⟨_, List.mem_singleton_self _, .inr (.inl hq)⟩
  | unstage q hq hpub he =>
    unfold Handle.unstagePack at hp
    split_ifs at hp <;> exact .inl hp
  | done hg he hc => split_ifs at hp <;> exact .inl hp
  | _ => exact .inl hp

theorem TaskStep.verified (hs : TaskStep h t h' ts) (hv : h'.packsVerified) : h.packsVerified := by
  cases hs with
  | clear => simp at hv
  | unstage q hq hpub he =>
    unfold Handle.unstagePack at hv
    split_ifs at hv <;> exact hv
  | done hg he hc => split_ifs at hv <;> exact hv
  | _ => exact hv

theorem TaskStep.cleared (hs : TaskStep h t h' ts) (hv : h'.packsVerified)
    (hc : t.origin = .writer → t.cleared = false) (ht : t' ∈ ts) (ho : t'.origin = .writer) :
    t'.cleared = false := by
  cases hs <;> simp_all
  rcases ht with rfl | rfl
  · exact hc
  · rfl

theorem TaskStep.pending (hs : TaskStep h t h' ts) (hp : p ∈ h.state.pendingPackRemovals) :
    p ∈ h'.state.pendingPackRemovals := by
  cases hs with
  | record q he => exact mem_pend.mpr (.inl hp)
  | unstage q hq hpub he =>
    unfold Handle.unstagePack
    split_ifs <;> exact hp
  | done hg he hc => split_ifs <;> exact hp
  | _ => exact hp

omit [DecidableEq κ] in
theorem Accounted.mono (ha : s.Accounted p) (hl : ∀ p ∈ s.listed, p ∈ s'.listed)
    (hp : ∀ p ∈ s.state.pendingPackRemovals, p ∈ s'.state.pendingPackRemovals)
    (ht : ∀ t ∈ s.tasks, t ∈ s'.tasks) : s'.Accounted p := by
  rcases ha with ha | ha | ⟨t, hmem, ha⟩
  · exact .inl (hl p ha)
  · exact .inr (.inl (hp p ha))
  · exact .inr (.inr ⟨t, ht t hmem, ha⟩)

theorem carries_task {l r : List (Task κ)} (hi : Inv s) (hn : Noticed s)
    (ht : s.tasks = l ++ t :: r) (hs : TaskStep s.toHandle t h ts) :
    Carries s { s with toHandle := h, tasks := l ++ ts ++ r } := by
  have hmem : t ∈ s.tasks := by simp [ht]
  have hin : ∀ t' ∈ ts, t' ∈ l ++ ts ++ r := fun t' h => by simp [h]
  have hother : ∀ x ∈ s.tasks, x = t ∨ x ∈ l ++ ts ++ r := by
    intro x hx
    simp only [ht, List.mem_append, List.mem_cons] at hx ⊢
    tauto
  have hle : ∀ p, t.guards.count p ≤ s.stagedPacks p := fun p => by
    rw [hi.counted, ht]
    simp
    omega
  have hinv := hi.task ht hs
  obtain ⟨hman, -, -⟩ := hs.frame
  refine ⟨rfl, hs.verified, fun hv x hx ho => ?_, fun p hp => hp, ?_, fun p => hs.pending,
    fun p hp => ?_, fun hor p ha => ?_⟩
  · have hc := hn.cleared (hs.verified hv)
    simp only [List.mem_append] at hx
    rcases hx with (hx | hx) | hx
    · exact hc x (by simp [ht, hx]) ho
    · exact hs.cleared hv (hc t hmem) hx ho
    · exact hc x (by simp [ht, hx]) ho
  · rw [hman]
    exact hn.live
  · rcases hs.adds hp with hp | ⟨t', ht', hp⟩
    · exact .inl hp
    · exact .inr (.inr (.inr ⟨t', hin t' ht', hp⟩))
  · have hc : t.origin = .writer → t.cleared = false := by
      rcases hor with hv | hpr
      · exact hn.cleared hv t hmem
      · exact fun ho => absurd ho (hi.no_writer hpr hmem)
    rcases ha with ha | ha | ⟨x, hx, ha⟩
    · exact .inl ha
    · exact .inr (.inl (hs.pending ha))
    · rcases hother x hx with rfl | hx
      · rcases hs.protects ha hc (hi.visible x hmem) hle with ⟨t', ht', hp⟩ | hp | hp | hp
        · exact .inr (.inr ⟨t', hin t' ht', hp⟩)
        · exact .inr (.inl hp)
        · exact .inl (hn.live p hp)
        · -- Another guard is left on the pack.
          rw [hinv.counted, List.count_pos_iff, List.mem_flatMap] at hp
          obtain ⟨y, hy, hg⟩ := hp
          exact .inr (.inr ⟨y, hy, .inr (.inl hg)⟩)
      · exact .inr (.inr ⟨x, hx, ha⟩)

omit [DecidableEq κ] in
theorem Noticed.unverified (hn : Noticed s) (hu : s.pass.unproven) : s.packsVerified = false := by
  cases hv : s.packsVerified with
  | false => rfl
  | true => simp [hn.proven hv] at hu

omit [DecidableEq κ] in
theorem Noticed.unproven (hn : Noticed s) (hu : s.pass.unproven)
    (hv : h.packsVerified = s.packsVerified) (hman : h.manifest = s.manifest)
    (hplan : ∀ m, P.manifest = some m → s.pass.manifest = some m)
    (hwait : ∀ w, P.waiting = some w → ∀ p ∈ h.packs,
      p ∈ w ∨ System.Accounted { s with toHandle := h, pass := P } p)
    (hclosed : P.closed → h.state.pendingPackRemovals = [] → ∀ p ∈ h.packs,
      System.Accounted { s with toHandle := h, pass := P } p) :
    Noticed { s with toHandle := h, pass := P } := by
  have hnv : ¬ h.packsVerified := by simp [hv, hn.unverified hu]
  refine ⟨?_, fun m hm => hn.planned m (hplan m hm), fun h => absurd h hnv, fun h => absurd h hnv,
    fun h => absurd h hnv, hwait, hclosed⟩
  rw [hman]
  exact hn.live

omit [DecidableEq κ] in
theorem Noticed.quit (hn : Noticed s) (hv : h.packsVerified = s.packsVerified)
    (hman : h.manifest = s.manifest) (hpacks : h.packs = s.packs)
    (hpend : h.state.pendingPackRemovals = s.state.pendingPackRemovals) :
    Noticed { s with toHandle := h, pass := .idle } where
  live := by
    rw [hman]
    exact hn.live
  planned := by simp [Pass.manifest]
  cleared := by
    rw [hv]
    exact hn.cleared
  proven _ := rfl
  seen hver p hp := by
    rw [hv] at hver
    rw [hpacks] at hp
    refine Accounted.mono (hn.seen hver p hp) (fun _ h => h) (fun q hq => ?_) fun _ h => h
    rw [hpend]
    exact hq
  waiting := by simp [Pass.waiting]
  closed := by simp [Pass.closed]

variable (h p q) in
theorem mem_sort (m : Manifest κ) (candidates deferred : List κ) :
    (q ∈ (h.sort m p candidates deferred).1 ∨ q ∈ (h.sort m p candidates deferred).2) ↔
      q ∈ candidates ∨ q ∈ deferred ∨ (q = p ∧ p ∉ m.packs) := by
  unfold Handle.sort
  split_ifs with hlive hst
  · simp [hlive]
  · simp [hlive]
  · simp only [List.mem_insert_iff, hlive, not_false_eq_true, and_true]
    tauto

variable (h p q) in
theorem mem_recheck (liveNow doomed deferred : List κ) :
    (q ∈ (h.recheck liveNow p doomed deferred).1 ∨ q ∈ (h.recheck liveNow p doomed deferred).2) ↔
      q ∈ doomed ∨ q ∈ deferred ∨ q = p := by
  unfold Handle.recheck
  split_ifs
  · simp
  · simp
    tauto

theorem Noticed.pass (hn : Noticed s) (hi : Inv s) (hP : s.pass = P)
    (hs : PassStep s.toHandle P h P') : Noticed { s with toHandle := h, pass := P' } := by
  have hwait := hP ▸ hn.waiting
  have hclosed := hP ▸ hn.closed
  cases hs with
  | take => exact ⟨hn.live, by simpa [Pass.manifest] using hn.live, hn.cleared, fun _ => rfl,
      hn.seen,
      by simp [Pass.waiting], by simp [Pass.closed]⟩
  | start m => exact ⟨hn.live, fun m hm => hn.planned m (hP ▸ hm), by simp, by simp,
      by simp, by simp [Pass.waiting],
      by simp [Pass.closed]⟩
  | install m p hp =>
    exact hn.unproven (by simp [hP, Pass.unproven]) rfl rfl (by simp [hP]) (by simp [Pass.waiting])
      (by simp [Pass.closed])
  | busy m hlock => exact hn.quit rfl rfl rfl rfl
  | lock m hlock =>
    exact hn.unproven (by simp [hP, Pass.unproven]) rfl rfl (by simp [hP, Pass.manifest])
      (by simp [Pass.waiting]) (by simp [Pass.closed])
  | pending m =>
    exact hn.unproven (by simp [hP, Pass.unproven]) rfl rfl (by simp [hP, Pass.manifest])
      (by simp [Pass.waiting]) (by simp [Pass.closed])
  | sort m listed q todo candidates deferred =>
    refine hn.unproven (by simp [hP, Pass.unproven]) rfl rfl (by simp [hP, Pass.manifest])
      (fun w hw p hp => ?_) (by simp [Pass.closed])
    cases listed with
    | false => simp [Pass.waiting] at hw
    | true =>
      simp only [Pass.waiting, Option.some.injEq] at hw
      subst hw
      have hmem := mem_sort s.toHandle q p m candidates deferred
      rcases hwait _ rfl p hp with hp | hp
      · by_cases hlive : q ∈ m.packs
        · by_cases hpq : p = q
          · exact .inr (.inl (hn.planned m (by simp [hP, Pass.manifest]) p (hpq ▸ hlive)))
          · simp only [List.mem_append, List.mem_cons] at hp ⊢
            tauto
        · simp only [List.mem_append, List.mem_cons] at hp ⊢
          tauto
      · exact .inr hp
  | list m candidates deferred =>
    refine hn.unproven (by simp [hP, Pass.unproven]) rfl rfl (by simp [hP, Pass.manifest])
      (fun w hw p hp => ?_) (by simp [Pass.closed])
    simp only [Pass.waiting, Option.some.injEq] at hw
    subst hw
    simp [hp]
  | nothing m deferred | doom m liveNow doomed deferred | unlock m deferred =>
    refine hn.unproven (by simp [hP, Pass.unproven]) rfl rfl (by simp [hP, Pass.manifest])
      (fun w hw p hp => ?_) (by simp [Pass.closed])
    simp only [Pass.waiting, Option.some.injEq] at hw
    subst hw
    exact (hwait _ rfl p hp).imp_left fun hw => by simpa using hw
  | write m candidates deferred hc hread | keep m candidates deferred hc hread
  | live m candidates deferred =>
    refine hn.unproven (by simp [hP, Pass.unproven]) rfl rfl (by simp [hP, Pass.manifest])
      (fun w hw p hp => ?_) (by simp [Pass.closed])
    simp only [Pass.waiting, Option.some.injEq] at hw
    subst hw
    exact (hwait _ rfl p hp).imp_left fun hw => by simpa using hw
  | recheck m liveNow q todo doomed deferred =>
    refine hn.unproven (by simp [hP, Pass.unproven]) rfl rfl (by simp [hP, Pass.manifest])
      (fun w hw p hp => ?_) (by simp [Pass.closed])
    simp only [Pass.waiting, Option.some.injEq] at hw
    subst hw
    have hmem := mem_recheck s.toHandle q p liveNow doomed deferred
    refine (hwait _ rfl p hp).imp_left fun hp => ?_
    simp only [List.mem_append, List.mem_cons] at hp ⊢
    tauto
  | remove m q doomed deferred =>
    refine hn.unproven (by simp [hP, Pass.unproven]) rfl rfl (by simp [hP, Pass.manifest])
      (fun w hw p hp => ?_) (by simp [Pass.closed])
    simp only [Pass.waiting, Option.some.injEq] at hw
    subst hw
    simp only [packs_install, List.append_nil, List.mem_filter, List.mem_singleton,
      decide_eq_true_eq] at hp
    refine (hwait _ rfl p hp.1).imp_left fun hw => ?_
    simpa [hp.2] using hw
  | close m still =>
    refine hn.unproven (by simp [hP, Pass.unproven]) (by split_ifs <;> rfl) (by split_ifs <;> rfl)
      (by simp [hP, Pass.manifest]) (by simp [Pass.waiting]) fun _ hnil p hp => ?_
    by_cases hst : still = []
    · simp only [hst, if_true] at hp ⊢
      exact (hwait _ rfl p hp).resolve_left (by simp [hst])
    · simp [hst] at hnil
  | state m =>
    exact hn.unproven (by simp [hP, Pass.unproven]) rfl rfl (by simp [hP, Pass.manifest])
      (by simp [Pass.waiting]) fun _ hnil p hp => hclosed rfl hnil p hp
  | check m =>
    refine hn.unproven (by simp [hP, Pass.unproven]) rfl rfl ?_ (fun w hw p hp => ?_) ?_
    · split_ifs <;> simp [hP, Pass.manifest]
    · split_ifs at hw with hready
      · simp [RepoState.packsReady] at hready
        exact .inr (hclosed rfl hready.2 p hp)
      · simp [Pass.waiting] at hw
    · split_ifs <;> simp [Pass.closed]
  | mark m =>
    have hseen : ∀ p ∈ s.packs, s.Accounted p := fun p hp => by simpa using hwait _ rfl p hp
    refine ⟨hn.live, by simp [Pass.manifest], fun _ t ht ho => ?_, fun _ => rfl, fun _ => hseen,
      by simp [Pass.waiting], by simp [Pass.closed]⟩
    exact absurd ho (hi.no_writer (by simp [hP, Pass.pruning]) ht)
  | finish => exact hn.quit rfl rfl rfl rfl
  | abort => exact hn.quit rfl rfl rfl rfl

omit [DecidableEq κ] in
theorem carries_manifest (hn : Noticed s) (hpass : s'.pass = s.pass)
    (hv : s'.packsVerified = s.packsVerified) (ht : s'.tasks = s.tasks)
    (hpacks : s'.packs = s.packs)
    (hl : ∀ p ∈ s.listed, p ∈ s'.listed) (hlive : ∀ p ∈ s'.manifest.packs, p ∈ s'.listed)
    (hp : ∀ p ∈ s.state.pendingPackRemovals, p ∈ s'.state.pendingPackRemovals) : Carries s s' where
  pass := hpass
  verified := by simp [hv]
  cleared := by
    rw [hv, ht]
    exact hn.cleared
  listed := hl
  live := hlive
  pending := hp
  packs p h := .inl (hpacks ▸ h)
  accounted _ p ha := Accounted.mono ha hl hp (by simp [ht])

theorem noticed_step (hn : Noticed s) (hi : Inv s) (hs : Step s s') : Noticed s' := by
  cases hs with
  | task l r ts t h ht hstep => exact hn.carry (carries_task hi hn ht hstep)
  | pass h P hstep => exact hn.pass hi rfl hstep
  | lock hlock =>
    refine hn.carry ⟨rfl, id, fun hv => ?_, fun _ h => h, hn.live, fun _ h => h, fun _ h => .inl h,
      fun _ p ha => Accounted.mono ha (fun _ h => h) (fun _ h => h) fun _ =>
        List.mem_cons_of_mem _⟩
    simpa using hn.cleared hv
  | add p =>
    refine hn.carry ⟨rfl, id, fun hv => ?_, fun _ h => h, hn.live, fun _ h => h, fun _ h => .inl h,
      fun _ p ha => Accounted.mono ha (fun _ h => h) (fun _ h => h) fun _ =>
        List.mem_cons_of_mem _⟩
    simpa using hn.cleared hv
  | push base headSeq packs hsync hp =>
    exact hn.carry (carries_manifest hn rfl rfl rfl rfl (fun _ h => List.mem_append_left _ h)
      (fun _ h => List.mem_append_right _ h) fun _ h => h)
  | compact base headSeq p supersedes hp =>
    exact hn.carry (carries_manifest hn rfl rfl rfl rfl (fun _ h => List.mem_append_left _ h)
      (fun _ h => List.mem_append_right _ h) fun _ h => h)
  | rewrite base headSeq looks =>
    exact hn.carry (carries_manifest hn rfl rfl rfl rfl (fun _ h => List.mem_append_left _ h)
      (fun _ h => List.mem_append_right _ h) fun _ h => h)
  | same m hsync hrev =>
    exact hn.carry (carries_manifest hn rfl rfl rfl rfl (fun _ h => List.mem_append_left _ h)
      (fun _ h => List.mem_append_right _ h) fun _ h => h)
  | adopt m hsync =>
    exact hn.carry (carries_manifest hn rfl rfl rfl rfl (fun _ h => List.mem_append_left _ h)
      (fun _ h => List.mem_append_right _ h) fun _ h => h)
  | note l r c hl =>
    refine hn.carry (carries_manifest hn rfl rfl rfl rfl (fun _ h => h) hn.live fun p hp => ?_)
    have hpend : p ∈ (s.state.pend c.supersedes).pendingPackRemovals := mem_pend.mpr (.inl hp)
    simp only [RepoState.note]
    split_ifs <;> exact hpend
  | replay m supersedes hsync h0 =>
    exact hn.carry (carries_manifest hn rfl rfl rfl rfl (fun _ h => h) hn.live
      fun p hp => mem_pend.mpr (.inl hp))
  | fetch | empty | reset | apply | fail | read | unread =>
    exact hn.carry (carries_manifest hn rfl rfl rfl rfl (fun _ h => h) hn.live fun _ h => h)

theorem noticed_reach (hr : Reach s) : Noticed s := by
  induction hr with
  | opened h => exact noticed_opened h
  | step hr hs ih => exact noticed_step ih (inv_reach hr) hs

/-- A pack on disk that no manifest ever listed and that no request answers for keeps the handle
from serving objects before another pass: no sync that wants packs takes it as it is. -/
theorem orphan_noticed (hr : Reach s) (hp : p ∈ s.packs) (hl : p ∉ s.listed)
    (ht : ∀ t ∈ s.tasks, ¬ t.Protects p) : ¬ (s.packsVerified ∧ s.state.packsReady) ∧
      ∀ level mountable linked, level ≠ .refs → ¬ s.levelSatisfied level mountable linked := by
  have hnot : ¬ (s.packsVerified ∧ s.state.packsReady) := by
    rintro ⟨hv, hready⟩
    rcases (noticed_reach hr).seen hv p hp with ha | ha | ⟨t, hmem, ha⟩
    · exact hl ha
    · simp [RepoState.packsReady] at hready
      simp [hready.2] at ha
    · exact ht t hmem ha
  refine ⟨hnot, fun level mountable linked hlevel hsat => hnot ?_⟩
  cases level with
  | refs => exact absurd rfl hlevel
  | serve | full =>
    simp only [Handle.levelSatisfied, Bool.and_eq_true] at hsat
    exact hsat.1

/-- A pass that finds nothing, and then an `add_pack` whose publication fails. -/
theorem orphan_noticed_added :
    ∃ s : System ℕ, Reach s ∧ s.packsVerified ∧ ¬ (s.packsVerified ∧ s.state.packsReady) ∧
      ∀ level mountable linked, level ≠ .refs → ¬ s.levelSatisfied level mountable linked := by
  have h0 : Reach { residue with packs := [] } :=
    .opened ⟨rfl, fun _ => rfl, rfl, rfl, rfl, rfl, rfl, rfl, rfl, rfl, rfl⟩
  have h1 := h0.step (.pass _ _ .take)
  have h2 := h1.step (.pass _ _ (.start _))
  have h3 := h2.step (.pass _ _ (.lock _ rfl))
  have h4 := h3.step (.pass _ _ (.pending _))
  have h5 := h4.step (.pass _ _ (.list _ _ _))
  have h6 := h5.step (.pass _ _ (.nothing _ _))
  have h7 := h6.step (.pass _ _ (.close _ _))
  have h8 := h7.step (.pass _ _ (.state _))
  have h9 := h8.step (.pass _ _ (.check _))
  have h10 := h9.step (.pass _ _ (.mark _))
  have h11 := h10.step (.pass _ _ .finish)
  have h12 := h11.step (.add 7)
  have h13 := h12.step (.task [] [] _ _ _ rfl (.place rfl 7 (by decide)))
  have h14 := h13.step (.task [] [] _ _ _ rfl (.answer 7 (by decide)))
  have h15 := h14.step (.task [] [] _ _ _ rfl (.unstage 7 (by decide) (by decide) rfl))
  have h16 := h15.step (.task [] [] _ _ _ rfl (.check 7 rfl))
  have h17 := h16.step (.task [] [] _ _ _ rfl (.record 7 rfl))
  refine ⟨_, h17, rfl, orphan_noticed h17 (p := 7) (by decide) (by decide) ?_⟩
  simp [Task.Protects]

end Orphans

end Walgit.PackPrune
