import Walgit.Lib.Interleaving
import Walgit.World

/-!
# The registry and its cache

One repository on one instance: the registry's handle, the local directory, the
requests and `evict_idle`. A request opens the repository, syncs at the level it
needs, reads under its guard and drops the handle. A manifest stands for the
refs and the packs that it has, and is numbered by its head seq; other instances
commit new ones at any time.

A sync applies a manifest and adopts it in one step, and an apply that fails
leaves the directory as it was. A missing directory reads as an empty one. The
reads, the writes to the directory and the requests that hold a handle are
history.
-/

namespace Walgit.Cache

open Interleaving

structure Snapshot where
  seq : ℕ
  refs : RefState
  packs : List String

/-- `hasHead` says that the directory is a repository; `appliedSeq` is in its state file. -/
structure Dir where
  hasHead : Bool
  refs : RefState
  packs : List String
  appliedSeq : ℕ

def Dir.missing : Dir := ⟨false, .empty, [], 0⟩

/-- `reconciledAt` is the manifest of the last pack reconciliation (`packs_revision`), and
`packsVerified` says that nothing was left to remove after it. `applied` is history: some apply
of this handle has succeeded. -/
structure Handle where
  manifest : Snapshot
  verified : Bool
  applied : Bool
  reconciledAt : Option ℕ
  packsVerified : Bool
  lastAccess : ℕ
  syncMutex : Option ℕ
  packMutex : Option ℕ
  readers : ℕ
  writing : Bool

/-- A read under a guard: the seq that the request's sync had reached, the handle's manifest and
what the directory had. -/
inductive Read
  | refs (since : ℕ) (held : Snapshot) (seen : RefState)
  | packs (since : ℕ) (held : Snapshot) (seen : List String)

/-- `owner` is the handle that opened the directory last; `removing` are the evictions that have
taken the handle out of the registry and are not done with the directory. -/
structure Instance where
  published : List Snapshot
  registry : Option ℕ
  gate : Option ℕ
  handles : ℕ → Option Handle
  next : ℕ
  dir : Option Dir
  owner : Option ℕ
  holders : List (ℕ × ℕ)
  removing : List ℕ
  reads : List Read
  writes : List (ℕ × Option ℕ)

def Snapshot.created : Snapshot := ⟨0, .init, []⟩

def Instance.init : Instance where
  published := [.created]
  registry := none
  gate := none
  handles := fun _ => none
  next := 0
  dir := none
  owner := none
  holders := []
  removing := []
  reads := []
  writes := []

inductive Op
  | publish (refs : RefState) (packs : List String)
  | lookup
  | lockGate
  | unlockGate
  | getManifest
  | getManifestIf (known : ℕ)
  | openLocal (m : Snapshot)
  | insert (h : ℕ)
  | drop (h : ℕ)
  | touch (h : ℕ)
  | fresh (h : ℕ)
  | verified (h : ℕ)
  | manifest (h : ℕ)
  | lockSync (h : ℕ)
  | unlockSync (h : ℕ)
  | apply (h : ℕ) (m : Snapshot)
  | levelSatisfied (h : ℕ)
  | lockPacks (h : ℕ)
  | unlockPacks (h : ℕ)
  | reconcile (h : ℕ) (m : Snapshot)
  | acquire (h : ℕ)
  | release (h : ℕ)
  | readRefs (h since : ℕ)
  | readPacks (h since : ℕ)
  | sampleIdle (after : ℕ)
  | overBudget
  | tryLockSync (h : ℕ)
  | tryWrite (h : ℕ)
  | releaseWrite (h : ℕ)
  | unregister (h : ℕ)
  | removePart
  | removeDir

@[reducible]
def Op.Res : Op → Type
  | .publish .. => Unit
  | .lookup => Option ℕ
  | .lockGate => Unit
  | .unlockGate => Unit
  | .getManifest => Except WalError Snapshot
  | .getManifestIf _ => Except WalError (Option Snapshot)
  | .openLocal _ => Except WalError (ℕ × ℕ)
  | .insert _ => Unit
  | .drop _ => Unit
  | .touch _ => Unit
  | .fresh _ => Bool
  | .verified _ => Bool
  | .manifest _ => Snapshot
  | .lockSync _ => Unit
  | .unlockSync _ => Unit
  | .apply .. => Except WalError Unit
  | .levelSatisfied _ => Option ℕ
  | .lockPacks _ => Unit
  | .unlockPacks _ => Unit
  | .reconcile .. => Except WalError ℕ
  | .acquire _ => Unit
  | .release _ => Unit
  | .readRefs .. => Unit
  | .readPacks .. => Unit
  | .sampleIdle _ => Option ℕ
  | .overBudget => Bool
  | .tryLockSync _ => Bool
  | .tryWrite _ => Bool
  | .releaseWrite _ => Unit
  | .unregister _ => Unit
  | .removePart => Unit
  | .removeDir => Unit

section Exec

variable (t : ℕ) (c : Choice) (σ : Instance)

def Instance.stored : Snapshot := σ.published.headD .created

def Instance.local : Dir := σ.dir.getD .missing

def Instance.setHandle (h : ℕ) (hd : Handle) : Instance :=
  { σ with handles := fun j => if j = h then some hd else σ.handles j }

def Instance.read {α : Type} (h : ℕ) (f : Handle → α) : Option (α × Instance) :=
  (σ.handles h).map fun hd => (f hd, σ)

def Instance.update (h : ℕ) (f : Handle → Handle) : Option (Unit × Instance) :=
  (σ.handles h).map fun hd => ((), σ.setHandle h (f hd))

/-- A lock is waited for. -/
def Instance.lock (h : ℕ) (free : Handle → Bool) (f : Handle → Handle) :
    Option (Unit × Instance) :=
  (σ.handles h).bind fun hd => if free hd then some ((), σ.setHandle h (f hd)) else none

def Instance.tryLock (h : ℕ) (free : Handle → Bool) (f : Handle → Handle) :
    Option (Bool × Instance) :=
  (σ.handles h).map fun hd => if free hd then (true, σ.setHandle h (f hd)) else (false, σ)

def newHandle (m : Snapshot) (now : ℕ) : Handle :=
  ⟨m, false, false, none, false, now, none, none, 0, false⟩

/-- `LocalRepo::open`, or `init` where there is no repository, and the new handle. -/
def Instance.openLocal (m : Snapshot) : (ℕ × ℕ) × Instance :=
  ((σ.next, σ.local.appliedSeq),
    { σ with dir := some { σ.local with hasHead := true }
             owner := some σ.next
             handles := fun j => if j = σ.next then some (newHandle m c.now) else σ.handles j
             next := σ.next + 1
             holders := (t, σ.next) :: σ.holders })

/-- The refs are written and the manifest is adopted; without a directory the write fails. -/
def Instance.apply (h : ℕ) (hd : Handle) (m : Snapshot) : Except WalError Unit × Instance :=
  match c.outcome, σ.dir with
  | .ok, some d =>
    (.ok (), { σ.setHandle h { hd with manifest := m, verified := true, applied := true } with
      dir := some { d with refs := m.refs, appliedSeq := m.seq }
      writes := (h, σ.owner) :: σ.writes })
  | _, _ => (.error .git, σ.setHandle h { hd with verified := false })

/-- The missing packs are installed, also where there is no directory. What the manifest does not
list is removed unless a reader is active, except for packs of the handle's own manifest. -/
def Instance.reconcile (h : ℕ) (hd : Handle) (m : Snapshot) : Except WalError ℕ × Instance :=
  match c.outcome with
  | .ok =>
    let d := σ.local
    let kept := d.packs.filter fun p => p ∈ m.packs ∨ p ∈ hd.manifest.packs
    let free := decide (hd.readers = 0) && !hd.writing
    let packs := if free then kept else d.packs
    let hd' := { hd with reconciledAt := some m.seq
                         packsVerified := decide (packs.length = kept.length) }
    (.ok m.seq, { σ.setHandle h hd' with
      dir := some { d with packs := packs ++ m.packs }
      writes := (h, σ.owner) :: σ.writes })
  | _ => (.error .store, σ.setHandle h { hd with packsVerified := false })

def Handle.satisfied (hd : Handle) : Option ℕ :=
  if hd.packsVerified ∧ hd.reconciledAt = some hd.manifest.seq then some hd.manifest.seq else none

/-- The directory's entries go one after the other. -/
def Instance.removePart : Instance :=
  { σ with dir := σ.dir.map fun d =>
      if c.ttlActive then { d with hasHead := false, refs := .empty } else { d with packs := [] } }

end Exec

def exec (t : ℕ) (o : Op) (c : Choice) (σ : Instance) : Option (o.Res × Instance) :=
  match o with
  | .publish refs packs =>
    some ((), { σ with published := ⟨σ.stored.seq + 1, refs, packs⟩ :: σ.published })
  | .lookup => some (σ.registry,
    { σ with holders := (σ.registry.map (t, ·)).toList ++ σ.holders })
  | .lockGate => if σ.gate.isNone then some ((), { σ with gate := some t }) else none
  | .unlockGate => some ((), { σ with gate := none })
  | .getManifest => some (c.get σ.stored, σ)
  | .getManifestIf known =>
    some (c.get (if σ.stored.seq = known then none else some σ.stored), σ)
  | .openLocal m => match c.outcome with
    | .ok => some (.ok (σ.openLocal t c m).1, (σ.openLocal t c m).2)
    | _ => some (.error .git, σ)
  | .insert h => some ((), { σ with registry := some h })
  | .drop h => some ((), { σ with holders := σ.holders.erase (t, h) })
  | .touch h => σ.update h fun hd => { hd with lastAccess := c.now }
  | .fresh h => σ.read h fun hd => hd.verified && c.ttlActive
  | .verified h => σ.read h Handle.verified
  | .manifest h => σ.read h Handle.manifest
  | .lockSync h => σ.lock h (·.syncMutex.isNone) fun hd => { hd with syncMutex := some t }
  | .unlockSync h => σ.update h fun hd => { hd with syncMutex := none }
  | .apply h m => (σ.handles h).map fun hd => σ.apply c h hd m
  | .levelSatisfied h => σ.read h Handle.satisfied
  | .lockPacks h => σ.lock h (·.packMutex.isNone) fun hd => { hd with packMutex := some t }
  | .unlockPacks h => σ.update h fun hd => { hd with packMutex := none }
  | .reconcile h m => (σ.handles h).map fun hd => σ.reconcile c h hd m
  | .acquire h => σ.lock h (!·.writing) fun hd => { hd with readers := hd.readers + 1 }
  | .release h => σ.update h fun hd => { hd with readers := hd.readers - 1 }
  | .readRefs h since => (σ.handles h).map fun hd =>
    ((), { σ with reads := .refs since hd.manifest σ.local.refs :: σ.reads })
  | .readPacks h since => (σ.handles h).map fun hd =>
    ((), { σ with reads := .packs since hd.manifest σ.local.packs :: σ.reads })
  | .sampleIdle after => some (σ.registry.filter fun h =>
    (σ.handles h).any fun hd => decide (after < c.now - hd.lastAccess), σ)
  | .overBudget => some (c.ttlActive, σ)
  | .tryLockSync h =>
    σ.tryLock h (·.syncMutex.isNone) fun hd => { hd with syncMutex := some t }
  | .tryWrite h => σ.tryLock h (fun hd => decide (hd.readers = 0) && !hd.writing)
    fun hd => { hd with writing := true }
  | .releaseWrite h => σ.update h fun hd => { hd with writing := false }
  | .unregister _ => some ((), { σ with registry := none, removing := t :: σ.removing })
  | .removePart => some ((), σ.removePart c)
  | .removeDir => some ((), { σ with
      dir := if c.outcome = .ok then none else σ.dir
      removing := σ.removing.erase t })

abbrev Task := Prog Op Op.Res

def call (o : Op) : Task o.Res := Prog.perform o

section Program

/-- `Registry::open`, from the gate on. -/
def openNew (m : Snapshot) : Task (Except WalError ℕ) := do
  match ← call (.openLocal m) with
  | .error e => pure (.error e)
  | .ok (h, applied) =>
    match ← if applied ≠ m.seq ∨ m.seq = 0 then call (.apply h m) else pure (.ok ()) with
    | .error e =>
      call (.drop h)
      pure (.error e)
    | .ok () =>
      call (.insert h)
      pure (.ok h)

def openGated : Task (Except WalError ℕ) := do
  match ← call .lookup with
  | some h => pure (.ok h)
  | none =>
    match ← call .getManifest with
    | .error e => pure (.error e)
    | .ok m => openNew m

def openRepo : Task (Except WalError ℕ) := do
  match ← call .lookup with
  | some h => pure (.ok h)
  | none =>
    call .lockGate
    let r ← openGated
    call .unlockGate
    pure r

def syncLockedInner (h : ℕ) : Task (Except WalError Unit) := do
  let held ← call (.manifest h)
  match ← call (.getManifestIf held.seq) with
  | .error e => pure (.error e)
  | .ok (some m) => call (.apply h m)
  | .ok none => if ← call (.verified h) then pure (.ok ()) else call (.apply h held)

def syncRefsPhase (h : ℕ) : Task (Except WalError Unit) := do
  if ← call (.fresh h) then pure (.ok ())
  else
    call (.lockSync h)
    if ← call (.fresh h) then
      call (.unlockSync h)
      pure (.ok ())
    else
      let r ← syncLockedInner h
      call (.unlockSync h)
      pure r

/-- The seq of the manifest whose packs are there. -/
def syncPacksPhase (h : ℕ) : Task (Except WalError ℕ) := do
  match ← call (.levelSatisfied h) with
  | some q => pure (.ok q)
  | none =>
    call (.lockPacks h)
    match ← call (.levelSatisfied h) with
    | some q =>
      call (.unlockPacks h)
      pure (.ok q)
    | none =>
      let m ← call (.manifest h)
      let r ← call (.reconcile h m)
      call (.unlockPacks h)
      pure r

def readRefs (h since : ℕ) : ℕ → Task Unit
  | 0 => pure ()
  | n + 1 => do
    call (.readRefs h since)
    readRefs h since n

def readPacks (h since : ℕ) : ℕ → Task Unit
  | 0 => pure ()
  | n + 1 => do
    call (.readPacks h since)
    readPacks h since n

/-- `sync_refs`, then any number of reads of the refs under the guard. -/
def serveRefs (h reads : ℕ) : Task Unit := do
  call (.touch h)
  match ← syncRefsPhase h with
  | .error _ => pure ()
  | .ok () =>
    let m ← call (.manifest h)
    call (.acquire h)
    readRefs h m.seq reads
    call (.release h)

/-- `sync`: the refs, then the packs. -/
def serveObjects (h reads : ℕ) : Task Unit := do
  call (.touch h)
  match ← syncRefsPhase h with
  | .error _ => pure ()
  | .ok () =>
    let m ← call (.manifest h)
    match ← syncPacksPhase h with
    | .error _ => pure ()
    | .ok q =>
      call (.acquire h)
      readRefs h m.seq reads
      readPacks h q reads
      call (.release h)

inductive Level
  | refs | serve

def request (level : Level) (reads : ℕ) : Task Unit := do
  match ← openRepo with
  | .error _ => pure ()
  | .ok h =>
    match level with
    | .refs => serveRefs h reads
    | .serve => serveObjects h reads
    call (.drop h)

/-- `evict_idle`, which of one repository has one candidate. -/
def evictIdle (after : ℕ) : Task Unit := do
  match ← call (.sampleIdle after) with
  | none => pure ()
  | some h =>
    if ← call .overBudget then
      if ← call (.tryLockSync h) then
        if ← call (.tryWrite h) then
          call (.unregister h)
          call .removePart
          call .removeDir
          call (.releaseWrite h)
        call (.unlockSync h)

inductive Job
  | publish (refs : RefState) (packs : List String)
  | request (level : Level) (reads : ℕ)
  | evictIdle (after : ℕ)

def Job.run : Job → Task Unit
  | .publish refs packs => call (.publish refs packs)
  | .request level reads => Cache.request level reads
  | .evictIdle after => Cache.evictIdle after

end Program

abbrev Sys := Pool Op Op.Res Instance

abbrev Step := Event Job Choice

def Sys.init : Sys := ⟨.init, []⟩

/-- The handle is the registered one, nobody holds it and none is being opened; and a directory is
opened only when no eviction is at it. -/
def EvictsIdle (_t : ℕ) (o : Op) (_c : Choice) (σ : Instance) : Prop :=
  match o with
  | .unregister h => (∀ h', σ.registry = some h' → h' = h) ∧ σ.holders = [] ∧ σ.gate = none
  | .openLocal _ => σ.removing = []
  | _ => True

/-- No sync of another request has moved the handle on to a manifest with packs beyond those of the
manifest that the packs were last reconciled with. -/
def PacksCurrent (_t : ℕ) (o : Op) (_c : Choice) (σ : Instance) : Prop :=
  match o with
  | .readPacks h _ => ∀ hd, σ.handles h = some hd →
    ∃ m ∈ σ.published, hd.reconciledAt = some m.seq ∧ hd.manifest.packs ⊆ m.packs
  | _ => True

def Undisturbed (t : ℕ) (o : Op) (c : Choice) (σ : Instance) : Prop :=
  EvictsIdle t o c σ ∧ PacksCurrent t o c σ

/-- The states of runs all of whose calls meet `ok`. -/
def RunIf (ok : ℕ → Op → Choice → Instance → Prop) (s : Sys) : Prop :=
  Reach exec Job.run ok Sys.init s

/-- Reads see the refs and the packs of the handle's manifest, which is not older than the
request's sync, and only the handle that opened the directory last writes to it. -/
structure Invisible (σ : Instance) : Prop where
  refs : ∀ since held seen, .refs since held seen ∈ σ.reads → seen = held.refs ∧ since ≤ held.seq
  packs : ∀ since held seen, .packs since held seen ∈ σ.reads →
    held.packs ⊆ seen ∧ since ≤ held.seq
  writes : ∀ w ∈ σ.writes, w.2 = some w.1

end Walgit.Cache
