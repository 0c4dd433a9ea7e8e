import Walgit.Lib.Interleaving
import Walgit.Refs

/-!
# The store, the handles and the atomic calls

One repository in one bucket and any number of handles on it. Each store call
and each lock-protected access to a handle is one call; the environment picks
its outcome. A put or a local write may answer an error with or without having
been applied. A crash is a task that is never run again; a restart is a new
handle opened over the refs that an older one left on disk.

The manifest object is the head of `commits`, which also keeps every earlier
manifest with the one its writer started from, the operation and the log slot it
was committed with. The tasks that wrote a segment or a commit, the verdicts and
the replies are history.
-/

namespace Walgit

open Interleaving

structure Segment where
  version : ℕ
  entries : List LogEntry
  task : ℕ
  deriving DecidableEq, Repr

/-- A claimed log slot: `log/<seq>.pb` at the version written, with its entries. -/
structure Slot where
  seq : ℕ
  version : ℕ
  entries : List LogEntry
  deriving DecidableEq, Repr

structure Commit where
  version : ℕ
  base : Manifest
  manifest : Manifest
  op : ManifestOp
  slot : Option Slot
  task : Option ℕ
  deriving DecidableEq, Repr

def Commit.created : Commit := ⟨0, .created, .created, .create, none, none⟩

def Commit.entries (c : Commit) : List LogEntry := c.slot.elim [] Slot.entries

/-- Every committed entry, oldest first. -/
def logOf : List Commit → List LogEntry
  | [] => []
  | c :: cs => logOf cs ++ c.entries

structure RepoState where
  manifestVersion : Option ℕ
  appliedSeq : ℕ
  revision : ℕ
  deriving DecidableEq, Repr

def RepoState.default : RepoState := ⟨none, 0, 0⟩

structure Handle where
  manifest : Manifest
  version : Option ℕ
  state : RepoState
  verified : Bool
  refs : RefState
  syncMutex : Option ℕ
  publishing : Bool
  lastEntryTime : Option ℕ
  live : Bool

inductive FailCause
  | sync | refs | upload | claim | notLanded | landedUnread | vanished | dropped
  | retry (attempts : ℕ)
  deriving DecidableEq, Repr

/-- What a request is answered with; a failure keeps where its batch gave up. -/
inductive Reply
  | done (seq : ℕ) (perRef : PerRef)
  | failed (cause : FailCause)

structure Verdict where
  task : ℕ
  slot : Slot
  found : Bool

structure Replies where
  task : ℕ
  answers : List (PublishRequest × Reply)

structure World where
  commits : List Commit
  segs : ℕ → Option Segment
  cpRefs : ℕ → Option RefState
  cps : ℕ → Option Checkpoint
  next : ℕ
  handles : ℕ → Option Handle
  verdicts : List Verdict
  replies : List Replies

def World.current (σ : World) : Commit := σ.commits.headD .created

def World.head (σ : World) : ℕ := σ.current.manifest.headSeq

def World.log (σ : World) : List LogEntry := logOf σ.commits

def World.setHandle (σ : World) (h : ℕ) (hd : Handle) : World :=
  { σ with handles := fun j => if j = h then some hd else σ.handles j }

def World.setSegment (σ : World) (seq : ℕ) (o : Option Segment) : World :=
  { σ with segs := fun j => if j = seq then o else σ.segs j }

/-- `Registry::create` on the instance of handle 0; the other instances open later. -/
def World.init : World where
  commits := [.created]
  segs := fun _ => none
  cpRefs := fun _ => none
  cps := fun _ => none
  next := 1
  handles := fun h => if h = 0 then
      some ⟨.created, some 0, .default, false, .init, none, false, none, true⟩
    else none
  verdicts := []
  replies := []

inductive Outcome
  | ok | err | errApplied
  deriving DecidableEq, Repr

structure Choice where
  outcome : Outcome
  now : ℕ
  ttlActive : Bool

inductive PutError
  | preconditionFailed | other
  deriving DecidableEq, Repr

/-- The calls. The arguments `seen`, `base`, `own`, `fresh`, `view`, `batch` and `done`, and the
slot of a put, are what the caller already holds: they say in which situation it makes the
call. `locked` says that the caller holds the mutex there. `fallible` is a call without a
modelled effect. -/
inductive Op
  | halt
  | now
  | fallible
  | getManifest
  | getManifestIf (known : Option ℕ)
  | casLanded (slot : Slot)
  | headManifest (fresh : Manifest)
  | putManifest (known : Option ℕ) (base : Manifest) (op : ManifestOp) (slot : Option Slot)
  | putSegment (seq : ℕ) (entries : List LogEntry)
  | headSegment (seq : ℕ)
  | deleteSegment (seq version : ℕ)
  | getSegment (seq : ℕ)
  | putCheckpointRefs (seq : ℕ) (snap : RefState)
  | putCheckpoint (seq : ℕ) (cp : Checkpoint)
  | getCheckpointRefs (seq : ℕ)
  | leftover (old : Option ℕ)
  | install (h : ℕ) (m : Manifest) (version : ℕ) (state : RepoState) (refs : RefState)
  | publishHandle (h : ℕ)
  | enter (h : ℕ)
  | beginBatch (h : ℕ)
  | endBatch (h : ℕ)
  | lock (h : ℕ)
  | unlock (h : ℕ)
  | ttlActive (h : ℕ)
  | manifest (h : ℕ)
  | version (h : ℕ)
  | versionFor (h : ℕ) (seen : Manifest)
  | state (h : ℕ)
  | verified (h : ℕ)
  | lastEntryTime (h : ℕ) (view : RefState) (batch : List PublishRequest)
  | noteEntryTime (h time : ℕ)
  | setManifest (h : ℕ) (m : Manifest) (locked : Bool)
  | setVersion (h : ℕ) (own : Manifest) (version : ℕ)
  | takeVersion (h : ℕ)
  | setState (h : ℕ) (own : Manifest) (version : ℕ) (applied : Option ℕ) (locked : Bool)
  | setApplied (h seq : ℕ)
  | setVerified (h : ℕ) (b : Bool)
  | lockForCommit (h : ℕ) (own : Manifest)
  | refView (h : ℕ) (seen : Manifest)
  | refs (h : ℕ) (seen : Manifest)
  | loadRefSnapshot (h : ℕ) (snap : RefState)
  | applyRefTxn (h : ℕ) (txn : RefTransaction) (done : ℕ)
  | applyRefTxnsOffline (h : ℕ) (txns : List RefTransaction)
  | refresh (h : ℕ)
  | respond (answers : List (PublishRequest × Reply))

@[reducible]
def Op.Res : Op → Type
  | .halt => Empty
  | .now => ℕ
  | .fallible => Except WalError Unit
  | .getManifest => Except WalError (Manifest × ℕ)
  | .getManifestIf _ => Except WalError (Option (Manifest × ℕ))
  | .casLanded _ => Except WalError (Option Manifest)
  | .headManifest _ => Except WalError (Option ℕ)
  | .putManifest .. => Except PutError ℕ
  | .putSegment .. => Except PutError ℕ
  | .headSegment _ => Except WalError (Option ℕ)
  | .deleteSegment .. => Unit
  | .getSegment _ => Except WalError (List LogEntry)
  | .putCheckpointRefs .. => Except WalError Unit
  | .putCheckpoint .. => Except WalError Unit
  | .getCheckpointRefs _ => Except WalError (Option RefState)
  | .leftover _ => RefState × RepoState
  | .install .. => Unit
  | .publishHandle _ => Unit
  | .enter _ => Unit
  | .beginBatch _ => Unit
  | .endBatch _ => Unit
  | .lock _ => Unit
  | .unlock _ => Unit
  | .ttlActive _ => Bool
  | .manifest _ => Manifest
  | .version _ => Option ℕ
  | .versionFor .. => Option ℕ
  | .state _ => RepoState
  | .verified _ => Bool
  | .lastEntryTime .. => Option ℕ
  | .noteEntryTime .. => Unit
  | .setManifest .. => Unit
  | .setVersion .. => Unit
  | .takeVersion _ => Unit
  | .setState .. => Unit
  | .setApplied .. => Unit
  | .setVerified .. => Unit
  | .lockForCommit .. => Unit
  | .refView .. => Except WalError RefState
  | .refs .. => Except WalError RefState
  | .loadRefSnapshot .. => Except WalError Unit
  | .applyRefTxn .. => Except WalError Unit
  | .applyRefTxnsOffline .. => Except WalError Unit
  | .refresh _ => Except WalError Unit
  | .respond _ => Unit

/-- A local write that fails after the refs were replaced leaves `HEAD` as it was. -/
def halfLoaded (s snap : RefState) : RefState
  | .head => s .head
  | .ref name => snap (.ref name)

def Handle.setRefs (hd : Handle) (c : Choice) (new half : RefState) :
    Except WalError Unit × Handle :=
  match c.outcome with
  | .ok => (.ok (), { hd with refs := new })
  | .err => (.error .git, hd)
  | .errApplied => (.error .git, { hd with refs := half })

def Handle.applyRefTxn (hd : Handle) (c : Choice) (txn : RefTransaction) :
    Except WalError Unit × Handle :=
  match Walgit.applyRefTxn hd.refs txn with
  | some s => hd.setRefs c s (gitUpdateRef hd.refs txn)
  | none => (.error .git, hd)

def Handle.applyRefTxnsOffline (hd : Handle) (c : Choice) (txns : List RefTransaction) :
    Except WalError Unit × Handle :=
  match Walgit.applyRefTxnsOffline hd.refs txns with
  | some s => hd.setRefs c s (halfLoaded hd.refs s)
  | none => (.error .git, hd)

def Handle.setState (hd : Handle) (own : Manifest) (version : ℕ) (applied : Option ℕ) :
    Handle :=
  { hd with state := ⟨some version, applied.getD hd.state.appliedSeq, own.revision⟩ }

section Calls

variable (σ : World) (c : Choice)

def World.read {α : Type} (h : ℕ) (f : Handle → α) : Option (α × World) :=
  (σ.handles h).map fun hd => (f hd, σ)

def World.update (h : ℕ) (f : Handle → Handle) : Option (Unit × World) :=
  (σ.handles h).map fun hd => ((), σ.setHandle h (f hd))

def World.updateIf (h : ℕ) (p : Handle → Bool) (f : Handle → Handle) : Option (Unit × World) :=
  (σ.handles h).bind fun hd => if p hd then some ((), σ.setHandle h (f hd)) else none

def World.tryUpdate {α : Type} (h : ℕ) (f : Handle → α × Handle) : Option (α × World) :=
  (σ.handles h).map fun hd => ((f hd).1, σ.setHandle h (f hd).2)

def Choice.get {α : Type} (a : α) : Except WalError α :=
  match c.outcome with
  | .ok => .ok a
  | _ => .error .store

/-- A write whose error says nothing about whether it was applied. -/
def Choice.put (σ' : World) : Except WalError Unit × World :=
  match c.outcome with
  | .ok => (.ok (), σ')
  | .err => (.error .store, σ)
  | .errApplied => (.error .store, σ')

def World.commit (t : ℕ) (base : Manifest) (op : ManifestOp) (slot : Option Slot) : World :=
  { σ with commits := ⟨σ.next, base, op.apply base, op, slot, some t⟩ :: σ.commits
           next := σ.next + 1 }

def World.writeSegment (t seq : ℕ) (entries : List LogEntry) : World :=
  { σ.setSegment seq (some ⟨σ.next, entries, t⟩) with next := σ.next + 1 }

/-- `PutMode::Update(known)`, or `Create` without a known version. -/
def World.putManifest (t : ℕ) (known : Option ℕ) (base : Manifest) (op : ManifestOp)
    (slot : Option Slot) : Except PutError ℕ × World :=
  match c.outcome with
  | .err => (.error .other, σ)
  | o =>
    if known = some σ.current.version then
      (if o = .ok then .ok σ.next else .error .other, σ.commit t base op slot)
    else (.error .preconditionFailed, σ)

def World.putSegment (t seq : ℕ) (entries : List LogEntry) : Except PutError ℕ × World :=
  match c.outcome with
  | .err => (.error .other, σ)
  | o =>
    if (σ.segs seq).isNone then
      (if o = .ok then .ok σ.next else .error .other, σ.writeSegment t seq entries)
    else (.error .preconditionFailed, σ)

def World.deleteSegment (seq version : ℕ) : World :=
  if c.outcome ≠ .err ∧ (σ.segs seq).any fun o => o.version = version then
    σ.setSegment seq none
  else σ

def Slot.listedIn (slot : Slot) (m : Manifest) : Bool :=
  m.logSegments.any fun s => s.key = slot.seq && s.firstSeq = slot.seq

def World.casLanded (t : ℕ) (slot : Slot) : Except WalError (Option Manifest) × World :=
  match c.outcome with
  | .ok =>
    let found := slot.listedIn σ.current.manifest
    (.ok (if found then some σ.current.manifest else none),
      { σ with verdicts := ⟨t, slot, found⟩ :: σ.verdicts })
  | _ => (.error .store, σ)

end Calls

def exec (t : ℕ) (o : Op) (c : Choice) (σ : World) : Option (o.Res × World) :=
  match o with
  | .halt => none
  | .now => some (c.now, σ)
  | .fallible => some (c.get (), σ)
  | .getManifest => some (c.get (σ.current.manifest, σ.current.version), σ)
  | .getManifestIf known =>
    some (c.get (if known = some σ.current.version then none
      else some (σ.current.manifest, σ.current.version)), σ)
  | .casLanded slot => some (σ.casLanded c t slot)
  | .headManifest _ => some (c.get (some σ.current.version), σ)
  | .putManifest known base op slot => some (σ.putManifest c t known base op slot)
  | .putSegment seq entries => some (σ.putSegment c t seq entries)
  | .headSegment seq => some (c.get ((σ.segs seq).map Segment.version), σ)
  | .deleteSegment seq version => some ((), σ.deleteSegment c seq version)
  | .getSegment seq =>
    some ((σ.segs seq).elim (.error .store) fun o => c.get o.entries, σ)
  | .putCheckpointRefs seq snap =>
    some (c.put σ { σ with cpRefs := fun j => if j = seq then some snap else σ.cpRefs j })
  | .putCheckpoint seq cp =>
    some (c.put σ { σ with cps := fun j => if j = seq then some cp else σ.cps j })
  | .getCheckpointRefs seq => some (c.get (σ.cpRefs seq), σ)
  | .leftover none => some ((.init, .default), σ)
  | .leftover (some h) => σ.read h fun hd => (hd.refs, hd.state)
  | .install h m version state refs =>
    if (σ.handles h).isNone then
      some ((), σ.setHandle h
        ⟨m, some version, state, false, refs, some t, false, none, false⟩)
    else none
  | .publishHandle h => σ.update h fun hd => { hd with syncMutex := none, live := true }
  | .enter h => σ.updateIf h Handle.live id
  | .beginBatch h =>
    σ.updateIf h (fun hd => hd.live && !hd.publishing) fun hd => { hd with publishing := true }
  | .endBatch h => σ.update h fun hd => { hd with publishing := false }
  | .lock h => σ.updateIf h (·.syncMutex.isNone) fun hd => { hd with syncMutex := some t }
  | .lockForCommit h _ =>
    σ.updateIf h (·.syncMutex.isNone) fun hd => { hd with syncMutex := some t }
  | .unlock h => σ.update h fun hd => { hd with syncMutex := none }
  | .ttlActive h => σ.read h fun _ => c.ttlActive
  | .manifest h => σ.read h Handle.manifest
  | .version h => σ.read h Handle.version
  | .versionFor h _ => σ.read h Handle.version
  | .state h => σ.read h Handle.state
  | .verified h => σ.read h Handle.verified
  | .lastEntryTime h _ _ => σ.read h Handle.lastEntryTime
  | .noteEntryTime h time => σ.update h fun hd =>
    { hd with lastEntryTime := some (max time (hd.lastEntryTime.getD 0)) }
  | .setManifest h m _ => σ.update h fun hd => { hd with manifest := m }
  | .setVersion h _ version => σ.update h fun hd => { hd with version := some version }
  | .takeVersion h => σ.update h fun hd => { hd with version := none }
  | .setState h own version applied _ => σ.update h fun hd => hd.setState own version applied
  | .setApplied h seq => σ.update h fun hd => { hd with state.appliedSeq := seq }
  | .setVerified h b => σ.update h fun hd => { hd with verified := b }
  | .refView h _ => σ.read h fun hd => c.get hd.refs
  | .refs h _ => σ.read h fun hd => c.get hd.refs
  | .loadRefSnapshot h snap => σ.tryUpdate h fun hd =>
    hd.setRefs c (Walgit.loadRefSnapshot hd.refs snap) (halfLoaded hd.refs snap)
  | .applyRefTxn h txn _ => σ.tryUpdate h fun hd => hd.applyRefTxn c txn
  | .applyRefTxnsOffline h txns => σ.tryUpdate h fun hd => hd.applyRefTxnsOffline c txns
  | .refresh h => σ.read h fun _ => c.get ()
  | .respond answers => some ((), { σ with replies := ⟨t, answers⟩ :: σ.replies })

abbrev Task := Prog Op Op.Res

def call (o : Op) : Task o.Res := Prog.perform o

end Walgit
