import Walgit.World

/-!
# Refs-level sync

The freshness check and the apply of a manifest's delta, as `sync_refs_phase`,
`sync_locked_inner`, `apply_delta_with_rebuild` and `replay_log` do them. Every
store call, every access to a handle's lock-protected fields and every rewrite
of the local refs is one call. `fallible` stands for the calls that touch
nothing modelled (packs, the state file, the object database).
-/

namespace Walgit

open Interleaving

/-- The `?` operator. -/
def Task.andThen {ε α β : Type} (p : Task (Except ε α)) (f : α → Task (Except ε β)) :
    Task (Except ε β) :=
  p >>= fun
    | .ok a => f a
    | .error e => pure (.error e)

def fetchSegments : List ℕ → Task (Except WalError (List LogEntry))
  | [] => pure (.ok [])
  | key :: keys =>
    Task.andThen (call (.getSegment key)) fun es =>
      Task.andThen (fetchSegments keys) fun rest => pure (.ok (es ++ rest))

def sortEntries (es : List LogEntry) : List LogEntry :=
  es.insertionSort fun a b => a.seq ≤ b.seq

def noteLastEntry (h : ℕ) (es : List LogEntry) : Task Unit :=
  match es.getLast? with
  | some e => call (.noteEntryTime h e.createdAt)
  | none => pure ()

def applyEntries (h : ℕ) (es : List LogEntry) : Task (Except WalError Unit) :=
  let txns := es.filterMap LogEntry.refTxn
  if txns.isEmpty then pure (.ok ()) else call (.applyRefTxnsOffline h txns)

def replayLog (h : ℕ) (m : Manifest) (fromSeq toSeq : ℕ) : Task (Except WalError Unit) :=
  Task.andThen (pure (ensureReplayable m fromSeq toSeq)) fun _ =>
    let keys := (m.logSegments.filter fun s =>
      fromSeq < s.lastSeq ∧ s.firstSeq ≤ toSeq).map LogSegmentRef.key
    Task.andThen (fetchSegments keys) fun fetched =>
      let all := sortEntries (fetched.filter fun e => fromSeq < e.seq ∧ e.seq ≤ toSeq)
      if fromSeq < toSeq ∧ all.getLast?.all fun e => e.seq < toSeq then
        pure (.error .corrupt)
      else do
        noteLastEntry h all
        applyEntries h all

def loadSnapshotAt (h seq : ℕ) (snap : RefState) : Task (Except WalError Unit) :=
  Task.andThen (call (.loadRefSnapshot h snap)) fun _ => do
    call (.setApplied h seq)
    pure (.ok ())

/-- The start of the replay: the checkpoint's refs, nothing, or the refs as they are. -/
def loadStart (h : ℕ) (m : Manifest) (needCheckpointLoad rebuilt : Bool) :
    Task (Except WalError Unit) :=
  if needCheckpointLoad then
    Task.andThen (call (.getCheckpointRefs m.checkpointSeq)) fun
      | some snap => loadSnapshotAt h m.checkpointSeq snap
      | none => pure (.error .corrupt)
  else if rebuilt then loadSnapshotAt h 0 .empty
  else pure (.ok ())

def applyTail (h : ℕ) (m : Manifest) (applied : ℕ) (rebuilt : Bool) :
    Task (Except WalError Unit) :=
  let needCheckpointLoad :=
    decide (0 < m.checkpointSeq) && (rebuilt || decide (applied < m.checkpointSeq))
  let replayFrom :=
    if needCheckpointLoad then m.checkpointSeq else if rebuilt then 0 else applied
  if m.headSeq < m.checkpointSeq then pure (.error .corrupt)
  else
    Task.andThen (pure (ensureReplayable m replayFrom m.headSeq)) fun _ =>
      -- learn_checkpoint_times
      Task.andThen (call .fallible) fun _ =>
        Task.andThen (loadStart h m needCheckpointLoad rebuilt) fun _ => do
          let state ← call (.state h)
          if state.appliedSeq < m.headSeq then replayLog h m state.appliedSeq m.headSeq
          else pure (.ok ())

def applyDeltaWithRebuild (h : ℕ) (m : Manifest) (version : ℕ) (force : Bool) :
    Task (Except WalError Unit) := do
  let current ← call (.state h)
  let rebuilt := force || decide (m.headSeq < current.appliedSeq) ||
    decide (m.revision < current.revision)
  call (.setVerified h false)
  let body := if m.headSeq = 0 then
      Task.andThen (call .fallible) fun _ => loadSnapshotAt h 0 .empty
    else applyTail h m current.appliedSeq rebuilt
  Task.andThen body fun _ => do
    call (.setState h m version (some m.headSeq) true)
    -- save_state, then refresh_async
    Task.andThen (call .fallible) fun _ => call .fallible

def applyAndVerify (h : ℕ) (m : Manifest) (version : ℕ) : Task (Except WalError Unit) :=
  Task.andThen (applyDeltaWithRebuild h m version true) fun _ => do
    call (.setVerified h true)
    pure (.ok ())

/-- The 304 branch: nothing to do unless the local refs are unproven. -/
def syncUnchanged (h : ℕ) (known : Option ℕ) (force : Bool) : Task (Except WalError Unit) :=
  if force then do
    let m ← call (.manifest h)
    match known with
    | some version => applyAndVerify h m version
    | none => pure (.error .corrupt)
  else pure (.ok ())

def syncChanged (h : ℕ) (m : Manifest) (version : ℕ) (force : Bool) :
    Task (Except WalError Unit) := do
  let cur ← call (.manifest h)
  let held ← call (.version h)
  if m.revision < cur.revision then
    -- a stale read: a local publish is ahead
    if force then
      match ← call (.version h) with
      | some version => applyAndVerify h cur version
      | none => pure (.error .corrupt)
    else pure (.ok ())
  else if held.isSome ∧ m.revision = cur.revision then
    Task.andThen (if force then applyAndVerify h m version else pure (.ok ())) fun _ => do
      call (.setManifest h m true)
      call (.setVersion h m version)
      pure (.ok ())
  else
    Task.andThen (applyDeltaWithRebuild h m version force) fun _ => do
      call (.setManifest h m true)
      call (.setVersion h m version)
      call (.setVerified h true)
      pure (.ok ())

def syncLockedInner (h : ℕ) (force : Bool) : Task (Except WalError Unit) := do
  let known ← call (.version h)
  Task.andThen (call (.getManifestIf known)) fun outcome => do
    let verified ← call (.verified h)
    match outcome with
    | none => syncUnchanged h known (force || !verified)
    | some (m, version) => syncChanged h m version (force || !verified)

def freshEnough (h : ℕ) : Task Bool := do
  let verified ← call (.verified h)
  if verified then call (.ttlActive h) else pure false

def syncRefsPhase (h : ℕ) : Task (Except WalError Unit) := do
  if ← freshEnough h then pure (.ok ())
  else
    call (.lock h)
    if ← freshEnough h then
      call (.unlock h)
      pure (.ok ())
    else
      let verified ← call (.verified h)
      let r ← syncLockedInner h (!verified)
      call (.unlock h)
      pure r

/-- Serve level: the refs phase, then the packs. -/
def syncServe (h : ℕ) : Task (Except WalError Unit) :=
  Task.andThen (syncRefsPhase h) fun _ => call .fallible

def rebuildRefs (h : ℕ) : Task (Except WalError Unit) := do
  call (.lock h)
  let r ← syncLockedInner h true
  call (.unlock h)
  pure r

/-- `Registry::open`: nobody else sees the handle before its refs are applied. -/
def openRepo (h : ℕ) (old : Option ℕ) : Task (Except WalError Unit) := do
  let left ← call (.leftover old)
  Task.andThen (call .getManifest) fun (m, version) => do
    call (.install h m version left.2 left.1)
    let needsApply := left.2.appliedSeq ≠ m.headSeq ∨ m.headSeq = 0
    Task.andThen (if needsApply then applyAndVerify h m version else pure (.ok ())) fun _ => do
      call (.publishHandle h)
      pure (.ok ())

end Walgit
