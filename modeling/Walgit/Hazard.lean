import Walgit.Checkpoint
import Walgit.History
import Walgit.Verify

/-!
# Races

The situations, each a condition on the state in which a call is made, that the
writers do not guard against. A run that avoids a list of them is one none of
whose steps is made in such a situation.
-/

namespace Walgit

open Interleaving

inductive Hazard
  /-- the version is read after the manifest field has changed -/
  | tornRead
  /-- the version is written over another writer's manifest field -/
  | tornWrite
  /-- the manifest field is set to an older revision -/
  | backwards
  /-- a writer without the mutex finds a newer manifest in the handle than the one it stores -/
  | unlockedBackwards
  /-- after an ambiguous CAS, the version is asked for when a newer manifest is stored -/
  | landedTorn
  /-- after an ambiguous CAS, the landed segment has been folded into a checkpoint -/
  | landedTrimmed
  /-- after an ambiguous CAS, the manifest read back is another writer's -/
  | landedAhead
  /-- after an ambiguous CAS that landed, the store cannot be read -/
  | landedUnread
  /-- the publisher's local commit finds the handle at its manifest or past it -/
  | staleCommit
  /-- a writer without the mutex meets a holder of it, or another writer's manifest -/
  | unlockedUpdate
  /-- a writer without the mutex moves the head of the manifest field -/
  | unlockedHead
  /-- the mutex is given back, or a handle published, with its refs unproven -/
  | unlockUnproven
  /-- the publisher's local commit fails after the refs have changed -/
  | applyFailed
  /-- a batch is verified against refs that are not proven for its manifest -/
  | staleView
  /-- a checkpoint's refs are read when they are no longer proven for its manifest -/
  | staleSnapshot
  /-- a checkpoint's refs are read while a holder of the mutex may be changing them -/
  | snapshotMoved
  /-- a checkpoint's refs are read when they are not the fold up to its seq -/
  | inexactSnapshot
  /-- a sync takes the mutex of a handle whose proven refs are behind its manifest -/
  | lockUnsettled
  /-- a checkpoint is committed over a newer one -/
  | checkpointBehind
  /-- an entry sets `HEAD` to an object, or another ref to a symbolic target -/
  | headUpdate
  /-- an entry updates one ref twice -/
  | repeatedRef
  /-- a transaction has both accepted and rejected updates -/
  | mixedVerdict
  deriving DecidableEq, Repr

def World.on (σ : World) (h : ℕ) (P : Handle → Prop) : Prop :=
  ∃ hd, σ.handles h = some hd ∧ P hd

def World.Committed (σ : World) (s : Slot) : Prop := ∃ c ∈ σ.commits, c.slot = some s

def Verified.Mixed (v : Verified) : Prop := v.valid = false ∧ ∃ r ∈ v.perRef, isOk r.2 = true

/-- The refs are proven for a head: `applied_seq == head && refs_verified`. -/
def Handle.provenAt (hd : Handle) (head : ℕ) : Prop :=
  hd.verified = true ∧ hd.state.appliedSeq = head

def applyFails (hd : Handle) (c : Choice) (txn : RefTransaction) : Prop :=
  isOk (hd.applyRefTxn c txn).1 = false

def Hits (o : Op) (c : Choice) (σ : World) : Hazard → Prop
  | .tornRead => ∃ h seen, o = .versionFor h seen ∧ σ.on h fun hd => hd.manifest ≠ seen
  | .tornWrite => ∃ h own v, o = .setVersion h own v ∧ σ.on h fun hd => hd.manifest ≠ own
  | .backwards => ∃ h m locked, o = .setManifest h m locked ∧
      σ.on h fun hd => m.revision < hd.manifest.revision
  | .unlockedBackwards => ∃ h m, o = .setManifest h m false ∧
      σ.on h fun hd => m.revision < hd.manifest.revision
  | .landedTorn => ∃ fresh, o = .headManifest fresh ∧ σ.current.manifest ≠ fresh
  | .landedTrimmed => ∃ s, o = .casLanded s ∧ σ.Committed s ∧
      ∃ a ∈ σ.commits, s.last ≤ a.manifest.checkpointSeq
  | .landedAhead => ∃ s, o = .casLanded s ∧ σ.Committed s ∧ σ.current.slot ≠ some s
  | .landedUnread => c.outcome ≠ .ok ∧
      ((∃ s, o = .casLanded s ∧ σ.Committed s) ∨ ∃ fresh, o = .headManifest fresh)
  | .staleCommit => ∃ h own, o = .lockForCommit h own ∧
      σ.on h fun hd => own.revision ≤ hd.manifest.revision
  | .unlockedUpdate =>
      (∃ h m, o = .setManifest h m false ∧ σ.on h fun hd => hd.syncMutex ≠ none) ∨
      ∃ h own v applied, o = .setState h own v applied false ∧ σ.on h fun hd =>
        hd.syncMutex ≠ none ∨ hd.manifest ≠ own
  | .unlockedHead => ∃ h m, o = .setManifest h m false ∧
      σ.on h fun hd => hd.manifest.headSeq ≠ m.headSeq
  | .unlockUnproven => ∃ h, (o = .unlock h ∨ o = .publishHandle h) ∧
      σ.on h fun hd => hd.verified = false
  | .applyFailed =>
      (∃ h txn done, o = .applyRefTxn h txn done ∧ σ.on h fun hd =>
        applyFails hd c txn ∧ (0 < done ∨ c.outcome = .errApplied)) ∨
      ∃ h, o = .refresh h ∧ c.outcome ≠ .ok
  | .staleView => ∃ h seen, o = .refView h seen ∧
      σ.on h fun hd => ¬ hd.provenAt seen.headSeq
  | .staleSnapshot => ∃ h seen, o = .refs h seen ∧
      σ.on h fun hd => ¬ hd.provenAt seen.headSeq
  | .snapshotMoved => ∃ h seen, o = .refs h seen ∧ σ.on h fun hd => hd.syncMutex ≠ none
  | .inexactSnapshot => ∃ h seen, o = .refs h seen ∧
      σ.on h fun hd => hd.refs ≠ foldUpto σ.log seen.headSeq
  | .lockUnsettled => ∃ h, o = .lock h ∧
      σ.on h fun hd => hd.verified = true ∧ hd.state.appliedSeq ≠ hd.manifest.headSeq
  | .checkpointBehind => ∃ known base cp slot, o = .putManifest known base (.checkpoint cp) slot ∧
      cp.seq < base.checkpointSeq
  | .headUpdate => ∃ known base op s, o = .putManifest known base op (some s) ∧
      ∃ e ∈ s.entries, e.setsHead
  | .repeatedRef => ∃ known base op s, o = .putManifest known base op (some s) ∧
      ∃ e ∈ s.entries, e.repeatsRef
  | .mixedVerdict => ∃ h view batch, o = .lastEntryTime h view batch ∧ σ.on h fun hd =>
      ∃ v ∈ verifyBatch ⟨view, []⟩ hd.lastEntryTime batch, v.Mixed

def pairHazards : List Hazard := [.tornRead, .tornWrite, .backwards, .landedTorn]

/-- What local refs and snapshots rest on. -/
def refsHazards : List Hazard :=
  [.landedAhead, .staleCommit, .unlockedUpdate, .staleSnapshot, .checkpointBehind, .headUpdate]

/-- What leaves local refs or a snapshot between two states. -/
def exactHazards : List Hazard := refsHazards ++ [.applyFailed, .snapshotMoved]

def Avoids (L : List Hazard) (o : Op) (c : Choice) (σ : World) : Prop :=
  ∀ z ∈ L, ¬ Hits o c σ z

/-- The states of runs that avoid the races of `L`. -/
def Reachable (cfg : Config) (L : List Hazard) (s : Sys) : Prop :=
  Reach exec (Job.run cfg) (fun _ => Avoids L) Sys.init s

/-- The states of runs all of whose calls meet `ok`. -/
def RunIf (cfg : Config) (ok : Op → Choice → World → Prop) (s : Sys) : Prop :=
  Reach exec (Job.run cfg) (fun _ => ok) Sys.init s

end Walgit
