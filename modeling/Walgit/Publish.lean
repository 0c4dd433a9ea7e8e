import Walgit.Sync

/-!
# Publishing

The log-slot claim and the writers that commit through it: the publisher's
batch, COMPACT, SETTINGS, and `annotate_pack`, which changes the manifest
without a log entry. Each retry loop recurses on the attempts that are left.
The slot claim may in principle go round for ever while other writers come and
go at its seq, so it recurses on `claimRounds` and then stops for good, which is
a writer that is never scheduled again.
-/

namespace Walgit

open Interleaving

structure Config where
  casMaxRetries : ℕ
  claimRounds : ℕ

def orphanGraceProbes : ℕ := 3

def maxBurn : ℕ := 8

structure LogSlot where
  slot : Slot
  burned : List (ℕ × ℕ)

inductive ClaimOutcome
  | claimed (s : LogSlot)
  | contended

inductive ProbeOutcome
  | committed
  | free
  | orphan (version : ℕ)

def halt {α : Type} : Task α := call .halt >>= Empty.elim

/-- Somebody wrote `log/<seq>.pb`: committed, gone again, or still there after every probe. -/
def probeOrphan (seq : ℕ) (left : ℕ) : Task (Except WalError ProbeOutcome) :=
  Task.andThen (call .getManifest) fun fresh =>
    if seq ≤ fresh.1.headSeq then pure (.ok .committed)
    else
      Task.andThen (call (.headSegment seq)) fun
        | none => pure (.ok .free)
        | some version =>
          match left with
          | 0 => pure (.ok (.orphan version))
          | left + 1 => probeOrphan seq left

def claimLogSlot (encode : ℕ → ℕ → List LogEntry) :
    ℕ → ℕ → List (ℕ × ℕ) → Task (Except WalError ClaimOutcome)
  | 0, _, _ => halt
  | rounds + 1, seq, burned => do
    let now ← call .now
    let entries := encode now seq
    match ← call (.putSegment seq entries) with
    | .ok version => pure (.ok (.claimed ⟨⟨seq, version, entries⟩, burned⟩))
    | .error .other => pure (.error .store)
    | .error .preconditionFailed =>
      Task.andThen (probeOrphan seq (orphanGraceProbes - 1)) fun
        | .committed => pure (.ok .contended)
        | .free => claimLogSlot encode rounds seq burned
        | .orphan version =>
          if maxBurn ≤ burned.length + 1 then pure (.error .corrupt)
          else claimLogSlot encode rounds (seq + 1) (burned ++ [(seq, version)])

def sweepBurned : List (ℕ × ℕ) → Task Unit
  | [] => pure ()
  | b :: bs => do
    call (.deleteSegment b.1 b.2)
    sweepBurned bs

def dropOwnSlot (s : LogSlot) : Task Unit := call (.deleteSegment s.slot.seq s.slot.version)

section Batch

def packRefFromIngested (seq : ℕ) (checksum : String) : PackRef :=
  ⟨checksum, seq, 0, false, false, false⟩

/-- One PUSH entry for each valid request, numbered from `first`. -/
def buildEntries (now : ℕ) : ℕ → List PublishRequest → List LogEntry
  | _, [] => []
  | first, req :: reqs =>
    ⟨first, .push, req.pack.map (packRefFromIngested first), some req.txn, [],
      req.createdAt.getD now, none⟩ :: buildEntries now (first + 1) reqs

def validRequests (batch : List PublishRequest) (verified : List Verified) :
    List PublishRequest :=
  ((batch.zip verified).filter fun r => r.2.valid).map Prod.fst

def answers : ℕ → List (PublishRequest × Verified) → List (PublishRequest × Reply)
  | _, [] => []
  | first, (req, v) :: rest =>
    if v.valid then (req, .done first v.perRef) :: answers (first + 1) rest
    else (req, .done 0 v.perRef) :: answers first rest

def rejections (batch : List PublishRequest) (verified : List Verified) :
    List (PublishRequest × Reply) :=
  (batch.zip verified).map fun r => (r.1, .done 0 r.2.perRef)

/-- Every waiter of the batch gets the batch's error. -/
def finishWithError (batch : List PublishRequest) (cause : FailCause) : Task Unit :=
  call (.respond (batch.map fun req => (req, .failed cause)))

def applyTxns (h : ℕ) : List RefTransaction → ℕ → Task Bool
  | [], _ => pure true
  | txn :: txns, done => do
    match ← call (.applyRefTxn h txn done) with
    | .ok () => applyTxns h txns (done + 1)
    | .error _ => pure false

def refreshIf (h : ℕ) (ok : Bool) : Task Bool :=
  if ok then do
    let r ← call (.refresh h)
    pure (isOk r)
  else pure false

/-- Under `sync_mutex`: the refs first, then manifest, version and state. -/
def localCommit (h : ℕ) (committed : Manifest) (version last : ℕ) (txns : List RefTransaction) :
    Task Unit := do
  call (.lockForCommit h committed)
  let applied ← applyTxns h txns 0
  let localOk ← refreshIf h applied
  if localOk then
    call (.setManifest h committed true)
    call (.setVersion h committed version)
    call (.setState h committed version (some last) true)
    -- save_state; its failure is only logged
    let _ ← call .fallible
    call (.unlock h)
  else
    call (.takeVersion h)
    call (.unlock h)

def noteEntryTimes (h : ℕ) : List LogEntry → Task Unit
  | [] => pure ()
  | e :: es => do
    call (.noteEntryTime h e.createdAt)
    noteEntryTimes h es

def published (h : ℕ) (batch : List PublishRequest) (verified : List Verified) (s : LogSlot)
    (entries : List LogEntry) (last : ℕ) (committed : Manifest) (version : ℕ) : Task Unit := do
  localCommit h committed version last ((validRequests batch verified).map PublishRequest.txn)
  sweepBurned s.burned
  noteEntryTimes h entries
  call (.respond (answers s.slot.seq (batch.zip verified)))

def publishClaimed (h : ℕ) (batch : List PublishRequest) (verified : List Verified)
    (m : Manifest) (known : Option ℕ) (s : LogSlot) (again : Task Unit) : Task Unit := do
  let reqs := validRequests batch verified
  let now ← call .now
  let entries := buildEntries now s.slot.seq reqs
  let last := s.slot.seq + reqs.length - 1
  let op := ManifestOp.push (entries.filterMap LogEntry.pack) ⟨s.slot.seq, s.slot.seq, last⟩
  match ← call (.putManifest known m op (some s.slot)) with
  | .ok version => published h batch verified s entries last (op.apply m) version
  | .error .preconditionFailed => do
    dropOwnSlot s
    again
  | .error .other =>
    -- the bucket may have applied the CAS and lost the response
    match ← call (.casLanded s.slot) with
    | .error _ => finishWithError batch .landedUnread
    | .ok none => finishWithError batch .notLanded
    | .ok (some fresh) =>
      match ← call (.headManifest fresh) with
      | .error _ => finishWithError batch .dropped
      | .ok none => finishWithError batch .vanished
      | .ok (some version) => published h batch verified s entries last fresh version

def uploadPacks (batch : List PublishRequest) : Task (Except WalError Unit) :=
  if batch.any fun req => req.pack.isSome then call .fallible else pure (.ok ())

def publishVerified (cfg : Config) (h : ℕ) (batch : List PublishRequest)
    (verified : List Verified) (m : Manifest) (known : Option ℕ) (again : Task Unit) :
    Task Unit :=
  let reqs := validRequests batch verified
  if reqs.isEmpty then call (.respond (rejections batch verified))
  else do
    let upload ← uploadPacks batch
    let claim ← claimLogSlot (fun now first => buildEntries now first reqs) cfg.claimRounds
      (m.headSeq + 1) []
    match upload, claim with
    | .error _, _ => finishWithError batch .upload
    | .ok (), .error _ => finishWithError batch .claim
    | .ok (), .ok .contended => again
    | .ok (), .ok (.claimed s) => publishClaimed h batch verified m known s again

/-- A retry syncs, and so does a batch with a request whose sender has not. -/
def syncFirst (h : ℕ) (batch : List PublishRequest) (attempts : ℕ) :
    Task (Except WalError Unit) :=
  if 0 < attempts ∨ batch.any fun req => !req.synced then syncRefsPhase h else pure (.ok ())

def publishAttempt (cfg : Config) (h : ℕ) (batch : List PublishRequest) (attempts : ℕ)
    (again : Task Unit) : Task Unit := do
  match ← syncFirst h batch attempts with
  | .error _ => finishWithError batch .sync
  | .ok () =>
    let m ← call (.manifest h)
    let known ← call (.versionFor h m)
    match ← call (.refView h m) with
    | .error _ => finishWithError batch .refs
    | .ok refs =>
      let floor ← call (.lastEntryTime h refs batch)
      publishVerified cfg h batch (verifyBatch ⟨refs, []⟩ floor batch) m known again

def processBatchFrom (cfg : Config) (h : ℕ) (batch : List PublishRequest) : ℕ → ℕ → Task Unit
  | 0, attempts =>
    publishAttempt cfg h batch attempts (finishWithError batch (.retry (attempts + 1)))
  | left + 1, attempts =>
    publishAttempt cfg h batch attempts (processBatchFrom cfg h batch left (attempts + 1))

/-- The publisher task runs one batch of a handle at a time. -/
def processBatch (cfg : Config) (h : ℕ) (batch : List PublishRequest) : Task Unit := do
  call (.beginBatch h)
  processBatchFrom cfg h batch (cfg.casMaxRetries - 1) 0
  call (.endBatch h)

end Batch

/-- A checkpoint or an annotation adopts what it committed, without the mutex. -/
def adopt (h : ℕ) (committed : Manifest) (version : ℕ) (applied : Option ℕ) :
    Task (Except WalError Unit) := do
  call (.setManifest h committed false)
  call (.setVersion h committed version)
  call (.setState h committed version applied false)
  -- save_state
  call .fallible

/-- COMPACT and SETTINGS adopt theirs the same way, then sweep. -/
def adoptSlot (h : ℕ) (s : LogSlot) (time : ℕ) (committed : Manifest) (version : ℕ)
    (result : ℕ) : Task (Except WalError ℕ) := do
  call (.setManifest h committed false)
  call (.setVersion h committed version)
  call (.noteEntryTime h time)
  call (.setState h committed version (some s.slot.seq) false)
  -- save_state
  Task.andThen (call .fallible) fun _ => do
    sweepBurned s.burned
    pure (.ok result)

structure PackInfo where
  checksum : String
  hasRev : Bool
  hasBitmap : Bool
  hasCommitGraph : Bool
  deriving DecidableEq, Repr

def packRefFromInfo (p : PackInfo) (seq tier : ℕ) : PackRef :=
  ⟨p.checksum, seq, tier, p.hasRev, p.hasBitmap, p.hasCommitGraph⟩

def compactClaimed (h : ℕ) (pack : PackInfo) (supersedes : List String) (tier time : ℕ)
    (m : Manifest) (known : Option ℕ) (s : LogSlot) (again : Task (Except WalError ℕ)) :
    Task (Except WalError ℕ) := do
  let seq := s.slot.seq
  let op := ManifestOp.compact (packRefFromInfo pack seq tier) supersedes ⟨seq, seq, seq⟩
  match ← call (.putManifest known m op (some s.slot)) with
  | .ok version => adoptSlot h s time (op.apply m) version seq
  | .error .preconditionFailed => do
    dropOwnSlot s
    again
  | .error .other =>
    match ← call (.casLanded s.slot) with
    | .error _ => pure (.error .store)
    | .ok none => pure (.error .store)
    | .ok (some fresh) =>
      Task.andThen (call (.headManifest fresh)) fun
        | none => pure (.error .corrupt)
        | some version => adoptSlot h s time fresh version seq

def compactEntry (pack : PackInfo) (supersedes : List String) (tier time : ℕ) (seq : ℕ) :
    LogEntry :=
  ⟨seq, .compact, some (packRefFromInfo pack seq tier), none, supersedes, time, none⟩

def compactAttempt (cfg : Config) (h : ℕ) (pack : PackInfo) (supersedes : List String)
    (tier attempts : ℕ) (again : Task (Except WalError ℕ)) : Task (Except WalError ℕ) :=
  Task.andThen (if 0 < attempts then syncServe h else pure (.ok ())) fun _ => do
    let m ← call (.manifest h)
    let known ← call (.versionFor h m)
    let time ← call .now
    Task.andThen (claimLogSlot (fun _ seq => [compactEntry pack supersedes tier time seq])
        cfg.claimRounds (m.headSeq + 1) []) fun
      | .contended => again
      | .claimed s => compactClaimed h pack supersedes tier time m known s again

def publishCompactFrom (cfg : Config) (h : ℕ) (pack : PackInfo) (supersedes : List String)
    (tier : ℕ) : ℕ → ℕ → Task (Except WalError ℕ)
  | 0, attempts =>
    compactAttempt cfg h pack supersedes tier attempts (pure (.error (.retry (attempts + 1))))
  | left + 1, attempts =>
    compactAttempt cfg h pack supersedes tier attempts
      (publishCompactFrom cfg h pack supersedes tier left (attempts + 1))

def publishCompact (cfg : Config) (h : ℕ) (pack : PackInfo) (supersedes : List String)
    (tier : ℕ) : Task (Except WalError ℕ) :=
  -- the uploads
  Task.andThen (call .fallible) fun _ =>
    publishCompactFrom cfg h pack supersedes tier (cfg.casMaxRetries - 1) 0

def settingsEntry (doc : RepoSettings) (time seq : ℕ) : LogEntry :=
  ⟨seq, .settings, none, none, [], time, some doc⟩

def settingsClaimed (h : ℕ) (doc : RepoSettings) (time : ℕ) (m : Manifest) (known : Option ℕ)
    (s : LogSlot) (again : Task (Except WalError ℕ)) : Task (Except WalError ℕ) := do
  let seq := s.slot.seq
  let op := ManifestOp.settings doc ⟨seq, seq, seq⟩
  match ← call (.putManifest known m op (some s.slot)) with
  | .ok version => adoptSlot h s time (op.apply m) version doc.revision
  | .error .preconditionFailed => do
    dropOwnSlot s
    again
  | .error .other => pure (.error .store)

def settingsAttempt (cfg : Config) (h : ℕ) (toml author message : String)
    (again : Task (Except WalError ℕ)) : Task (Except WalError ℕ) :=
  Task.andThen (syncRefsPhase h) fun _ => do
    let m ← call (.manifest h)
    let known ← call (.versionFor h m)
    let time ← call .now
    let doc : RepoSettings := ⟨toml, m.settings.elim 0 RepoSettings.revision + 1, author, message⟩
    Task.andThen (claimLogSlot (fun _ seq => [settingsEntry doc time seq]) cfg.claimRounds
        (m.headSeq + 1) []) fun
      | .contended => again
      | .claimed s => settingsClaimed h doc time m known s again

def publishSettingsFrom (cfg : Config) (h : ℕ) (toml author message : String) :
    ℕ → ℕ → Task (Except WalError ℕ)
  | 0, attempts => settingsAttempt cfg h toml author message (pure (.error (.retry (attempts + 1))))
  | left + 1, attempts =>
    settingsAttempt cfg h toml author message
      (publishSettingsFrom cfg h toml author message left (attempts + 1))

def publishSettings (cfg : Config) (h : ℕ) (toml author message : String) :
    Task (Except WalError ℕ) :=
  publishSettingsFrom cfg h toml author message (cfg.casMaxRetries - 1) 0

/-- The CAS of a change to the manifest that has no log entry. -/
def bareCas (h : ℕ) (m : Manifest) (known : Option ℕ) (op : ManifestOp) (applied : Option ℕ)
    (again : Task (Except WalError Unit)) : Task (Except WalError Unit) := do
  match ← call (.putManifest known m op none) with
  | .ok version => adopt h (op.apply m) version applied
  | .error .preconditionFailed => again
  | .error .other => pure (.error .store)

def annotateAttempt (h : ℕ) (checksum : String) (rev bitmap commitGraph : Bool)
    (again : Task (Except WalError Unit)) : Task (Except WalError Unit) := do
  let m ← call (.manifest h)
  let known ← call (.versionFor h m)
  if m.packs.any fun p => p.checksum = checksum then
    bareCas h m known (.annotate checksum rev bitmap commitGraph) none again
  else pure (.error .corrupt)

def annotatePackFrom (h : ℕ) (checksum : String) (rev bitmap commitGraph : Bool) :
    ℕ → ℕ → Task (Except WalError Unit)
  | 0, attempts =>
    annotateAttempt h checksum rev bitmap commitGraph (pure (.error (.retry (attempts + 1))))
  | left + 1, attempts =>
    annotateAttempt h checksum rev bitmap commitGraph
      (Task.andThen (syncRefsPhase h) fun _ =>
        annotatePackFrom h checksum rev bitmap commitGraph left (attempts + 1))

def annotatePackImpl (cfg : Config) (h : ℕ) (checksum : String)
    (rev bitmap commitGraph : Bool) : Task (Except WalError Unit) :=
  Task.andThen (syncRefsPhase h) fun _ => do
    let m ← call (.manifest h)
    if m.packs.any fun p => p.checksum = checksum then
      -- the uploads
      Task.andThen (call .fallible) fun _ =>
        annotatePackFrom h checksum rev bitmap commitGraph (cfg.casMaxRetries - 1) 0
    else pure (.error .corrupt)

end Walgit
