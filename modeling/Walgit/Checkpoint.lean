import Walgit.Publish

/-!
# Checkpoints, and the runs of the whole system

`write_checkpoint` fixes its seq and its snapshot first and then retries the
manifest CAS with them. A run interleaves any jobs on any handles.
-/

namespace Walgit

open Interleaving

/-- `applied_seq() == head_seq && refs_verified()`. -/
def refsProven (h : ℕ) (m : Manifest) : Task Bool := do
  let state ← call (.state h)
  if state.appliedSeq = m.headSeq then call (.verified h) else pure false

def checkpointAttempt (h seq : ℕ) (again : Task (Except WalError Unit)) :
    Task (Except WalError Unit) := do
  let m ← call (.manifest h)
  let known ← call (.versionFor h m)
  if m.checkpoint.any fun cp => m.headSeq ≤ cp.seq then pure (.ok ())
  else bareCas h m known (.checkpoint ⟨seq⟩) (some m.headSeq) again

def checkpointCas (h seq : ℕ) : ℕ → ℕ → Task (Except WalError Unit)
  | 0, attempts => checkpointAttempt h seq (pure (.error (.retry (attempts + 1))))
  | left + 1, attempts =>
    checkpointAttempt h seq
      (Task.andThen (syncRefsPhase h) fun _ => checkpointCas h seq left (attempts + 1))

/-- From a manifest whose refs were proven: snapshot, both immutable objects, the CAS. -/
def writeCheckpointAt (cfg : Config) (h : ℕ) (m : Manifest) : Task (Except WalError Unit) :=
  if m.checkpoint.any fun cp => cp.seq = m.headSeq then pure (.ok ())
  else if m.headSeq = 0 then pure (.error .corrupt)
  else
    Task.andThen (call (.refs h m)) fun snap => do
      let refsPut ← call (.putCheckpointRefs m.headSeq snap)
      let cpPut ← call (.putCheckpoint m.headSeq ⟨m.headSeq, m.packs⟩)
      Task.andThen (pure refsPut) fun _ => Task.andThen (pure cpPut) fun _ =>
        checkpointCas h m.headSeq (cfg.casMaxRetries - 1) 0

def writeCheckpoint (cfg : Config) (h : ℕ) : Task (Except WalError Unit) :=
  Task.andThen (syncRefsPhase h) fun _ => do
    let m ← call (.manifest h)
    if ← refsProven h m then writeCheckpointProven cfg h m
    else
      Task.andThen (rebuildRefs h) fun _ => do
        let m ← call (.manifest h)
        writeCheckpointProven cfg h m
where
  /-- The second test, before anything is written. -/
  writeCheckpointProven (cfg : Config) (h : ℕ) (m : Manifest) : Task (Except WalError Unit) := do
    if ← refsProven h m then writeCheckpointAt cfg h m
    else pure (.error .corrupt)

inductive Job
  | openRepo (h : ℕ) (old : Option ℕ)
  | sync (h : ℕ)
  | publish (h : ℕ) (batch : List PublishRequest)
  | compact (h : ℕ) (pack : PackInfo) (supersedes : List String) (tier : ℕ)
  | settings (h : ℕ) (toml author message : String)
  | annotate (h : ℕ) (checksum : String) (rev bitmap commitGraph : Bool)
  | checkpoint (h : ℕ)

def enter {α : Type} (h : ℕ) (p : Task α) : Task Unit := do
  call (.enter h)
  let _ ← p
  pure ()

def Job.run (cfg : Config) : Job → Task Unit
  | .openRepo h old => do
    let _ ← Walgit.openRepo h old
    pure ()
  | .sync h => enter h (syncRefsPhase h)
  | .publish h batch => processBatch cfg h batch
  | .compact h pack supersedes tier => enter h (publishCompact cfg h pack supersedes tier)
  | .settings h toml author message => enter h (publishSettings cfg h toml author message)
  | .annotate h checksum rev bitmap commitGraph =>
    enter h (annotatePackImpl cfg h checksum rev bitmap commitGraph)
  | .checkpoint h => enter h (writeCheckpoint cfg h)

abbrev Sys := Pool Op Op.Res World

abbrev Step := Event Job Choice

def Sys.init : Sys := ⟨.init, []⟩

def Sys.runs (cfg : Config) (es : List Step) : Option Sys :=
  Pool.runs exec (Job.run cfg) Sys.init es

end Walgit
