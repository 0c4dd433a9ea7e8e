import Walgit.Lib.Extension
import Walgit.Checkpoint

/-!
# Compaction and the base rebuild

`compact_repo` folds packs on the serving copy, or rebuilds the base in a scratch
copy with a marker of the phases that are done. Both publish what the repack
reported as new, one `publish_compact` after the other, and the first of them
carries every pack to supersede.

What `git` reports, which history pack it writes and what the serving copy lists
after the install are the arguments of a job. Leases expire at any time. A place
is the cache directory of an instance, with its scratch copy and its marker; the
files of a scratch copy are its refs. `started` is history: the head seq that
the rebuild of a task supersedes up to.
-/

namespace Walgit

open Interleaving

structure RepackResult where
  newPacks : List PackInfo
  removed : List String

inductive Phase
  | copied | repacked | historyPack | commitGraph
  deriving DecidableEq, Repr

def Phase.rank : Phase → ℕ
  | .copied => 0
  | .repacked => 1
  | .historyPack => 2
  | .commitGraph => 3

structure Marker where
  startedHeadSeq : ℕ
  phase : Phase
  newPacks : List String
  history : Option String
  deriving DecidableEq, Repr

structure Rebuilds where
  lease : Option ℕ
  scratch : ℕ → Option RefState
  marker : ℕ → Option Marker
  started : ℕ → Option ℕ

def Rebuilds.init : Rebuilds := ⟨none, fun _ => none, fun _ => none, fun _ => none⟩

inductive RebuildOp
  | acquireLease
  | releaseLease
  | repackGeometric (result : RepackResult)
  | readMarker (place : ℕ)
  | hasScratch (place : ℕ)
  | removeScratch (place : ℕ)
  | removeMarker (place : ℕ)
  | copyScratch (h place started : ℕ)
  | writeMarker (place : ℕ) (m : Marker)
  | repackFull (place : ℕ) (result : RepackResult)
  | supersedeUpTo (started : ℕ)

@[reducible]
def RebuildOp.Res : RebuildOp → Type
  | .acquireLease => Bool
  | .releaseLease => Unit
  | .repackGeometric _ => Except WalError RepackResult
  | .readMarker _ => Option Marker
  | .hasScratch _ => Bool
  | .removeScratch _ => Unit
  | .removeMarker _ => Unit
  | .copyScratch .. => Except WalError Unit
  | .writeMarker .. => Except WalError Unit
  | .repackFull .. => Except WalError RepackResult
  | .supersedeUpTo _ => Unit

def setAt {α : Type} (f : ℕ → α) (i : ℕ) (a : α) : ℕ → α := fun j => if j = i then a else f j

section Exec

variable (t : ℕ) (c : Choice) (σ : World) (x : Rebuilds)

/-- A copy that fails leaves what it has copied so far, here nothing. -/
def Rebuilds.copyScratch (place : ℕ) (refs : RefState) : Except WalError Unit × Rebuilds :=
  match c.outcome with
  | .ok => (.ok (), { x with scratch := setAt x.scratch place (some refs) })
  | _ => (.error .git, { x with scratch := setAt x.scratch place (some .empty) })

def Rebuilds.writeMarker (place : ℕ) (m : Marker) : Except WalError Unit × Rebuilds :=
  match c.outcome with
  | .ok => (.ok (), { x with marker := setAt x.marker place (some m) })
  | _ => (.error .git, x)

def rebuildStep : (o : RebuildOp) → Option (o.Res × Rebuilds)
  | .acquireLease =>
    if x.lease.isSome && c.ttlActive then some (false, x)
    else some (true, { x with lease := some t })
  | .releaseLease => some ((), { x with lease := if x.lease = some t then none else x.lease })
  | .repackGeometric result => some (c.get result, x)
  | .readMarker place => some (x.marker place, x)
  | .hasScratch place => some ((x.scratch place).isSome, x)
  | .removeScratch place => some ((), { x with scratch := setAt x.scratch place none })
  | .removeMarker place => some ((), { x with marker := setAt x.marker place none })
  | .copyScratch h place _ => (σ.handles h).map fun hd => x.copyScratch c place hd.refs
  | .writeMarker place m => some (x.writeMarker c place m)
  | .repackFull _ result => some (c.get result, x)
  | .supersedeUpTo started => some ((), { x with started := setAt x.started t (some started) })

end Exec

def compactExec (t : ℕ) (o : Op ⊕ RebuildOp) (c : Choice) (σ : World × Rebuilds) :
    Option (Both Op.Res RebuildOp.Res o × (World × Rebuilds)) :=
  match o with
  | .inl o => (exec t o c σ.1).map fun r => (r.1, r.2, σ.2)
  | .inr o => (rebuildStep t c σ.1 σ.2 o).map fun r => (r.1, σ.1, r.2)

abbrev CompactTask := Prog (Op ⊕ RebuildOp) (Both Op.Res RebuildOp.Res)

def serverPart {α : Type} (p : Task α) : CompactTask α := p.lift RebuildOp.Res

def rebuildCall (o : RebuildOp) : CompactTask o.Res := Prog.extra Op.Res o

section Program

def CompactTask.andThen {ε α β : Type} (p : CompactTask (Except ε α))
    (f : α → CompactTask (Except ε β)) : CompactTask (Except ε β) :=
  p >>= fun
    | .ok a => f a
    | .error e => pure (.error e)

variable (cfg : Config) (h place : ℕ)

/-- The loop of `compact_repo`, which goes on after an error. -/
def publishPacks : List PackInfo → List String → CompactTask Unit
  | [], _ => pure ()
  | p :: ps, supersedes => do
    let _ ← serverPart (publishCompact cfg h p supersedes 1)
    publishPacks ps []

/-- What `git` and the serving copy will answer to a base rebuild. `bitmapPack` is the biggest
pack of the scratch copy that has a bitmap and is no history pack. -/
structure RebuildAnswers where
  full : RepackResult
  bitmapPack : Option String
  history : Option String
  localPacks : List PackInfo
  historyPacks : List String

def RebuildAnswers.newPacks (g : RebuildAnswers) (r : RepackResult) : List String :=
  if r.newPacks.isEmpty then g.bitmapPack.toList else r.newPacks.map PackInfo.checksum

def startScratch (m : Manifest) : CompactTask (Except WalError Marker) :=
  -- the free disk space
  CompactTask.andThen (serverPart (call .fallible)) fun _ =>
    CompactTask.andThen (rebuildCall (.copyScratch h place m.headSeq)) fun _ =>
      let marker : Marker := ⟨m.headSeq, .copied, [], none⟩
      CompactTask.andThen (rebuildCall (.writeMarker place marker)) fun _ => pure (.ok marker)

def resumeOrStart (m : Manifest) : CompactTask (Except WalError Marker) := do
  match ← rebuildCall (.readMarker place) with
  | some marker =>
    let present ← rebuildCall (.hasScratch place)
    if marker.startedHeadSeq = m.headSeq ∧ present = true then pure (.ok marker)
    else
      rebuildCall (.removeScratch place)
      rebuildCall (.removeMarker place)
      startScratch h place m
  | none =>
    rebuildCall (.removeScratch place)
    startScratch h place m

def repackPhase (g : RebuildAnswers) (marker : Marker) : CompactTask (Except WalError Marker) :=
  if marker.phase.rank < Phase.repacked.rank then
    CompactTask.andThen (rebuildCall (.repackFull place g.full)) fun r =>
      if (g.newPacks r).isEmpty then pure (.error .git)
      else
        let marker := { marker with newPacks := g.newPacks r, phase := .repacked }
        CompactTask.andThen (rebuildCall (.writeMarker place marker)) fun _ => pure (.ok marker)
  else pure (.ok marker)

/-- The history pack, or the commit-graph layer, of the base; both may fail. -/
def extraPhase (phase : Phase) (history : Option String) (marker : Marker) :
    CompactTask (Except WalError Marker) :=
  if marker.phase.rank < phase.rank then
    let marker := { marker with history := history, phase := phase }
    CompactTask.andThen (rebuildCall (.writeMarker place marker)) fun _ => pure (.ok marker)
  else pure (.ok marker)

def Marker.toInstall (marker : Marker) : List String := marker.newPacks ++ marker.history.toList

def Marker.supersedes (marker : Marker) (m : Manifest) : List String :=
  (m.packs.filter fun p =>
    p.seq ≤ marker.startedHeadSeq ∧ p.checksum ∉ marker.toInstall).map PackRef.checksum

/-- Already live as tier 2. -/
def RebuildAnswers.isLive (g : RebuildAnswers) (m : Manifest) (info : PackInfo) : Bool :=
  (m.packs.find? fun p => p.checksum = info.checksum).any fun p =>
    p.tier = 2 && (p.hasBitmap || decide (info.checksum ∈ g.historyPacks))

def publishBases (g : RebuildAnswers) (m : Manifest) :
    List String → List String → CompactTask (Except WalError Unit)
  | [], _ => pure (.ok ())
  | checksum :: rest, supersedes =>
    match g.localPacks.find? fun p => p.checksum = checksum with
    | none => pure (.error .git)
    | some info =>
      if g.isLive m info ∧ supersedes.isEmpty = true then publishBases g m rest supersedes
      else
        CompactTask.andThen (serverPart (publishCompact cfg h info supersedes 2)) fun _ =>
          publishBases g m rest []

def installAndPublish (g : RebuildAnswers) (marker : Marker) :
    CompactTask (Except WalError Unit) :=
  -- the links into the serving copy
  CompactTask.andThen (serverPart (call .fallible)) fun _ => do
    let m ← serverPart (call (.manifest h))
    rebuildCall (.supersedeUpTo marker.startedHeadSeq)
    CompactTask.andThen (publishBases cfg h g m marker.toInstall (marker.supersedes m)) fun _ => do
      rebuildCall (.removeScratch place)
      rebuildCall (.removeMarker place)
      pure (.ok ())

def rebuildBase (g : RebuildAnswers) : CompactTask (Except WalError Unit) := do
  let m ← serverPart (call (.manifest h))
  CompactTask.andThen (resumeOrStart h place m) fun marker =>
    CompactTask.andThen (repackPhase place g marker) fun marker =>
      CompactTask.andThen (extraPhase place .historyPack g.history marker) fun marker =>
        CompactTask.andThen (extraPhase place .commitGraph marker.history marker) fun marker =>
          installAndPublish cfg h place g marker

def foldPacks (m : Manifest) (result : RepackResult) : CompactTask Unit := do
  match ← rebuildCall (.repackGeometric result) with
  | .error _ => pure ()
  | .ok r =>
    publishPacks cfg h r.newPacks
      (r.removed.filter fun c => c ∈ m.packs.map PackRef.checksum)

inductive CompactRequest
  | fold (result : RepackResult)
  | rebuildBase (place : ℕ) (g : RebuildAnswers)

/-- `compact_repo` when it is due or forced. -/
def compactRepo (req : CompactRequest) : CompactTask Unit := do
  serverPart (call (.enter h))
  match ← serverPart (syncServe h) with
  | .error _ => pure ()
  | .ok () =>
    let m ← serverPart (call (.manifest h))
    if ← rebuildCall .acquireLease then
      match req with
      | .fold result =>
        foldPacks cfg h m result
        rebuildCall .releaseLease
      | .rebuildBase place g =>
        let _ ← Walgit.rebuildBase cfg h place g
        rebuildCall .releaseLease

end Program

/-- COMPACT entries are published by compactions only. -/
def Job.compacts : Job → Bool
  | .compact .. => true
  | _ => false

inductive CompactJob
  | server (job : Job) (h : job.compacts = false)
  | compactRepo (h : ℕ) (req : CompactRequest)

def CompactJob.run (cfg : Config) : CompactJob → CompactTask Unit
  | .server job _ => serverPart (job.run cfg)
  | .compactRepo h req => Walgit.compactRepo cfg h req

abbrev CompactSys := Pool (Op ⊕ RebuildOp) (Both Op.Res RebuildOp.Res) (World × Rebuilds)

abbrev CompactEvent := Event CompactJob Choice

def CompactSys.init : CompactSys := ⟨(.init, .init), []⟩

/-- The objects of a pack and those that a ref's value reaches. -/
structure ObjectGraph where
  packed : String → String → Prop
  reach : String → String → Prop

section Conditions

variable (G : ObjectGraph)

/-- `HEAD` names a ref and reaches nothing of its own. -/
def ObjectGraph.Reached (refs : RefState) (oid : String) : Prop :=
  ∃ name tip, refs (.ref name) = some tip ∧ G.reach tip oid

def World.committedRefs (σ : World) : RefState :=
  Replay.replay RefState.init (σ.log.flatMap LogEntry.writes)

/-- Every object reachable from the committed refs is in a live pack. -/
def Complete (σ : World) : Prop :=
  ∀ oid, G.Reached σ.committedRefs oid →
    ∃ p ∈ σ.current.manifest.packs, G.packed p.checksum oid

/-- A repack's new packs together have what `old` says. -/
def RepackResult.Covers (r : RepackResult) (old : String → Prop) : Prop :=
  ∀ oid, old oid → ∃ p ∈ r.newPacks, G.packed p.checksum oid

/-- The first of them has it alone, as it does when it is the only one. -/
def RepackResult.FirstCovers (r : RepackResult) (old : String → Prop) : Prop :=
  r.newPacks.length ≤ 1 ∨
    ∀ p, r.newPacks.head? = some p → ∀ oid, old oid → G.packed p.checksum oid

/-- An object of a pack that was removed. -/
def RepackResult.Removes (r : RepackResult) (oid : String) : Prop :=
  ∃ checksum ∈ r.removed, G.packed checksum oid

def Rebuilds.ScratchReaches (x : Rebuilds) (place : ℕ) (oid : String) : Prop :=
  ∃ refs, x.scratch place = some refs ∧ G.Reached refs oid

/-- What is assumed of `git`. -/
def GitOk (o : Op ⊕ RebuildOp) (x : Rebuilds) : Prop :=
  match o with
  | .inr (.repackGeometric r) => r.Covers G (r.Removes G)
  | .inr (.repackFull place r) => r.Covers G (x.ScratchReaches G place)
  | _ => True

/-- A CAS starts from the manifest of the version it names. What a push makes reachable was so
before or is in its packs. None of the packs that a rebuild supersedes has been published again
since it started. -/
def PutOk (t : ℕ) (known : Option ℕ) (base : Manifest) (op : ManifestOp) (slot : Option Slot)
    (σ : World × Rebuilds) : Prop :=
  (known = some σ.1.current.version → base = σ.1.current.manifest) ∧
    match op with
    | .push packs _ => ∀ oid,
        G.Reached (Replay.replay σ.1.committedRefs
          ((slot.elim [] Slot.entries).flatMap LogEntry.writes)) oid →
        G.Reached σ.1.committedRefs oid ∨ ∃ p ∈ packs, G.packed p.checksum oid
    | .compact _ supersedes _ => ∀ started, σ.2.started t = some started →
        ∀ p ∈ base.packs, p.checksum ∈ supersedes → p.seq ≤ started
    | _ => True

def headOf (cs : List Commit) : ℕ := (cs.headD .created).manifest.headSeq

def refsOf (cs : List Commit) : RefState :=
  Replay.replay RefState.init ((logOf cs).flatMap LogEntry.writes)

/-- The refs of the handle reach all that was reachable at some commit whose head is not before
`started`. -/
def CopyOk (h started : ℕ) (σ : World) : Prop :=
  ∀ hd, σ.handles h = some hd → ∃ cs, cs <:+ σ.commits ∧ started ≤ headOf cs ∧
    ∀ oid, G.Reached (refsOf cs) oid → G.Reached hd.refs oid

/-- The condition on a call, `git` apart. The files of a rebuild are used under its lease. -/
def CompactsOk (t : ℕ) (o : Op ⊕ RebuildOp) (σ : World × Rebuilds) : Prop :=
  match o with
  | .inl (.putManifest known base op slot) => PutOk G t known base op slot σ
  | .inl _ => True
  | .inr (.repackGeometric r) => r.FirstCovers G (r.Removes G)
  | .inr (.repackFull place r) => σ.2.lease = some t ∧ r.FirstCovers G (σ.2.ScratchReaches G place)
  | .inr (.copyScratch h _ started) => σ.2.lease = some t ∧ CopyOk G h started σ.1
  | .inr (.readMarker _) | .inr (.hasScratch _) | .inr (.removeScratch _) => σ.2.lease = some t
  | .inr (.removeMarker _) | .inr (.writeMarker ..) => σ.2.lease = some t
  | .inr _ => True

end Conditions

/-- The states of runs all of whose calls meet `ok`. -/
def CompactRun (cfg : Config) (ok : ℕ → Op ⊕ RebuildOp → Choice → World × Rebuilds → Prop)
    (s : CompactSys) : Prop :=
  Reach compactExec (CompactJob.run cfg) ok CompactSys.init s

end Walgit
