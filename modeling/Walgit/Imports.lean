import Walgit.Lib.Extension
import Walgit.Assert
import Walgit.Trace

/-!
# Direct imports

`walgit import --direct` beside the servers of one repository, which need not
exist at the start. An import reads the manifest once, fixes the seq after its
head, uploads its packs, puts its ref snapshot and its checkpoint under that
seq, and ends with one manifest CAS. A marker file next to the source's packs
lets a later run resume.

An import is a process that may be killed. The uploads of a server's push, which
the push's own task does not show, are jobs of their own. Bundles are not named
by a manifest and are left out; what an import does to its source is one
fallible call for each phase. The writers of the checkpoint objects and the
commits of imports are history.
-/

namespace Walgit

open Interleaving

section Packs

abbrev Bytes := List UInt8

inductive FileKind
  | pack | idx | rev | bitmap | commitGraph
  deriving DecidableEq, Repr

/-- `packs/pack-<checksum>` with the extension of the kind. -/
structure FileKey where
  checksum : String
  kind : FileKind
  deriving DecidableEq, Repr

structure LocalPack where
  checksum : String
  pack : Bytes
  idx : Bytes
  rev : Option Bytes
  bitmap : Option Bytes
  commitGraph : Option Bytes
  historyOf : Option String
  deriving DecidableEq, Repr

def LocalPack.objects (p : LocalPack) : List (FileKey × Bytes) :=
  [(⟨p.checksum, .pack⟩, p.pack), (⟨p.checksum, .idx⟩, p.idx)] ++
    (p.rev.map (⟨p.checksum, .rev⟩, ·)).toList ++
    (p.bitmap.map (⟨p.checksum, .bitmap⟩, ·)).toList ++
    (p.commitGraph.map (⟨p.checksum, .commitGraph⟩, ·)).toList

def LocalPack.packRef (p : LocalPack) (seq : ℕ) : PackRef :=
  ⟨p.checksum, seq, 2, p.rev.isSome, p.bitmap.isSome, p.commitGraph.isSome⟩

def PackRef.names (p : PackRef) (key : FileKey) : Bool :=
  p.checksum = key.checksum &&
    match key.kind with
    | .pack | .idx => true
    | .rev => p.hasRev
    | .bitmap => p.hasBitmap
    | .commitGraph => p.hasCommitGraph

end Packs

section Marker

inductive ImportPhase
  | started | verified | sideFiles | historyPack | uploaded | bundled
  deriving DecidableEq, Repr

def ImportPhase.rank : ImportPhase → ℕ
  | .started => 0
  | .verified => 1
  | .sideFiles => 2
  | .historyPack => 3
  | .uploaded => 4
  | .bundled => 5

structure ImportMarker where
  tipsHash : String
  baseManifestVersion : Option ℕ
  seq : ℕ
  phase : ImportPhase
  uploaded : List FileKey
  deriving DecidableEq, Repr

inductive ResumeDecision
  | fresh | resume (m : ImportMarker) | refuse
  deriving DecidableEq, Repr

def decideResume (marker : Option ImportMarker) (tips : String) (current : Option ℕ)
    (force : Bool) : ResumeDecision :=
  match marker with
  | none => .fresh
  | some m =>
    if m.tipsHash ≠ tips then .fresh
    else if m.baseManifestVersion ≠ current then if force then .fresh else .refuse
    else .resume m

end Marker

/-- The options of an import, with what it reads from its source: the filtered ref snapshot, its
hash, and the packs found or built there. `source` is the directory that holds the marker. -/
structure DirectOptions where
  source : ℕ
  snap : RefState
  tips : String
  packs : List LocalPack
  historyPack : Bool
  replace : Bool
  force : Bool

inductive Writer
  | server (t : ℕ)
  | importer (t : ℕ)
  deriving DecidableEq, Repr

/-- An import whose manifest CAS was applied. -/
structure LandedImport where
  task : ℕ
  seq : ℕ
  snap : RefState

/-- `writers` are the tasks that have put a checkpoint object at a seq and still run. -/
structure Imports where
  files : FileKey → Option Bytes
  markers : ℕ → Option ImportMarker
  refsBy : ℕ → Option Writer
  cpBy : ℕ → Option Writer
  writers : List (ℕ × ℕ)
  dead : List ℕ
  landed : List LandedImport

def Imports.init : Imports :=
  ⟨fun _ => none, fun _ => none, fun _ => none, fun _ => none, [], [], []⟩

/-- The bucket without the repository. -/
def World.absent : World where
  commits := []
  segs := fun _ => none
  cpRefs := fun _ => none
  cps := fun _ => none
  next := 0
  handles := fun _ => none
  verdicts := []
  replies := []

def World.currentVersion (σ : World) : Option ℕ := σ.commits.head?.map Commit.version

/-- The calls of imports and those that servers make in no modelled job. `sourceWork` is a local
step that may fail, `hasHistory` the test for a history pack of the base, and `rereadMarker` the
second read of a marker already decided on. -/
inductive ImportOp
  | ended
  | kill (task : ℕ)
  | createManifest
  | uploadFile (key : FileKey) (bytes : Bytes)
  | sourceWork
  | getManifest
  | hasHistory
  | readMarker (source : ℕ)
  | rereadMarker (source : ℕ) (seen : ImportMarker)
  | writeMarker (source : ℕ) (m : ImportMarker)
  | removeMarker (source : ℕ)
  | headFile (key : FileKey)
  | putFile (key : FileKey) (bytes : Bytes)
  | putRefs (seq : ℕ) (snap : RefState)
  | putCheckpoint (seq : ℕ) (cp : Checkpoint)
  | putManifest (base : Option (Manifest × ℕ)) (m : Manifest) (snap : RefState)

@[reducible]
def ImportOp.Res : ImportOp → Type
  | .ended => Unit
  | .kill _ => Unit
  | .createManifest => Except PutError ℕ
  | .uploadFile .. => Unit
  | .sourceWork => Except WalError Unit
  | .getManifest => Except WalError (Option (Manifest × ℕ))
  | .hasHistory => Bool
  | .readMarker _ => Option ImportMarker
  | .rereadMarker .. => Option ImportMarker
  | .writeMarker .. => Except WalError Unit
  | .removeMarker _ => Unit
  | .headFile _ => Except WalError (Option ℕ)
  | .putFile .. => Except WalError Unit
  | .putRefs .. => Except WalError Unit
  | .putCheckpoint .. => Except WalError Unit
  | .putManifest .. => Except PutError ℕ

section Exec

variable (t : ℕ) (c : Choice) (σ : World) (x : Imports)

def Imports.setFile (key : FileKey) (bytes : Bytes) : Imports :=
  { x with files := fun k => if k = key then some bytes else x.files k }

def Imports.setMarker (source : ℕ) (m : Option ImportMarker) : Imports :=
  { x with markers := fun j => if j = source then m else x.markers j }

def Imports.noteRefs (seq : ℕ) (w : Writer) : Imports :=
  { x with refsBy := fun j => if j = seq then some w else x.refsBy j
           writers := (t, seq) :: x.writers }

def Imports.noteCheckpoint (seq : ℕ) (w : Writer) : Imports :=
  { x with cpBy := fun j => if j = seq then some w else x.cpBy j
           writers := (t, seq) :: x.writers }

/-- The process is gone, or its job has ended. -/
def Imports.leave (task : ℕ) : Imports :=
  { x with writers := x.writers.filter fun w => w.1 ≠ task }

/-- A write whose error says nothing about whether it was applied. -/
def Choice.put₂ (σ' : World × Imports) : Except WalError Unit × (World × Imports) :=
  match c.outcome with
  | .ok => (.ok (), σ')
  | .err => (.error .store, σ, x)
  | .errApplied => (.error .store, σ')

def World.setCpRefs (seq : ℕ) (snap : RefState) : World :=
  { σ with cpRefs := fun j => if j = seq then some snap else σ.cpRefs j }

def World.setCp (seq : ℕ) (cp : Checkpoint) : World :=
  { σ with cps := fun j => if j = seq then some cp else σ.cps j }

/-- A commit of a manifest that was built from nothing. -/
def World.replace (base m : Manifest) : World :=
  { σ with commits := ⟨σ.next, base, m, .create, none, some t⟩ :: σ.commits
           next := σ.next + 1 }

/-- `PutMode::Create`. -/
def World.createManifest : Except PutError ℕ × World :=
  match c.outcome with
  | .err => (.error .other, σ)
  | o =>
    if σ.commits.isEmpty then
      (if o = .ok then .ok σ.next else .error .other, σ.replace t .created .created)
    else (.error .preconditionFailed, σ)

/-- `PutMode::Update` of the version read, or `Create` if there was none. -/
def casImport (base : Option (Manifest × ℕ)) (m : Manifest) (snap : RefState) :
    Except PutError ℕ × (World × Imports) :=
  match c.outcome with
  | .err => (.error .other, σ, x)
  | o =>
    if σ.currentVersion = base.map Prod.snd then
      (if o = .ok then .ok σ.next else .error .other,
        σ.replace t ((base.map Prod.fst).getD .created) m,
        { x with landed := ⟨t, m.headSeq, snap⟩ :: x.landed })
    else (.error .preconditionFailed, σ, x)

def importStep (o : ImportOp) : Option (o.Res × (World × Imports)) :=
  match o with
  | .ended => some ((), σ, x.leave t)
  | .kill task => some ((), σ, { x.leave task with dead := task :: x.dead })
  | .createManifest => some ((σ.createManifest t c).1, (σ.createManifest t c).2, x)
  | .uploadFile key bytes =>
    some ((), σ, if c.outcome ≠ .err ∧ (x.files key).isNone then x.setFile key bytes else x)
  | .sourceWork => some (c.get (), σ, x)
  | .getManifest =>
    some (c.get (σ.commits.head?.map fun a => (a.manifest, a.version)), σ, x)
  | .hasHistory => some (c.ttlActive, σ, x)
  | .readMarker source => some (x.markers source, σ, x)
  | .rereadMarker source _ => some (x.markers source, σ, x)
  | .writeMarker source m => some (c.put₂ σ x (σ, x.setMarker source (some m)))
  | .removeMarker source => some ((), σ, x.setMarker source none)
  | .headFile key => some (c.get ((x.files key).map List.length), σ, x)
  | .putFile key bytes => some (c.put₂ σ x (σ, x.setFile key bytes))
  | .putRefs seq snap =>
    some (c.put₂ σ x (σ.setCpRefs seq snap, x.noteRefs t seq (.importer t)))
  | .putCheckpoint seq cp =>
    some (c.put₂ σ x (σ.setCp seq cp, x.noteCheckpoint t seq (.importer t)))
  | .putManifest base m snap => some (casImport t c σ x base m snap)

/-- Who wrote the checkpoint objects. -/
def Imports.note (o : Op) : Imports :=
  match o with
  | .putCheckpointRefs seq _ =>
    if c.outcome = .err then x else x.noteRefs t seq (.server t)
  | .putCheckpoint seq _ =>
    if c.outcome = .err then x else x.noteCheckpoint t seq (.server t)
  | _ => x

end Exec

/-- A dead process makes no call; a server without a repository has none to make. -/
def importExec (t : ℕ) (o : Op ⊕ ImportOp) (c : Choice) (σ : World × Imports) :
    Option (Both Op.Res ImportOp.Res o × (World × Imports)) :=
  if t ∈ σ.2.dead then none
  else match o with
    | .inl o =>
      if σ.1.commits.isEmpty then none
      else (exec t o c σ.1).map fun r => (r.1, r.2, σ.2.note t c o)
    | .inr o => importStep t c σ.1 σ.2 o

abbrev ImportTask := Prog (Op ⊕ ImportOp) (Both Op.Res ImportOp.Res)

def importCall (o : ImportOp) : ImportTask o.Res := Prog.extra Op.Res o

/-- The `?` operator. -/
def ImportTask.andThen {ε α β : Type} (p : ImportTask (Except ε α))
    (f : α → ImportTask (Except ε β)) : ImportTask (Except ε β) :=
  p >>= fun
    | .ok a => f a
    | .error e => pure (.error e)

section Program

variable (opts : DirectOptions)

/-- A phase that the marker has not passed: its local work, then the marker. -/
def importPhase (phase : ImportPhase) (work : ImportTask (Except WalError Unit))
    (m : ImportMarker) : ImportTask (Except WalError ImportMarker) :=
  if m.phase.rank < phase.rank then
    ImportTask.andThen work fun _ =>
      ImportTask.andThen (importCall (.writeMarker opts.source { m with phase := phase })) fun _ =>
        pure (.ok { m with phase := phase })
  else pure (.ok m)

/-- The files that are already there: those that the marker lists, and those whose HEAD says so. -/
def presentFiles (uploaded : List FileKey) :
    List (FileKey × Bytes) → ImportTask (Except WalError (List FileKey))
  | [] => pure (.ok uploaded)
  | (key, bytes) :: rest =>
    if key ∈ uploaded then presentFiles uploaded rest
    else
      ImportTask.andThen (importCall (.headFile key)) fun size =>
        ImportTask.andThen (presentFiles uploaded rest) fun present =>
          pure (.ok (if size = some bytes.length then key :: present else present))

def uploadFiles (present : List FileKey) :
    List (FileKey × Bytes) → ImportMarker → ImportTask (Except WalError ImportMarker)
  | [], m => pure (.ok m)
  | (key, bytes) :: rest, m =>
    if key ∈ present then
      uploadFiles present rest
        (if key ∈ m.uploaded then m else { m with uploaded := m.uploaded ++ [key] })
    else
      let m' := { m with uploaded := m.uploaded ++ [key] }
      ImportTask.andThen (importCall (.putFile key bytes)) fun _ =>
        ImportTask.andThen (importCall (.writeMarker opts.source m')) fun _ =>
          uploadFiles present rest m'

def uploadLocalPacks :
    List LocalPack → ImportMarker → ImportTask (Except WalError ImportMarker)
  | [], m => pure (.ok m)
  | p :: ps, m =>
    ImportTask.andThen (presentFiles m.uploaded p.objects) fun present =>
      ImportTask.andThen (uploadFiles opts present p.objects m) fun m => uploadLocalPacks ps m

def importManifest (base : Option (Manifest × ℕ)) (seq : ℕ) : Manifest :=
  ⟨seq, seq + 1, some ⟨seq⟩, [], opts.packs.map (LocalPack.packRef · seq),
    (base.elim 0 fun b => b.1.revision) + 1, none⟩

/-- The CAS, then the bundle list and the end of the marker. -/
def publishImport (base : Option (Manifest × ℕ)) (seq : ℕ) : ImportTask (Except WalError Unit) := do
  match ← importCall (.putManifest base (importManifest opts base seq) opts.snap) with
  | .ok _ =>
    ImportTask.andThen (importCall .sourceWork) fun _ => do
      importCall (.removeMarker opts.source)
      pure (.ok ())
  | .error _ => pure (.error .store)

/-- From the marker on: the phases, the uploads, the two checkpoint objects, the manifest. -/
def importFrom (base : Option (Manifest × ℕ)) (m : ImportMarker) :
    ImportTask (Except WalError Unit) :=
  let seq := m.seq
  -- the closure of the tips, then the commit graph
  ImportTask.andThen (importPhase opts .verified (importCall .sourceWork) m) fun m =>
  ImportTask.andThen (importPhase opts .sideFiles (importCall .sourceWork) m) fun m =>
  -- the history pack is built, or found, whatever the phase
  ImportTask.andThen (if opts.historyPack then importCall .sourceWork else pure (.ok ())) fun _ =>
  ImportTask.andThen (importPhase opts .historyPack (pure (.ok ())) m) fun m =>
  ImportTask.andThen (uploadLocalPacks opts opts.packs m) fun m =>
  ImportTask.andThen (importPhase opts .uploaded (pure (.ok ())) m) fun m =>
  ImportTask.andThen (importCall (.putRefs seq opts.snap)) fun _ =>
  ImportTask.andThen (importPhase opts .bundled (pure (.ok ())) m) fun _ =>
  ImportTask.andThen (importCall (.putCheckpoint seq
    ⟨seq, opts.packs.map (LocalPack.packRef · seq)⟩)) fun _ =>
  publishImport opts base seq

def freshMarker (base : Option (Manifest × ℕ)) : ImportMarker :=
  ⟨opts.tips, base.map Prod.snd, (base.elim 0 fun b => b.1.headSeq) + 1, .started, []⟩

/-- A fresh start, a resumed one, or none. -/
def startImport (base : Option (Manifest × ℕ)) : ImportTask (Except WalError Unit) := do
  let marker ← importCall (.readMarker opts.source)
  match decideResume marker opts.tips (base.map Prod.snd) opts.force with
  | .refuse => pure (.error .corrupt)
  | .resume seen =>
    match ← importCall (.rereadMarker opts.source seen) with
    | none => pure (.error .corrupt)
    | some m => importFrom opts base m
  | .fresh =>
    ImportTask.andThen (importCall (.writeMarker opts.source (freshMarker opts base))) fun _ =>
      importFrom opts base (freshMarker opts base)

def objectPacksLive (m : Manifest) : Bool :=
  (opts.packs.filter fun p => p.historyOf.isNone).all fun p =>
    m.packs.any fun q => q.checksum = p.checksum

def importDirect : ImportTask (Except WalError Unit) :=
  -- the refs, the packs and the loose objects of the source
  ImportTask.andThen (importCall .sourceWork) fun _ =>
  if opts.packs.isEmpty then pure (.error .corrupt)
  else ImportTask.andThen (importCall .getManifest) fun
    | none => startImport opts none
    | some base =>
      -- the object format
      ImportTask.andThen (importCall .sourceWork) fun _ => do
        let hasHistory ← importCall .hasHistory
        if objectPacksLive opts base.1 && (!opts.historyPack || hasHistory) &&
            decide (0 < base.1.headSeq) then
          importCall (.removeMarker opts.source)
          pure (.ok ())
        else if 0 < base.1.headSeq ∧ !opts.replace then pure (.error .corrupt)
        else startImport opts (some base)

end Program

/-- `Registry::create`, on the instance of handle `h`. -/
def createRepo (h : ℕ) : ImportTask Unit := do
  match ← importCall .createManifest with
  | .ok version =>
    Prog.lift ImportOp.Res (do
      call (.install h .created version .default .init)
      call (.publishHandle h))
  | .error _ => pure ()

inductive ImportJob
  | server (job : Job)
  | create (h : ℕ)
  | upload (key : FileKey) (bytes : Bytes)
  | importDirect (opts : DirectOptions)
  | kill (task : ℕ)

def ImportJob.body (cfg : Config) : ImportJob → ImportTask Unit
  | .server job => Prog.lift ImportOp.Res (job.run cfg)
  | .create h => createRepo h
  | .upload key bytes => importCall (.uploadFile key bytes)
  | .importDirect opts => do
    let _ ← Walgit.importDirect opts
    pure ()
  | .kill task => importCall (.kill task)

def ImportJob.run (cfg : Config) (job : ImportJob) : ImportTask Unit := do
  job.body cfg
  importCall .ended

abbrev ImportSys := Pool (Op ⊕ ImportOp) (Both Op.Res ImportOp.Res) (World × Imports)

abbrev ImportEvent := Event ImportJob Choice

def ImportSys.init : ImportSys := ⟨(.absent, .init), []⟩

section Hazards

def World.NamesCheckpoint (σ : World) (seq : ℕ) : Prop :=
  ∃ a ∈ σ.commits, a.manifest.checkpoint = some ⟨seq⟩

def World.NamesFile (σ : World) (key : FileKey) : Prop :=
  ∃ a ∈ σ.commits, ∃ p ∈ a.manifest.packs, p.names key

/-- A put of a checkpoint object by an import. -/
def ImportOp.checkpointSeq : ImportOp → Option ℕ
  | .putRefs seq _ => some seq
  | .putCheckpoint seq _ => some seq
  | _ => none

/-- What imports and the servers beside them do not guard against. -/
inductive ImportHazard
  /-- an import puts a checkpoint object that a committed manifest names -/
  | named
  /-- an import puts a checkpoint object where another task that still runs has put one -/
  | contested
  /-- an import replaces a file of a committed pack by other bytes -/
  | replacedFile
  /-- the marker that an import resumes from has changed since it was decided on -/
  | markerMoved
  /-- a server's CAS starts from another manifest than that of the version it names -/
  | tornCas
  deriving DecidableEq, Repr

def ImportHits (t : ℕ) (o : Op ⊕ ImportOp) (c : Choice) (σ : World × Imports) :
    ImportHazard → Prop
  | .named => ∃ o' seq, o = .inr o' ∧ o'.checkpointSeq = some seq ∧ c.outcome ≠ .err ∧
      σ.1.NamesCheckpoint seq
  | .contested => ∃ o' seq, o = .inr o' ∧ o'.checkpointSeq = some seq ∧ c.outcome ≠ .err ∧
      ∃ w ∈ σ.2.writers, w.2 = seq ∧ w.1 ≠ t
  | .replacedFile => ∃ key bytes, o = .inr (.putFile key bytes) ∧ c.outcome ≠ .err ∧
      σ.1.NamesFile key ∧ ∃ stored, σ.2.files key = some stored ∧ stored ≠ bytes
  | .markerMoved => ∃ source seen, o = .inr (.rereadMarker source seen) ∧
      σ.2.markers source ≠ some seen
  | .tornCas => ∃ known base op slot, o = .inl (.putManifest known base op slot) ∧
      known = some σ.1.current.version ∧ base ≠ σ.1.current.manifest

def ImportsOk (t : ℕ) (o : Op ⊕ ImportOp) (c : Choice) (σ : World × Imports) : Prop :=
  ∀ z, ¬ ImportHits t o c σ z

/-- The states of runs all of whose calls meet `ok`. -/
def ImportRun (cfg : Config) (ok : ℕ → Op ⊕ ImportOp → Choice → World × Imports → Prop)
    (s : ImportSys) : Prop :=
  Reach importExec (ImportJob.run cfg) ok ImportSys.init s

end Hazards

section Atomicity

/-- The last write is not that of an import whose manifest CAS was not applied. -/
def Unharmed (x : Imports) (seq : ℕ) (w : Option Writer) : Prop :=
  ∀ t, w = some (.importer t) → ∃ l ∈ x.landed, l.task = t ∧ l.seq = seq

/-- The checkpoint objects of committed manifests are not those of a failed import, and an import
that succeeded left the snapshot that it read. -/
structure ImportAtomic (σ : World × Imports) : Prop where
  refs : ∀ seq, σ.1.NamesCheckpoint seq → Unharmed σ.2 seq (σ.2.refsBy seq)
  checkpoint : ∀ seq, σ.1.NamesCheckpoint seq → Unharmed σ.2 seq (σ.2.cpBy seq)
  snapshot : ∀ l ∈ σ.2.landed, σ.1.NamesCheckpoint l.seq ∧ σ.1.cpRefs l.seq = some l.snap

/-- What a manifest names is stored as it was. -/
structure SameObjects (m : Manifest) (σ σ' : World × Imports) : Prop where
  refs : ∀ cp, m.checkpoint = some cp → σ'.1.cpRefs cp.seq = σ.1.cpRefs cp.seq ∧
    σ'.2.refsBy cp.seq = σ.2.refsBy cp.seq
  checkpoint : ∀ cp, m.checkpoint = some cp → σ'.1.cps cp.seq = σ.1.cps cp.seq ∧
    σ'.2.cpBy cp.seq = σ.2.cpBy cp.seq
  segments : ∀ seg ∈ m.logSegments, σ'.1.segs seg.key = σ.1.segs seg.key
  files : ∀ p ∈ m.packs, ∀ key, p.names key → ∀ bytes, σ.2.files key = some bytes →
    σ'.2.files key = some bytes

/-- A task that makes one of the calls of an import. -/
def Importing (s : ImportSys) (t : ℕ) : Prop := ∃ o k, s.tasks[t]? = some (.call (.inr o) k)

end Atomicity

end Walgit
