import Mathlib

/-!
# Messages of the write-ahead log

The protobuf messages with the fields that the modelled code reads. A segment
key `log/<seq>.pb` is the number itself: the key function is injective. Object
sizes, writer names, wall-clock stamps of the manifest and the object format
decide nothing here and are left out.
-/

namespace Walgit

structure RefUpdate where
  name : String
  oldOid : String
  newOid : String
  newSymbolicTarget : String
  deriving DecidableEq, Repr

structure RefTransaction where
  updates : List RefUpdate
  atomic : Bool
  deriving DecidableEq, Repr

inductive EntryKind
  | unspecified | push | compact | checkpoint | refUpdate | settings
  deriving DecidableEq, Repr

structure PackRef where
  checksum : String
  seq : ℕ
  tier : ℕ
  hasRev : Bool
  hasBitmap : Bool
  hasCommitGraph : Bool
  deriving DecidableEq, Repr

structure RepoSettings where
  toml : String
  revision : ℕ
  author : String
  message : String
  deriving DecidableEq, Repr

structure LogEntry where
  seq : ℕ
  kind : EntryKind
  pack : Option PackRef
  txn : Option RefTransaction
  supersedes : List String
  createdAt : ℕ
  settings : Option RepoSettings
  deriving DecidableEq, Repr

structure LogSegmentRef where
  key : ℕ
  firstSeq : ℕ
  lastSeq : ℕ
  deriving DecidableEq, Repr

structure CheckpointRef where
  seq : ℕ
  deriving DecidableEq, Repr

structure Checkpoint where
  seq : ℕ
  packs : List PackRef
  deriving DecidableEq, Repr

structure Manifest where
  headSeq : ℕ
  minSeq : ℕ
  checkpoint : Option CheckpointRef
  logSegments : List LogSegmentRef
  packs : List PackRef
  revision : ℕ
  settings : Option RepoSettings
  deriving DecidableEq, Repr

/-- The manifest that `Registry::create` puts. -/
def Manifest.created : Manifest :=
  ⟨0, 0, none, [], [], 1, none⟩

def Manifest.checkpointSeq (m : Manifest) : ℕ := m.checkpoint.elim 0 CheckpointRef.seq

/-- Empty or all-zero hex: "no object". -/
def isNullOid (hex : String) : Bool := hex.toList.all (· == '0')

def hasInfix (pat cs : List Char) : Bool := cs.tails.any pat.isPrefixOf

def forbiddenInRefName (c : Char) : Bool :=
  c ∈ [Char.ofNat 0, '\n', '\r', ' ', '~', '^', ':', '?', '*', '[', '\\']

def validateRefName (name : String) : Bool :=
  let cs := name.toList
  -- an empty name or a leading slash already fails the prefix test
  name == "HEAD" ||
    !(!"refs/".toList.isPrefixOf cs || cs.any forbiddenInRefName ||
      hasInfix ['.', '.'] cs || hasInfix ['@', '\x7b'] cs || hasInfix ['/', '/'] cs ||
      cs.getLast? == some '/' || cs.getLast? == some '.' || ".lock".toList.isSuffixOf cs)

def isHexDigit (c : Char) : Bool :=
  ('0' ≤ c && c ≤ '9') || ('a' ≤ c && c ≤ 'f') || ('A' ≤ c && c ≤ 'F')

def validateOid (oid : String) : Bool :=
  isNullOid oid ||
    ((oid.toList.length == 40 || oid.toList.length == 64) && oid.toList.all isHexDigit)

def RefUpdate.isSymbolic (u : RefUpdate) : Bool := u.newSymbolicTarget != ""

def validateRefUpdate (u : RefUpdate) : Bool :=
  if u.isSymbolic then u.name == "HEAD" && validateRefName u.newSymbolicTarget
  else validateRefName u.name && validateOid u.oldOid && validateOid u.newOid

/-- The manifest's live pack of a COMPACT entry replaces what it supersedes. -/
def compactPacks (pack : PackRef) (supersedes : List String) (packs : List PackRef) :
    List PackRef :=
  (packs.filter fun p => p.checksum ∉ supersedes ∧ p.checksum ≠ pack.checksum) ++ [pack]

def sortPacks (packs : List PackRef) : List PackRef :=
  packs.insertionSort fun a b => a.seq ≤ b.seq

def sortSegments (segs : List LogSegmentRef) : List LogSegmentRef :=
  segs.insertionSort fun a b => a.firstSeq ≤ b.firstSeq

def annotatePack (checksum : String) (rev bitmap commitGraph : Bool) :
    List PackRef → List PackRef
  | [] => []
  | p :: ps =>
    if p.checksum = checksum then
      { p with hasRev := p.hasRev || rev
               hasBitmap := p.hasBitmap || bitmap
               hasCommitGraph := p.hasCommitGraph || commitGraph } :: ps
    else p :: annotatePack checksum rev bitmap commitGraph ps

/-- What one writer does to the manifest it starts from. -/
inductive ManifestOp
  | create
  | push (packs : List PackRef) (seg : LogSegmentRef)
  | compact (pack : PackRef) (supersedes : List String) (seg : LogSegmentRef)
  | settings (doc : RepoSettings) (seg : LogSegmentRef)
  | checkpoint (cp : CheckpointRef)
  | annotate (checksum : String) (rev bitmap commitGraph : Bool)
  deriving DecidableEq, Repr

def Manifest.addSegment (m : Manifest) (seg : LogSegmentRef) : Manifest :=
  { m with headSeq := seg.lastSeq
           logSegments := sortSegments (m.logSegments ++ [seg])
           revision := m.revision + 1 }

def ManifestOp.apply (m : Manifest) : ManifestOp → Manifest
  | .create => .created
  | .push packs seg => { m.addSegment seg with packs := sortPacks (m.packs ++ packs) }
  | .compact pack supersedes seg =>
    { m.addSegment seg with packs := sortPacks (compactPacks pack supersedes m.packs) }
  | .settings doc seg => { m.addSegment seg with settings := some doc }
  | .checkpoint cp =>
    { m with checkpoint := some cp
             minSeq := cp.seq + 1
             logSegments := m.logSegments.filter fun s => cp.seq < s.lastSeq
             revision := m.revision + 1 }
  | .annotate checksum rev bitmap commitGraph =>
    { m with packs := annotatePack checksum rev bitmap commitGraph m.packs
             revision := m.revision + 1 }

def ManifestOp.segment : ManifestOp → Option LogSegmentRef
  | .push _ seg => some seg
  | .compact _ _ seg => some seg
  | .settings _ seg => some seg
  | _ => none

inductive WalError
  | store | corrupt | git | notFound | retry (attempts : ℕ)
  deriving DecidableEq, Repr

/-- Fails when the manifest's listed segments cannot give the entries past `fromSeq`. -/
def ensureReplayable (m : Manifest) (fromSeq toSeq : ℕ) : Except WalError Unit :=
  if toSeq < fromSeq + 1 then .ok ()
  else
    let coverageStart := max (m.checkpoint.elim 1 fun cp => cp.seq + 1) (max m.minSeq 1)
    if fromSeq + 1 < coverageStart then .error .corrupt
    else if (m.logSegments.filter fun s => fromSeq + 1 ≤ s.lastSeq ∧ s.firstSeq ≤ toSeq).any
        fun s => toSeq ≤ s.lastSeq then .ok ()
    else .error .corrupt

end Walgit
