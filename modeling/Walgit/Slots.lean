import Walgit.Appliers
import Walgit.Bundles

/-!
# What a slot's bundle is cut from

A bundle of a calendar slot is to hold the refs as of the slot. Both builders
ask the source for that state. The server's source replays the log up to the
slot's time, from the checkpoint when that is old enough; the registry itself
keeps the trait's default, which knows no state at any time. Without a state
`build_slot_unit` does not cut an incremental; `run_due` cuts everything, and
both cut a full, from the refs of the local copy as they are. The file is written
later: gix writes the objects of the cut's tips, git asks the local copy for
every name once more. In a run where a missing state is only met by the first
full, with the local copy still at the earliest state, no entry is stamped at or
before a slot that is already cut, and git still finds the cut's objects under
their names, every listed bundle keeps the law.
-/

namespace Walgit.Bundles

open Appliers SortedTable

structure LogRecord where
  seq : ℕ
  createdAt : ℕ
  updates : List PeeledUpdate
  deriving DecidableEq, Repr

/-- `RefSnapshot::default()`. -/
def emptyRefs : RefTable := ⟨[], List.Pairwise.nil, ""⟩

def initRefs : RefTable := ⟨[], List.Pairwise.nil, "refs/heads/main"⟩

def foldRefs (start : RefTable) (log : List LogRecord) : RefTable :=
  replayRefs start (log.map LogRecord.updates)

/-- The ref state as of `at`, in a repository that starts empty. -/
def asOf (log : List LogRecord) (time : ℕ) : RefTable :=
  foldRefs initRefs (log.filter fun e => e.createdAt ≤ time)

/-- The repository's earliest state: after its first entry. -/
def earliest (log : List LogRecord) : RefTable := foldRefs initRefs (log.take 1)

/-- The log, and the checkpoint's seq and time. Segments up to the checkpoint are gone. -/
structure Repo where
  log : List LogRecord
  checkpoint : Option (ℕ × ℕ)

/-- A checkpoint stores the refs of a local copy at its seq. -/
def Repo.checkpointRefs (repo : Repo) (seq : ℕ) : RefTable :=
  foldRefs initRefs (repo.log.filter fun e => e.seq ≤ seq)

/-- Where `replay_refs` starts: at a checkpoint of the cut's time or before, else at nothing. -/
def Repo.start (repo : Repo) (time : ℕ) : RefTable × ℕ :=
  match repo.checkpoint with
  | none => (emptyRefs, 0)
  | some (seq, stamp) => if stamp ≤ time then (repo.checkpointRefs seq, seq) else (emptyRefs, 0)

/-- What `read_log` still finds past a seq. -/
def Repo.readLog (repo : Repo) (after : ℕ) : List LogRecord :=
  repo.log.filter fun e => after < e.seq ∧ (repo.checkpoint.elim 0 Prod.fst) < e.seq

/-- `log_reader::refs_as_of`: the replay stops at the first entry stamped after the cut. -/
def Repo.replayAsOf (repo : Repo) (time : ℕ) : RefTable × ℕ :=
  let start := repo.start time
  let kept := (repo.readLog start.2).takeWhile fun e => e.createdAt ≤ time
  (foldRefs start.1 kept, (kept.getLast?.map LogRecord.seq).getD start.2)

/-- The two sources: the registry's own implementation and the server's adapter. -/
inductive Source
  | registry | server
  deriving DecidableEq, Repr

/-- `BundleSource::refs_as_of`: the registry does not override the default. -/
def Source.refsAsOf (repo : Repo) (time : ℕ) : Source → Option (RefTable × ℕ)
  | .registry => none
  | .server => if (repo.replayAsOf time).2 = 0 then none else some (repo.replayAsOf time)

structure Cut where
  slot : ℕ
  snapshot : Option RefTable
  seq : ℕ

inductive Builder
  | runDue | buildSlotUnit
  deriving DecidableEq, Repr

/-- The cut a builder makes for a slot, if it makes one. -/
def Builder.cut (builder : Builder) (source : Source) (repo : Repo) (kind : BundleKind)
    (headSeq slot : ℕ) : Option Cut :=
  match source.refsAsOf repo slot, builder, kind with
  | some (snap, seq), _, _ => some ⟨slot, some snap, seq⟩
  | none, .buildSlotUnit, .incremental => none
  | none, _, _ => some ⟨slot, none, headSeq⟩

section Tips

def matchesPattern (name pattern : String) : Bool :=
  if pattern = "HEAD" then name = "HEAD"
  else if "/*".toList.isSuffixOf pattern.toList then
    let dir := pattern.toList.take (pattern.toList.length - 2)
    name.toList = dir || (dir ++ ['/']).isPrefixOf name.toList
  else name = pattern

def effective (patterns : List String) : List String :=
  if patterns = [] then ["refs/heads/*", "refs/tags/*", "HEAD"] else patterns

/-- `filter_refs`: the refs some pattern names, and `HEAD` through its target. -/
def filterRefs (patterns : List String) (snap : RefTable) : List (String × String) :=
  let named := (snap.refs.filter fun r => (effective patterns).any (matchesPattern r.name)).map
    fun r => (r.name, r.oid)
  if "HEAD" ∈ effective patterns ∧ "HEAD" ∉ named.map Prod.fst then
    named ++ ((snap.find snap.headTarget).map fun r => ("HEAD", r.oid)).toList
  else named

/-- The tips of a bundle: those whose object the local copy has. -/
def cutTips (patterns : List String) (objects : List String) (snap : RefTable) :
    List (String × String) :=
  (filterRefs patterns snap).filter fun t => t.2 ∈ objects

end Tips

section Bases

variable (cfg : BundlesConfig) (list : List BundleEntry)

def baseForSlot (strategy : String) (slot : ℕ) : Option BundleEntry :=
  ((entriesOf list strategy).filter fun b => b.creationToken ≤ slot).getLast?

/-- Up the chain of bases; a chain is no longer than the list of strategies. -/
def baseForSlotChain (slot : ℕ) : ℕ → String → Option BundleEntry
  | 0, _ => none
  | n + 1, name =>
    (baseForSlot list name slot).or
      (((cfg.find? fun s => s.name = name).bind BundleStrategy.base).bind
        (baseForSlotChain slot n))

/-- `base_for_incremental` at a slot. -/
def baseForIncremental (strat : BundleStrategy) (slot : ℕ) : Option BundleEntry :=
  strat.base.bind fun name =>
    let base := baseForSlotChain cfg list slot (cfg.length + 1) name
    if strat.chain then
      match ((entriesOf list strat.name).filter fun b => b.creationToken < slot).getLast?, base with
      | some own, some b => if b.creationToken ≤ own.creationToken then some own else some b
      | some own, none => some own
      | none, base => base
    else base

/-- The base id and the prerequisites of a bundle, and nothing when an incremental has no base. -/
def basis (strat : BundleStrategy) (slot : ℕ) : Option (String × List String) :=
  match strat.kind with
  | .full => some ("", [])
  | .incremental => (baseForIncremental cfg list strat slot).map fun base =>
      (base.id, base.tips.map Prod.snd)

end Bases

section Files

/-- The engine that writes the header and the pack of a bundle. -/
inductive BundleEngine
  | git | gix
  deriving DecidableEq, Repr

/-- A bundle's header. Its pack is what the refs reach and the prerequisites do not. -/
structure BundleFile where
  prerequisites : List String
  refs : List (String × String)
  deriving DecidableEq, Repr

/-- What the `git` binary answers: `rev-parse` of a name in a local copy with these refs, and the
commit that an object peels to. -/
structure Git where
  revParse : RefTable → String → Option String
  peelCommit : String → Option String

/-- The object of `HEAD`, or of a ref given by its full name. -/
def pointsTo (t : RefTable) (name : String) : Option String :=
  if name = "HEAD" then (t.find t.headTarget).map Ref.oid
  else if "refs/".toList.isPrefixOf name.toList then (t.find name).map Ref.oid
  else none

/-- `git rev-parse` tries the name itself before anything else. -/
def Git.Lawful (git : Git) : Prop :=
  ∀ t name oid, pointsTo t name = some oid → git.revParse t name = some oid

/-- `create_bundle`: gix writes the tips it is given; git writes what each name stands for in the
local copy when it comes to that name, and leaves out a name that stands for nothing. -/
def createBundle (git : Git) (engine : BundleEngine) (copy : String → RefTable)
    (names : List String) (tips : List (String × String)) (prerequisites : List String) :
    Option BundleFile :=
  match engine with
  | .gix => some ⟨prerequisites, names.filterMap fun name => tips.find? fun t => t.1 = name⟩
  | .git =>
    let refs := names.filterMap fun name =>
      (git.revParse (copy name) name).map fun oid => (name, oid)
    if refs = [] then none
    else some ⟨(prerequisites.filterMap git.peelCommit).eraseDups, refs⟩

end Files

end Walgit.Bundles
