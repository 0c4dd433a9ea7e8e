import Mathlib.Data.List.Destutter
import Mathlib.Logic.Function.Basic
import Walgit.Entries

/-!
# Folding the inbox

A snapshot document carries entries byte for byte. A gc reads a checkout's
snapshot and inbox, pushes a snapshot with both, leased on the one it read, and
then deletes the inbox refs it folded, each leased on what the remote last
advertised.
-/

namespace Walgit.Collab

section Objects

/-- The text of a blob, or bytes that are no text. -/
inductive Blob
  | text (json : String)
  | bytes (raw : List UInt8)
  deriving DecidableEq, Repr

/-- `git cat-file blob`, the reader of entries, and the blob id of a text. -/
structure Objects where
  catFile : String → Option Blob
  fromSlice : Blob → Option Entry
  blobOid : String → String
  blobOid_inj : Function.Injective blobOid

structure SnapshotRecord where
  oid : String
  principal : String
  json : String
  deriving DecidableEq, Repr

/-- A record whose text is not the blob it names, or no entry, is skipped. -/
def SnapshotRecord.entryRef (git : Objects) (rec : SnapshotRecord) : Option EntryRef :=
  if git.blobOid rec.json = rec.oid then
    (git.fromSlice (.text rec.json)).map fun entry => ⟨rec.oid, rec.principal, entry⟩
  else none

structure Snapshot where
  actor : String
  ts : ℤ
  entries : List SnapshotRecord
  sig : String
  deriving DecidableEq, Repr

def sortRecords (records : List SnapshotRecord) : List SnapshotRecord :=
  records.insertionSort fun a b => a.oid ≤ b.oid

/-- The first of the records with one oid stays. -/
def dedupRecords (records : List SnapshotRecord) : List SnapshotRecord :=
  records.destutter fun a b => a.oid ≠ b.oid

def buildSnapshot (sign : Snapshot → String) (actor : String) (ts : ℤ)
    (entries : List SnapshotRecord) : Snapshot :=
  let snap : Snapshot := ⟨actor, ts, dedupRecords (sortRecords entries), ""⟩
  { snap with sig := sign snap }

end Objects

section Refs

/-- The inbox refs, in the order of their names. -/
structure Inbox where
  refs : List (String × String)
  sorted : refs.Pairwise fun a b => a.1 < b.1

def Inbox.get (inbox : Inbox) (name : String) : Option String := inbox.refs.lookup name

def setRef (name oid : String) : List (String × String) → List (String × String)
  | [] => [(name, oid)]
  | ref :: refs =>
    if name < ref.1 then (name, oid) :: ref :: refs
    else if name = ref.1 then (name, oid) :: refs
    else ref :: setRef name oid refs

theorem mem_setRef {name oid : String} {refs : List (String × String)} {ref : String × String}
    (h : ref ∈ setRef name oid refs) : ref = (name, oid) ∨ ref ∈ refs := by
  induction refs with
  | nil => exact .inl (List.mem_singleton.mp h)
  | cons cur refs ih =>
    unfold setRef at h
    split at h
    · exact List.mem_cons.mp h
    · split at h
      · rcases List.mem_cons.mp h with h | h
        · exact .inl h
        · exact .inr (List.mem_cons_of_mem _ h)
      · rcases List.mem_cons.mp h with h | h
        · exact .inr (h ▸ List.mem_cons_self)
        · exact (ih h).imp_right (List.mem_cons_of_mem _)

theorem setRef_sorted {name oid : String} {refs : List (String × String)}
    (h : refs.Pairwise fun a b => a.1 < b.1) :
    (setRef name oid refs).Pairwise fun a b => a.1 < b.1 := by
  induction refs with
  | nil => exact List.pairwise_singleton _ _
  | cons cur refs ih =>
    obtain ⟨hcur, hrefs⟩ := List.pairwise_cons.mp h
    unfold setRef
    split
    · rename_i hlt
      refine List.pairwise_cons.mpr ⟨fun ref href => ?_, h⟩
      rcases List.mem_cons.mp href with rfl | href
      · exact hlt
      · exact hlt.trans (hcur ref href)
    · rename_i hlt
      split
      · rename_i heq
        exact List.pairwise_cons.mpr ⟨fun ref href => heq ▸ hcur ref href, hrefs⟩
      · rename_i hne
        refine List.pairwise_cons.mpr ⟨fun ref href => ?_, ih hrefs⟩
        rcases mem_setRef href with rfl | href
        · exact lt_of_le_of_ne (not_lt.mp hlt) (Ne.symm hne)
        · exact hcur ref href

def Inbox.set (inbox : Inbox) (name oid : String) : Inbox :=
  ⟨setRef name oid inbox.refs, setRef_sorted inbox.sorted⟩

def Inbox.erase (inbox : Inbox) (name : String) : Inbox :=
  ⟨inbox.refs.filter fun ref => ref.1 ≠ name, inbox.sorted.filter _⟩

variable {inbox : Inbox} {name name' oid oid' : String}

theorem Inbox.get_eq_some : inbox.get name = some oid ↔ (name, oid) ∈ inbox.refs := by
  obtain ⟨refs, sorted⟩ := inbox
  change refs.lookup name = some oid ↔ (name, oid) ∈ refs
  induction refs with
  | nil => simp
  | cons ref refs ih =>
    obtain ⟨hlt, hrefs⟩ := List.pairwise_cons.mp sorted
    obtain ⟨n, o⟩ := ref
    rw [List.lookup_cons, List.mem_cons, Prod.mk.injEq]
    by_cases hn : name = n
    · subst hn
      have hnot : (name, oid) ∉ refs := fun hmem => lt_irrefl name (hlt (name, oid) hmem)
      simp [hnot, eq_comm]
    · have hbeq : (name == n) = false := beq_false_of_ne hn
      simp [hbeq, hn, ih hrefs]

theorem Inbox.mem_erase : (name', oid) ∈ (inbox.erase name).refs ↔
    (name', oid) ∈ inbox.refs ∧ name' ≠ name := by
  simp [Inbox.erase]

theorem mem_setRef_of_mem {refs : List (String × String)} (h : (name', oid') ∈ refs)
    (hne : name' ≠ name) : (name', oid') ∈ setRef name oid refs := by
  induction refs with
  | nil => cases h
  | cons ref refs ih =>
    unfold setRef
    split
    · exact List.mem_cons_of_mem _ h
    · split
      · rename_i heq
        rcases List.mem_cons.mp h with h | h
        · exact absurd ((congrArg Prod.fst h).trans heq.symm) hne
        · exact List.mem_cons_of_mem _ h
      · rcases List.mem_cons.mp h with h | h
        · exact h ▸ List.mem_cons_self
        · exact List.mem_cons_of_mem _ (ih h)

theorem self_mem_setRef {refs : List (String × String)} : (name, oid) ∈ setRef name oid refs := by
  induction refs with
  | nil => exact List.mem_singleton_self _
  | cons ref refs ih =>
    unfold setRef
    split
    · exact List.mem_cons_self
    · split
      · exact List.mem_cons_self
      · exact List.mem_cons_of_mem _ ih

/-- The collab refs of a repository: the remote's, or those of a checkout. -/
structure CollabRefs where
  snapshot : Option Snapshot
  inbox : Inbox

def CollabRefs.records (refs : CollabRefs) : List SnapshotRecord :=
  (refs.snapshot.map Snapshot.entries).getD []

/-- `refs/collab/inbox/<principal>/<uuid>`; the last segment is the uuid. -/
def principalOf (name : String) : Option String :=
  let head := "refs/collab/inbox/".toList
  if head.isPrefixOf name.toList then
    let rest := name.toList.drop head.length
    if '/' ∈ rest then
      some (String.ofList ((rest.reverse.dropWhile (· ≠ '/')).drop 1).reverse)
    else none
  else none

/-- An inbox ref that is no entry is skipped. -/
def inboxEntry (git : Objects) (ref : String × String) : Option EntryRef := do
  let principal ← principalOf ref.1
  let blob ← git.catFile ref.2
  let entry ← git.fromSlice blob
  some ⟨ref.2, principal, entry⟩

def CollabRefs.occurrences (git : Objects) (refs : CollabRefs) : List EntryRef :=
  refs.records.filterMap (SnapshotRecord.entryRef git) ++ refs.inbox.refs.filterMap (inboxEntry git)

/-- The folded history and the inbox tail, each blob once. -/
def CollabRefs.load (git : Objects) (refs : CollabRefs) : EntrySet :=
  EntrySet.ofOccurrences (refs.occurrences git)

end Refs

section Folds

/-- The first record with the oid is the one that is looked at. -/
def keepFoldRecord (git : Objects) (record : SnapshotRecord) (entryActor : String) :
    List SnapshotRecord → List SnapshotRecord × Bool
  | [] => ([record], true)
  | cur :: records =>
    if cur.oid = record.oid then
      if (cur.entryRef git).isNone = true ∨
          (cur.principal ≠ entryActor ∧ record.principal = entryActor) then
        (record :: records, true)
      else (cur :: records, false)
    else
      let kept := keepFoldRecord git record entryActor records
      (cur :: kept.1, kept.2)

structure Fold where
  records : List SnapshotRecord
  /-- The names of the inbox refs to prune. -/
  folded : List String
  changed : Bool
  deriving DecidableEq, Repr

/-- What is no text, no entry or in no inbox is left in place; an object that cannot be read as a
blob ends the fold. -/
def foldInbox (git : Objects) : List (String × String) → Fold → Option Fold
  | [], f => some f
  | (name, oid) :: refs, f =>
    match git.catFile oid with
    | none => none
    | some (.bytes _) => foldInbox git refs f
    | some (.text json) =>
      match git.fromSlice (.text json), principalOf name with
      | some entry, some principal =>
        let kept := keepFoldRecord git ⟨oid, principal, json⟩ entry.actor f.records
        foldInbox git refs ⟨kept.1, f.folded ++ [name], f.changed || kept.2⟩
      | _, _ => foldInbox git refs f

end Folds

section Gc

/-- How far a gc is: `view` is what it read from its checkout. -/
inductive Gc
  | idle
  | ready (view : CollabRefs) (target : Snapshot) (folded : List String)
  | pushed (view : CollabRefs) (folded : List String)
  | deleting (failed : Bool) (chunk rest : List (String × String))
  | done

def gcDeleteChunk : ℕ := 500

/-- A fold that records nothing new pushes the snapshot it read. -/
def startGc (git : Objects) (sign : Snapshot → String) (actor : String) (ts : ℤ)
    (view : CollabRefs) : Gc :=
  match foldInbox git view.inbox.refs ⟨view.records, [], false⟩ with
  | none => .done
  | some f =>
    if f.folded = [] then .done
    else
      match if f.changed then some (buildSnapshot sign actor ts f.records) else view.snapshot with
      | some target => .ready view target f.folded
      | none => .done

/-- A push to the remote, or its advertisement. A push that finds its own value is up to date. -/
def stepGc (remote : CollabRefs) : Gc → CollabRefs × Gc
  | .idle => (remote, .idle)
  | .ready view target folded =>
    if remote.snapshot = view.snapshot ∨ remote.snapshot = some target then
      ({ remote with snapshot := some target }, .pushed view folded)
    else (remote, .done)
  | .pushed _ folded =>
    let toDelete := folded.filterMap fun name => (remote.inbox.get name).map fun oid => (name, oid)
    (remote, .deleting false [] toDelete)
  | .deleting failed ((name, oid) :: chunk) rest =>
    if remote.inbox.get name = some oid then
      ({ remote with inbox := remote.inbox.erase name }, .deleting failed chunk rest)
    else (remote, .deleting true chunk rest)
  | .deleting failed [] rest =>
    if failed = true ∨ rest = [] then (remote, .done)
    else (remote, .deleting false (rest.take gcDeleteChunk) (rest.drop gcDeleteChunk))
  | .done => (remote, .done)

/-- The remote, any number of gcs, and the oids that pushes have moved an inbox ref off. -/
structure World where
  remote : CollabRefs
  gcs : ℕ → Gc
  replaced : List String

inductive Act
  | push (name oid : String)
  | start (i : ℕ) (actor : String) (ts : ℤ) (view : CollabRefs)
  | step (i : ℕ)
  | crash (i : ℕ)

def World.step (git : Objects) (sign : Snapshot → String) (w : World) : Act → World
  | .push name oid =>
    { w with
      remote := { w.remote with inbox := w.remote.inbox.set name oid }
      replaced := w.replaced ++ ((w.remote.inbox.get name).filter fun old => old ≠ oid).toList }
  | .start i actor ts view =>
    { w with gcs := Function.update w.gcs i (startGc git sign actor ts view) }
  | .step i =>
    let next := stepGc w.remote (w.gcs i)
    { w with remote := next.1, gcs := Function.update w.gcs i next.2 }
  | .crash i => { w with gcs := Function.update w.gcs i .done }

def World.run (git : Objects) (sign : Snapshot → String) (w : World) (acts : List Act) : World :=
  acts.foldl (World.step git sign) w

end Gc

end Walgit.Collab
