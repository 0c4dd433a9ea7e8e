import Walgit.Lib.Extension
import Walgit.Hazard
import Walgit.Trace

/-!
# Consumers of the log

The events bridge and the historical reads, beside the writers of the
repository. A consumer reads the log through `read_log`, which takes a fresh
manifest without a lock and reads the segments that it lists. The bridge keeps
a cursor object in the store, conditioned on its version, and delivers to a
number of sinks. Deliveries, reported gaps, subtractions and answers are
history.
-/

namespace Walgit

open Interleaving

section Events

inductive Action
  | create | update | delete
  deriving DecidableEq, Repr

/-- A no-op emits nothing. -/
def classify (old new : String) : Option Action :=
  match isNullOid old, isNullOid new with
  | true, true => none
  | true, false => some .create
  | false, true => some .delete
  | false, false => if old = new then none else some .update

structure RefEvent where
  seq : ℕ
  kind : EntryKind
  action : Action
  name : String
  old : String
  new : String
  deriving DecidableEq, Repr

def zeroLike (other : String) : String := String.ofList (List.replicate other.length '0')

def refEvent (e : LogEntry) (u : RefUpdate) : Option RefEvent :=
  if u.isSymbolic then none
  else (classify u.oldOid u.newOid).map fun
    | .create => ⟨e.seq, e.kind, .create, u.name, zeroLike u.newOid, u.newOid⟩
    | .delete => ⟨e.seq, e.kind, .delete, u.name, u.oldOid, zeroLike u.oldOid⟩
    | .update => ⟨e.seq, e.kind, .update, u.name, u.oldOid, u.newOid⟩

def entryEvents (e : LogEntry) : List RefEvent :=
  e.refTxn.elim [] fun txn => txn.updates.filterMap (refEvent e)

def refsFromEntries (es : List LogEntry) : List RefEvent := es.flatMap entryEvents

end Events

structure Cursor where
  publishedSeq : ℕ
  version : ℕ
  deriving DecidableEq, Repr

inductive Cut
  | time (stamp : ℕ)
  | seq (q : ℕ)
  deriving DecidableEq, Repr

/-- An answered historical read: its cut, the head when it began, and what it returned. -/
structure Answer where
  cut : Cut
  began : ℕ
  snap : RefState
  seq : ℕ

/-- What a caller of `read_log` asks for: the entries past `after`, up to `upto` if given, of
which it uses those stamped up to `stamp` if given. -/
structure LogRange where
  after : ℕ
  upto : Option ℕ
  stamp : Option ℕ
  deriving DecidableEq, Repr

def LogRange.last (r : LogRange) (m : Manifest) : ℕ := min (r.upto.getD m.headSeq) m.headSeq

structure Consumers where
  serial : ℕ → Bool
  cursor : Option Cursor
  next : ℕ
  delivered : List (ℕ × RefEvent)
  gaps : List (ℕ × ℕ)
  first : Option ℕ
  lags : List (ℕ × ℕ)
  answers : List Answer

def Consumers.init : Consumers := ⟨fun _ => false, none, 0, [], [], none, [], []⟩

/-- The consumers' calls. `startManifest` is the manifest a catch-up begins with; `getCursor` is
made holding it. `logManifest` and `heldManifest` are the two ways `read_log` gets its manifest.
`gauge` is a subtraction of two seqs. `began` notes the head when a read begins. -/
inductive ConsumerOp
  | lockSerial (h : ℕ)
  | unlockSerial (h : ℕ)
  | startManifest (h : ℕ)
  | getCursor (m : Manifest)
  | reportGap (first last : ℕ)
  | gauge (a b : ℕ)
  | logManifest (known : Option ℕ) (r : LogRange)
  | heldManifest (h : ℕ) (r : LogRange)
  | deliver (sink : ℕ) (batch : List RefEvent)
  | putCursor (seq : ℕ) (known : Option ℕ)
  | began
  | checkpointTimes (h : ℕ)
  | getCheckpoint (seq : ℕ)
  | answer (a : Answer)

@[reducible]
def ConsumerOp.Res : ConsumerOp → Type
  | .lockSerial _ => Unit
  | .unlockSerial _ => Unit
  | .startManifest _ => Manifest
  | .getCursor _ => Except WalError (Option Cursor)
  | .reportGap .. => Unit
  | .gauge .. => Unit
  | .logManifest .. => Except WalError (Option (Manifest × ℕ))
  | .heldManifest .. => Manifest
  | .deliver .. => Except WalError Unit
  | .putCursor .. => Except PutError Unit
  | .began => ℕ
  | .checkpointTimes _ => Except WalError (Option ℕ)
  | .getCheckpoint _ => Except WalError (Option Checkpoint)
  | .answer _ => Unit

section Exec

variable (c : Choice) (σ : World) (x : Consumers)

/-- `PutMode::Update(known)`, or `Create` without a known version. -/
def Consumers.putCursor (seq : ℕ) (known : Option ℕ) : Except PutError Unit × Consumers :=
  match c.outcome with
  | .err => (.error .other, x)
  | o =>
    if x.cursor.map Cursor.version = known then
      (if o = .ok then .ok () else .error .other,
        { x with cursor := some ⟨seq, x.next⟩, next := x.next + 1 })
    else (.error .preconditionFailed, x)

/-- A sink that answers an error may still have taken the batch. -/
def Consumers.deliver (sink : ℕ) (batch : List RefEvent) : Except WalError Unit × Consumers :=
  let taken := { x with delivered := batch.map (sink, ·) ++ x.delivered }
  match c.outcome with
  | .ok => (.ok (), taken)
  | .err => (.error .store, x)
  | .errApplied => (.error .store, taken)

def consume (_t : ℕ) (o : ConsumerOp) : Option (o.Res × Consumers) :=
  match o with
  | .lockSerial h =>
    if x.serial h then none
    else some ((), { x with serial := fun j => if j = h then true else x.serial j })
  | .unlockSerial h =>
    some ((), { x with serial := fun j => if j = h then false else x.serial j })
  | .startManifest h => (σ.handles h).map fun hd =>
    (hd.manifest, { x with first := x.first.or (some hd.manifest.minSeq) })
  | .getCursor _ => some (c.get x.cursor, x)
  | .reportGap first last => some ((), { x with gaps := (first, last) :: x.gaps })
  | .gauge a b => some ((), { x with lags := (a, b) :: x.lags })
  | .logManifest known _ =>
    some (c.get (if known = some σ.current.version then none
      else some (σ.current.manifest, σ.current.version)), x)
  | .heldManifest h _ => (σ.handles h).map fun hd => (hd.manifest, x)
  | .deliver sink batch => some (x.deliver c sink batch)
  | .putCursor seq known => some (x.putCursor c seq known)
  | .began => some (σ.head, x)
  | .checkpointTimes _ => some (c.get (if c.ttlActive then some c.now else none), x)
  | .getCheckpoint seq => some (c.get (σ.cps seq), x)
  | .answer a => some ((), { x with answers := a :: x.answers })

end Exec

abbrev ConsumerTask := Prog (Op ⊕ ConsumerOp) (Both Op.Res ConsumerOp.Res)

def consumerCall (o : ConsumerOp) : ConsumerTask o.Res := Prog.extra Op.Res o

def Task.lift {α : Type} (p : Task α) : ConsumerTask α := Prog.lift ConsumerOp.Res p

/-- The `?` operator. -/
def ConsumerTask.andThen {ε α β : Type} (p : ConsumerTask (Except ε α))
    (f : α → ConsumerTask (Except ε β)) : ConsumerTask (Except ε β) :=
  p >>= fun
    | .ok a => f a
    | .error e => pure (.error e)

section ReadLog

def readSegments (m : Manifest) (r : LogRange) : ConsumerTask (Except WalError (List LogEntry)) :=
  let last := r.last m
  if last < r.after + 1 then pure (.ok [])
  else
    let keys := (m.logSegments.filter fun s =>
      r.after + 1 ≤ s.lastSeq ∧ s.firstSeq ≤ last).map LogSegmentRef.key
    ConsumerTask.andThen (Task.lift (fetchSegments keys)) fun fetched =>
      pure (.ok (sortEntries (fetched.filter fun e => r.after + 1 ≤ e.seq ∧ e.seq ≤ last)))

/-- `read_log_impl`: the fresh manifest, or the handle's when the store's has its version. -/
def readLog (h : ℕ) (r : LogRange) : ConsumerTask (Except WalError (List LogEntry)) := do
  let known ← Task.lift (call (.version h))
  ConsumerTask.andThen (consumerCall (.logManifest known r)) fun
    | some (m, _) => readSegments m r
    | none => do
      let m ← consumerCall (.heldManifest h r)
      readSegments m r

end ReadLog

section Historical

def LogEntry.txnWrites (e : LogEntry) : List (RefKey × Option String) :=
  e.txn.elim [] RefTransaction.writes

def Cut.keeps (cut : Cut) (e : LogEntry) : Bool :=
  match cut with
  | .time stamp => e.createdAt ≤ stamp
  | .seq q => e.seq ≤ q

def Cut.range (cut : Cut) (after : ℕ) : LogRange :=
  match cut with
  | .time stamp => ⟨after, none, some stamp⟩
  | .seq q => ⟨after, some q, none⟩

/-- The loop stops at the first entry past the cut. -/
def replayEntriesTo (cut : Cut) (snap : RefState) (after : ℕ) (es : List LogEntry) :
    RefState × ℕ :=
  let kept := es.takeWhile cut.keeps
  (Replay.replay snap (kept.flatMap LogEntry.txnWrites),
    (kept.getLast?.map LogEntry.seq).getD after)

def checkpointUsable (h : ℕ) (cut : Cut) (cp : CheckpointRef) :
    ConsumerTask (Except WalError Bool) :=
  match cut with
  | .seq q => pure (.ok (cp.seq ≤ q))
  | .time stamp =>
    ConsumerTask.andThen (consumerCall (.checkpointTimes h)) fun times =>
      pure (.ok (times.any fun t => t ≤ stamp))

/-- The snapshot to start from and its seq; a missing object starts from nothing. -/
def startPoint (h : ℕ) (cut : Cut) (m : Manifest) :
    ConsumerTask (Except WalError (RefState × ℕ)) :=
  match m.checkpoint with
  | none => pure (.ok (.empty, 0))
  | some cp =>
    ConsumerTask.andThen (checkpointUsable h cut cp) fun usable =>
      if usable then
        ConsumerTask.andThen (consumerCall (.getCheckpoint cp.seq)) fun
          | none => pure (.ok (.empty, 0))
          | some cpo =>
            ConsumerTask.andThen (Task.lift (call (.getCheckpointRefs cpo.seq))) fun
              | none => pure (.ok (.empty, 0))
              | some snap => pure (.ok (snap, cp.seq))
      else pure (.ok (.empty, 0))

def replayRefs (h : ℕ) (cut : Cut) : ConsumerTask (Except WalError (RefState × ℕ)) := do
  let m ← Task.lift (call (.manifest h))
  ConsumerTask.andThen (startPoint h cut m) fun start =>
    ConsumerTask.andThen (readLog h (cut.range start.2)) fun es =>
      pure (.ok (replayEntriesTo cut start.1 start.2 es))

def refsAsOf (h stamp : ℕ) : ConsumerTask (Except WalError (RefState × ℕ)) :=
  replayRefs h (.time stamp)

def refsAtSeq (h q : ℕ) : ConsumerTask (Except WalError (RefState × ℕ)) := do
  let m ← Task.lift (call (.manifest h))
  let cpOk := m.checkpoint.any fun cp => cp.seq ≤ q
  if !cpOk && 1 < m.minSeq && q < m.minSeq then pure (.error .corrupt)
  else replayRefs h (.seq q)

/-- A historical read, whose answer is noted. -/
def historical (h : ℕ) (cut : Cut) : ConsumerTask Unit := do
  Task.lift (call (.enter h))
  let began ← consumerCall .began
  let r ← match cut with
    | .seq q => refsAtSeq h q
    | .time stamp => refsAsOf h stamp
  match r with
  | .ok (snap, seq) => consumerCall (.answer ⟨cut, began, snap, seq⟩)
  | .error _ => pure ()

end Historical

section Bridge

def publishEvents (batch : List RefEvent) : List ℕ → ConsumerTask (Except WalError Unit)
  | [] => pure (.ok ())
  | sink :: sinks =>
    ConsumerTask.andThen (consumerCall (.deliver sink batch)) fun _ => publishEvents batch sinks

/-- `publish`: an empty batch is not delivered. -/
def publishBatch (sinks : ℕ) (batch : List RefEvent) : ConsumerTask (Except WalError Unit) :=
  if batch.isEmpty then pure (.ok ()) else publishEvents batch (List.range sinks)

def publishRange (sinks h after head : ℕ) : ConsumerTask (Except WalError Unit) :=
  if after < head then
    ConsumerTask.andThen (readLog h ⟨after, some head, none⟩) fun es =>
      publishBatch sinks (refsFromEntries es)
  else pure (.ok ())

/-- A lost CAS is only logged. -/
def storeCursor (head : ℕ) (cursor : Option Cursor) : ConsumerTask (Except WalError Unit) :=
  if cursor.map Cursor.publishedSeq = some head then pure (.ok ())
  else do
    match ← consumerCall (.putCursor head (cursor.map Cursor.version)) with
    | .ok () => pure (.ok ())
    | .error .preconditionFailed => pure (.ok ())
    | .error .other => pure (.error .store)

/-- Where the catch-up starts, with the gap it reports. -/
def reportStart (readableFrom start : ℕ) : ConsumerTask ℕ :=
  if start < readableFrom then do
    consumerCall (.gauge readableFrom start)
    consumerCall (.reportGap (start + 1) readableFrom)
    pure readableFrom
  else pure start

def catchUpFrom (sinks h : ℕ) (m : Manifest) : ConsumerTask (Except WalError Unit) :=
  let head := m.headSeq
  let readableFrom := m.minSeq - 1
  ConsumerTask.andThen (consumerCall (.getCursor m)) fun cursor => do
    let start ← reportStart readableFrom ((cursor.map Cursor.publishedSeq).getD readableFrom)
    consumerCall (.gauge head start)
    ConsumerTask.andThen (publishRange sinks h start head) fun _ => storeCursor head cursor

def catchUp (sinks h : ℕ) : ConsumerTask Unit := do
  Task.lift (call (.enter h))
  consumerCall (.lockSerial h)
  let _ ← ConsumerTask.andThen (Task.lift (syncRefsPhase h)) fun _ => do
    let m ← consumerCall (.startManifest h)
    catchUpFrom sinks h m
  consumerCall (.unlockSerial h)

end Bridge

inductive ConsumerJob
  | writer (job : Job)
  | catchUp (h : ℕ)
  | historical (h : ℕ) (cut : Cut)

def ConsumerJob.run (cfg : Config) (sinks : ℕ) : ConsumerJob → ConsumerTask Unit
  | .writer job => Task.lift (job.run cfg)
  | .catchUp h => Walgit.catchUp sinks h
  | .historical h cut => Walgit.historical h cut

def consumerExec (t : ℕ) (o : Op ⊕ ConsumerOp) (c : Choice) (σ : World × Consumers) :
    Option (Both Op.Res ConsumerOp.Res o × (World × Consumers)) :=
  match o with
  | .inl o => (exec t o c σ.1).map fun r => (r.1, r.2, σ.2)
  | .inr o => (consume c σ.1 σ.2 t o).map fun r => (r.1, σ.1, r.2)

abbrev ConsumerSys := Pool (Op ⊕ ConsumerOp) (Both Op.Res ConsumerOp.Res) (World × Consumers)

abbrev ConsumerStep := Event ConsumerJob Choice

def ConsumerSys.init : ConsumerSys := ⟨(.init, .init), []⟩

def ConsumerSys.runs (cfg : Config) (sinks : ℕ) (es : List ConsumerStep) : Option ConsumerSys :=
  Pool.runs consumerExec (ConsumerJob.run cfg sinks) ConsumerSys.init es

section Hazards

/-- What the consumers do not guard against. -/
inductive ConsumerHazard
  /-- the manifest that `read_log` uses no longer lists a segment of the range asked for -/
  | trimmed
  /-- no cursor is stored although a catch-up has begun at a lower `min_seq` -/
  | coldRestart
  /-- the stored cursor is past the head that the catch-up holds -/
  | staleHead
  deriving DecidableEq, Repr

/-- The first entry past `after` that the manifest's segments hold. -/
def FirstListed (σ : World) (m : Manifest) (after : ℕ) (e : LogEntry) : Prop :=
  (∃ slot ∈ slotsOf σ.commits, slot.ref ∈ m.logSegments ∧ e ∈ slot.entries) ∧ after < e.seq ∧
    ∀ slot ∈ slotsOf σ.commits, slot.ref ∈ m.logSegments → ∀ e' ∈ slot.entries,
      after < e'.seq → e.seq ≤ e'.seq

/-- A committed segment of the range is not listed; a read up to a time also has to use the first
entry that is. -/
def Misses (σ : World) (m : Manifest) (r : LogRange) : Prop :=
  (∃ slot ∈ slotsOf σ.commits, r.after < slot.last ∧ slot.seq ≤ r.last m ∧
    slot.ref ∉ m.logSegments) ∧
  ∀ stamp, r.stamp = some stamp → ∃ e, FirstListed σ m r.after e ∧ e.createdAt ≤ stamp

def ConsumerHits (o : ConsumerOp) (σ : World) (x : Consumers) : ConsumerHazard → Prop
  | .trimmed =>
    (∃ known r, o = .logManifest known r ∧ known ≠ some σ.current.version ∧
      Misses σ σ.current.manifest r) ∨
    ∃ h r, o = .heldManifest h r ∧ σ.on h fun hd => Misses σ hd.manifest r
  | .coldRestart => ∃ m, o = .getCursor m ∧ x.cursor = none ∧
      ∃ m₀, x.first = some m₀ ∧ m₀ < m.minSeq
  | .staleHead => ∃ m, o = .getCursor m ∧
      ∃ cursor, x.cursor = some cursor ∧ m.headSeq < cursor.publishedSeq

def ConsumerAvoids (Z : List ConsumerHazard) (o : ConsumerOp) (σ : World) (x : Consumers) : Prop :=
  ∀ z ∈ Z, ¬ ConsumerHits o σ x z

/-- The condition on each call of a run. -/
def ConsumersOk (L : List Hazard) (Z : List ConsumerHazard) (_t : ℕ) (o : Op ⊕ ConsumerOp)
    (c : Choice) (σ : World × Consumers) : Prop :=
  match o with
  | .inl o => Avoids L o c σ.1
  | .inr o => ConsumerAvoids Z o σ.1 σ.2

section Runs

variable (cfg : Config) (sinks : ℕ)

def ConsumerRun (s : ConsumerSys) : Prop :=
  Reach consumerExec (ConsumerJob.run cfg sinks) (fun _ _ _ _ => True) ConsumerSys.init s

/-- One state of a run and a later one, the calls in between avoiding races. -/
def ConsumerReach (L : List Hazard) (Z : List ConsumerHazard) (s s' : ConsumerSys) : Prop :=
  Reach consumerExec (ConsumerJob.run cfg sinks) (ConsumersOk L Z) s s'

end Runs

end Hazards

end Walgit
