import Walgit.Lib.Interleaving

/-!
# Leases

`try_acquire`, heartbeats, release and drop on one key, by any number of tasks
with a clock each. Time passes before each call by as much as the environment
picks. The guard of a task is also noted in the world, so that one can say who
believes to hold the lease; `lost` and the list of stored records are history.
-/

namespace Walgit.Leases

open Interleaving

/-- In nanoseconds, as all times. -/
def leaseSkewTolerance : ℕ := 2000000000

structure Lease where
  holder : String
  purpose : String
  acquiredAt : Option ℕ
  expiresAt : Option ℕ
  epoch : ℕ
  deriving DecidableEq, Repr

def makeLease (holder purpose : String) (now ttl epoch : ℕ) : Lease :=
  ⟨holder, purpose, some now, some (now + ttl), epoch⟩

/-- `UNIX_EPOCH` for a record without the field. -/
def Lease.expiry (l : Lease) : ℕ := l.expiresAt.getD 0

structure Guard where
  version : ℕ
  expiresAt : ℕ
  epoch : ℕ
  released : Bool
  lost : Bool
  deriving DecidableEq, Repr

/-- The stored object; the writer is history. -/
structure Object where
  version : ℕ
  lease : Lease
  writer : ℕ

structure Record where
  epoch : ℕ
  created : Bool
  deriving DecidableEq, Repr

structure World where
  time : ℕ
  object : Option Object
  next : ℕ
  guards : ℕ → Option Guard
  records : List Record

def World.init : World := ⟨0, none, 0, fun _ => none, []⟩

inductive Outcome
  | ok | err | errApplied
  deriving DecidableEq, Repr

structure Choice where
  outcome : Outcome
  elapsed : ℕ

inductive StoreError
  | preconditionFailed | notFound | other
  deriving DecidableEq, Repr

inductive CoordError
  | store | leaseLost
  deriving DecidableEq, Repr

inductive Op
  | systemTime
  | getMessage
  | create (l : Lease)
  | update (l : Lease) (version : ℕ)
  | delete (version : ℕ)
  | setGuard (g : Guard)

@[reducible]
def Op.Res : Op → Type
  | .systemTime => ℕ
  | .getMessage => Except StoreError (Option (ℕ × Lease))
  | .create _ => Except StoreError ℕ
  | .update .. => Except StoreError ℕ
  | .delete _ => Except StoreError Unit
  | .setGuard _ => Unit

section Exec

variable (t : ℕ) (c : Choice) (σ : World)

def World.put (l : Lease) (created : Bool) : World :=
  { σ with object := some ⟨σ.next, l, t⟩
           next := σ.next + 1
           records := ⟨l.epoch, created⟩ :: σ.records }

/-- A put that errs may have been applied. -/
def World.answerPut (l : Lease) (created : Bool) : Except StoreError ℕ × World :=
  match c.outcome with
  | .ok => (.ok σ.next, σ.put t l created)
  | .err => (.error .other, σ)
  | .errApplied => (.error .other, σ.put t l created)

def World.create (l : Lease) : Except StoreError ℕ × World :=
  if σ.object.isNone then σ.answerPut t c l true
  else (.error (if c.outcome = .ok then .preconditionFailed else .other), σ)

def World.update (l : Lease) (version : ℕ) : Except StoreError ℕ × World :=
  if σ.object.any fun o => o.version = version then σ.answerPut t c l false
  else (.error (if c.outcome = .ok then .preconditionFailed else .other), σ)

def World.delete (version : ℕ) : Except StoreError Unit × World :=
  match σ.object with
  | none => (.error (if c.outcome = .ok then .notFound else .other), σ)
  | some o =>
    if o.version = version then
      match c.outcome with
      | .ok => (.ok (), { σ with object := none })
      | .err => (.error .other, σ)
      | .errApplied => (.error .other, { σ with object := none })
    else (.error (if c.outcome = .ok then .preconditionFailed else .other), σ)

def World.pass : World := { σ with time := σ.time + c.elapsed }

def exec (clock : ℕ → ℕ → ℕ) (t : ℕ) (o : Op) (c : Choice) (σ : World) : Option (o.Res × World) :=
  let σ := σ.pass c
  match o with
  | .systemTime => some (clock t σ.time, σ)
  | .getMessage => some (if c.outcome = .ok then .ok (σ.object.map fun o => (o.version, o.lease))
      else .error .other, σ)
  | .create l => some (σ.create t c l)
  | .update l version => some (σ.update t c l version)
  | .delete version => some (σ.delete c version)
  | .setGuard g => some ((), { σ with guards := fun j => if j = t then some g else σ.guards j })

end Exec

abbrev Task := Prog Op Op.Res

def call (o : Op) : Task o.Res := Prog.perform o

section Program

variable (holder purpose : String) (ttl : ℕ)

def newGuard (version now epoch : ℕ) : Task (Except CoordError (Option Guard)) := do
  let g : Guard := ⟨version, now + ttl, epoch, false, false⟩
  call (.setGuard g)
  pure (.ok (some g))

def acquired (now epoch : ℕ) : Except StoreError ℕ → Task (Except CoordError (Option Guard))
  | .ok version => newGuard ttl version now epoch
  | .error .preconditionFailed => pure (.ok none)
  | .error _ => pure (.error .store)

def tryAcquire : Task (Except CoordError (Option Guard)) := do
  let now ← call .systemTime
  match ← call .getMessage with
  | .error _ => pure (.error .store)
  | .ok none => do
    let r ← call (.create (makeLease holder purpose now ttl 0))
    acquired ttl now 0 r
  | .ok (some (version, existing)) =>
    if existing.expiry + leaseSkewTolerance ≤ now then do
      let epoch := existing.epoch + 1
      let r ← call (.update (makeLease holder purpose now ttl epoch) version)
      acquired ttl now epoch r
    else pure (.ok none)

def heartbeat (g : Guard) : Task (Except CoordError Unit × Guard) := do
  let now ← call .systemTime
  let g := { g with epoch := g.epoch + 1 }
  call (.setGuard g)
  match ← call (.update (makeLease holder purpose now ttl g.epoch) g.version) with
  | .ok version =>
    let g := { g with version := version, expiresAt := now + ttl }
    call (.setGuard g)
    pure (.ok (), g)
  | .error .preconditionFailed =>
    let g := { g with lost := true }
    call (.setGuard g)
    pure (.error .leaseLost, g)
  | .error _ => pure (.error .store, g)

/-- The loop of `spawn_heartbeat`, for as many rounds as it gets to run. -/
def heartbeatLoop : ℕ → Guard → Task Guard
  | 0, g => pure g
  | rounds + 1, g => do
    if g.released then pure g
    else
      match ← heartbeat holder purpose ttl g with
      | (.error .leaseLost, g) =>
        let g := { g with released := true }
        call (.setGuard g)
        pure g
      | (_, g) => heartbeatLoop rounds g

def release (g : Guard) : Task (Except CoordError Unit) := do
  call (.setGuard { g with released := true })
  match ← call (.delete g.version) with
  | .ok () => pure (.ok ())
  | .error .preconditionFailed => pure (.ok ())
  | .error .notFound => pure (.ok ())
  | .error .other => pure (.error .store)

/-- The delete runs in a task of its own, at any later time. -/
def dropGuard (g : Guard) : Task Unit := do
  if g.released then pure ()
  else
    call (.setGuard { g with released := true })
    let _ ← call (.delete g.version)
    pure ()

/-- What a holder does with its guard, one thing after the other. -/
inductive Use
  | heartbeat (ttl : ℕ)
  | heartbeats (ttl rounds : ℕ)
  | release
  | drop

def useGuard : List Use → Guard → Task Unit
  | [], _ => pure ()
  | .heartbeat ttl :: us, g => do
    let r ← Leases.heartbeat holder purpose ttl g
    useGuard us r.2
  | .heartbeats ttl rounds :: us, g => do
    let g ← heartbeatLoop holder purpose ttl rounds g
    useGuard us g
  | .release :: _, g => do
    let _ ← Leases.release g
    pure ()
  | .drop :: _, g => dropGuard g

end Program

structure Job where
  holder : String
  purpose : String
  ttl : ℕ
  uses : List Use

def Job.run (j : Job) : Task Unit := do
  match ← tryAcquire j.holder j.purpose j.ttl with
  | .ok (some g) => useGuard j.holder j.purpose j.uses g
  | _ => pure ()

abbrev Sys := Pool Op Op.Res World

abbrev Step := Event Job Choice

def Sys.init : Sys := ⟨.init, []⟩

section Properties

variable (clock : ℕ → ℕ → ℕ)

/-- No clock goes back, and no two differ by more than the tolerance. -/
structure ClocksOk : Prop where
  mono : ∀ t τ τ', τ ≤ τ' → clock t τ ≤ clock t τ'
  skew : ∀ t t' τ, clock t τ ≤ clock t' τ + leaseSkewTolerance

/-- At time `τ` the guard of task `t` is neither released nor lost, nor expired on its clock. -/
def Believes (σ : World) (t τ : ℕ) : Prop :=
  ∃ g, σ.guards t = some g ∧ g.released = false ∧ g.lost = false ∧ clock t τ < g.expiresAt

/-- Now, and until the next call. -/
def Exclusive (σ : World) : Prop :=
  ∀ τ, σ.time ≤ τ → ∀ t t', Believes clock σ t τ → Believes clock σ t' τ → t = t'

def EpochsIncrease (σ : World) : Prop :=
  (σ.records.map Record.epoch).Pairwise fun new old => old < new

/-- Newest first: each record that replaced one has a greater epoch, and a record where there was
none starts at 0. -/
def EpochsIncreaseUntilRelease (σ : World) : Prop :=
  (∀ r ∈ σ.records, r.created = true → r.epoch = 0) ∧
    σ.records.IsChain fun new old => new.created = false → old.epoch < new.epoch

/-- A put over a guard of the task's own does not end the lease earlier than the guard says. -/
def NotShorter (t : ℕ) (o : Op) (σ : World) : Prop :=
  ∀ l version g, o = .update l version → σ.guards t = some g → g.expiresAt ≤ l.expiry

/-- The states of runs all of whose calls meet `ok`. -/
def LeaseRun (ok : ℕ → Op → World → Prop) (s : Sys) : Prop :=
  Reach (exec clock) Job.run (fun t o _ σ => ok t o σ) Sys.init s

end Properties

end Walgit.Leases
