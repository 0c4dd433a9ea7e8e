import Walgit.Lib.Replay
import Walgit.Proto

/-!
# Local refs and the fold of the log

The refs of a repository are one map: a value for each ref name and the
symbolic target of `HEAD`. A log entry writes the keys of its transaction's
updates; the fold of a log is its replay. `applyRefTxn` is what
`git update-ref` and the `HEAD` file make of one transaction; it differs from
the replay where `git` follows `HEAD` or refuses a repeated name.
-/

namespace Walgit

open Replay

inductive RefKey
  | head
  | ref (name : String)
  deriving DecidableEq, Repr

abbrev RefState := RefKey → Option String

/-- `LocalRepo::init`: no refs, `HEAD` at the initial branch. -/
def RefState.init : RefState
  | .head => some "refs/heads/main"
  | .ref _ => none

/-- `RefSnapshot::default()`. -/
def RefState.empty : RefState := fun _ => none

def RefUpdate.value (u : RefUpdate) : Option String :=
  if isNullOid u.newOid then none else some u.newOid

def RefUpdate.writes (u : RefUpdate) : List (RefKey × Option String) :=
  if u.isSymbolic then
    if u.name = "HEAD" then [(.head, some u.newSymbolicTarget)] else []
  else [(.ref u.name, u.value)]

def RefTransaction.writes (txn : RefTransaction) : List (RefKey × Option String) :=
  txn.updates.flatMap RefUpdate.writes

/-- `apply_entries` takes the transactions of PUSH and REF_UPDATE entries. -/
def LogEntry.refTxn (e : LogEntry) : Option RefTransaction :=
  match e.kind with
  | .push => e.txn
  | .refUpdate => e.txn
  | _ => none

def LogEntry.writes (e : LogEntry) : List (RefKey × Option String) :=
  e.refTxn.elim [] RefTransaction.writes

def foldUpto (log : List LogEntry) (q : ℕ) : RefState :=
  upto LogEntry.seq LogEntry.writes RefState.init log q

def NearFold (log : List LogEntry) (s : RefState) (q k : ℕ) : Prop :=
  Near LogEntry.seq LogEntry.writes RefState.init log s q k

/-- `load_ref_snapshot`: every ref replaced; `HEAD` only when the snapshot names a target. -/
def loadRefSnapshot (s snap : RefState) : RefState
  | .head => (snap .head).or (s .head)
  | .ref name => snap (.ref name)

/-- `apply_ref_txns_offline`: the merged map, or a refusal before anything is written. -/
def applyRefTxnsOffline (s : RefState) (txns : List RefTransaction) : Option RefState :=
  if txns.all fun t => t.updates.all validateRefUpdate then
    some (loadRefSnapshot s (replay s (txns.flatMap RefTransaction.writes)))
  else none

/-- The ref an `update-ref` command changes: `git` follows a symbolic `HEAD`. -/
def updateRefTarget (s : RefState) (name : String) : String :=
  if name = "HEAD" then (s .head).getD "HEAD" else name

def oidUpdates (txn : RefTransaction) : List RefUpdate :=
  txn.updates.filter fun u => !u.isSymbolic

/-- `git update-ref --stdin` refuses two commands for one ref. -/
def updateRefAccepts (s : RefState) (txn : RefTransaction) : Bool :=
  ((oidUpdates txn).map fun u => updateRefTarget s u.name).Nodup

def gitUpdateRef (s : RefState) (txn : RefTransaction) : RefState :=
  replay s ((oidUpdates txn).map fun u => (.ref (updateRefTarget s u.name), u.value))

def writeHead (s : RefState) (txn : RefTransaction) : RefState :=
  replay s ((txn.updates.filter RefUpdate.isSymbolic).map fun u =>
    (.head, some u.newSymbolicTarget))

/-- `apply_ref_txn` without the old-value check: the object updates in one `git` transaction,
then the `HEAD` file. -/
def applyRefTxn (s : RefState) (txn : RefTransaction) : Option RefState :=
  if txn.updates.all validateRefUpdate && updateRefAccepts s txn then
    some (writeHead (gitUpdateRef s txn) txn)
  else none

structure RefView where
  base : RefState
  overlay : List (String × Option String)

def RefView.find (v : RefView) (name : String) : Option String :=
  (v.overlay.lookup name).getD (v.base (.ref name))

/-- `HEAD` without an overlay value is read through its target. -/
def RefView.get (v : RefView) (name : String) : Option String :=
  match v.overlay.lookup name with
  | some x => x
  | none =>
    if name = "HEAD" then (v.base .head).bind v.find
    else v.base (.ref name)

inductive RefError
  | conflict (expected actual : String)
  | rejected
  deriving DecidableEq, Repr

def verifyUpdate (v : RefView) (u : RefUpdate) : Except RefError Unit :=
  if u.isSymbolic then .ok ()
  else
    let actual := (v.get u.name).getD ""
    if isNullOid u.oldOid then
      if actual = "" then .ok () else .error (.conflict "(new)" actual)
    else if actual = u.oldOid then .ok ()
    else .error (.conflict u.oldOid actual)

abbrev PerRef := List (String × Except RefError Unit)

def verifyTxn (txn : RefTransaction) (v : RefView) : PerRef :=
  txn.updates.map fun u => (u.name, verifyUpdate v u)

def isOk {ε α : Type} : Except ε α → Bool
  | .ok _ => true
  | .error _ => false

def allOk (perRef : PerRef) : Bool := perRef.all fun r => isOk r.2

def applyUpdateToMap (v : RefView) (u : RefUpdate) : RefView :=
  if u.isSymbolic then { v with overlay := (u.name, some u.newSymbolicTarget) :: v.overlay }
  else { v with overlay := (u.name, u.value) :: v.overlay }

def applyTxnToMap (txn : RefTransaction) (v : RefView) : RefView :=
  txn.updates.foldl applyUpdateToMap v

structure PublishRequest where
  pack : Option String
  txn : RefTransaction
  synced : Bool
  createdAt : Option ℕ
  deriving DecidableEq, Repr

structure Verified where
  perRef : PerRef
  valid : Bool

/-- An explicit entry time before the floor. -/
def PublishRequest.early (req : PublishRequest) (floor : Option ℕ) : Bool :=
  match req.createdAt, floor with
  | some t, some f => decide (t < f)
  | _, _ => false

/-- One request: the old values, then the entry time, which moves the floor. -/
def verifyRequest (v : RefView) (floor : Option ℕ) (req : PublishRequest) :
    Verified × RefView × Option ℕ :=
  let perRef := verifyTxn req.txn v
  let perRef := if req.early floor then perRef.map fun r => (r.1, .error .rejected) else perRef
  let valid := allOk perRef
  (⟨perRef, valid⟩, if valid then applyTxnToMap req.txn v else v,
    match req.createdAt with
    | some t => if valid then some t else floor
    | none => floor)

def verifyBatch (v : RefView) (floor : Option ℕ) : List PublishRequest → List Verified
  | [] => []
  | req :: reqs =>
    let r := verifyRequest v floor req
    r.1 :: verifyBatch r.2.1 r.2.2 reqs

end Walgit
