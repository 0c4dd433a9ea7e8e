import Walgit.Entries

/-!
# The CI protocol's read side

Runners claim a run and publish its result as signed entries of one thread.
Every client folds them the same way: the claims and results of each attempt,
the winner among the live claims, the result that counts, and what a runner is
to do next.
-/

namespace Walgit.Ci

open Collab Grouping

def i64Max : ℤ := 9223372036854775807

def claimTtlMin : ℕ := 1

def claimTtlMax : ℕ := 86400

def attemptMax : ℕ := 10

def bodyMaxBytes : ℕ := 256 * 1024

def artifactsPerResultMax : ℕ := 32

inductive Conclusion
  | success | failure | timeout | error
  deriving DecidableEq, Repr

def Conclusion.asStr : Conclusion → String
  | .success => "success"
  | .failure => "failure"
  | .timeout => "timeout"
  | .error => "error"

def Conclusion.parse (s : String) : Option Conclusion :=
  [.success, .failure, .timeout, .error].find? fun c => c.asStr == s

structure CiClaim where
  oid : String
  actor : String
  ts : ℤ
  task : String
  repoRef : String
  commit : String
  ttlSecs : ℕ
  attempt : ℕ
  deriving DecidableEq, Repr

/-- `saturating_add_unsigned` on 64 bits; nothing is added below the least value. -/
def saturatingAdd (ts : ℤ) (secs : ℕ) : ℤ := min (ts + secs) i64Max

def CiClaim.live (c : CiClaim) (now : ℤ) : Bool := decide (now ≤ saturatingAdd c.ts c.ttlSecs)

structure CiArtifact where
  name : String
  path : String
  sha256 : String
  bytes : ℕ
  url : Option String
  deriving DecidableEq, Repr

structure CiResult where
  oid : String
  actor : String
  ts : ℤ
  task : String
  repoRef : String
  commit : String
  attempt : ℕ
  claim : String
  conclusion : Conclusion
  exitCode : Option ℤ
  durationMs : Option ℕ
  logSummary : String
  logSha256 : String
  logTruncated : Bool
  artifacts : List CiArtifact
  deriving DecidableEq, Repr

section Bodies

def bodyStr (body : Json) (key : String) : Option String :=
  ((body.get key).bind Json.asStr).filter fun s => s != ""

def bodyU32 (body : Json) (key : String) (least greatest : ℕ) : Option ℕ :=
  ((body.get key).bind Json.asU64).filter fun v =>
    decide (v < 2 ^ 32 ∧ least ≤ v ∧ v ≤ greatest)

def bodyWithinCap (body : Json) : Bool := body.fits bodyMaxBytes

def parseClaim (r : EntryRef) : Option CiClaim :=
  let body := r.entry.body
  if r.entry.kind ≠ "ci_claim" ∨ bodyWithinCap body = false then none
  else do
    let ttlSecs ← bodyU32 body "ttl" claimTtlMin claimTtlMax
    let task ← bodyStr body "task"
    let repoRef ← bodyStr body "ref"
    let commit ← bodyStr body "commit"
    let attempt ← bodyU32 body "attempt" 1 attemptMax
    some ⟨r.oid, r.entry.actor, r.entry.ts, task, repoRef, commit, ttlSecs, attempt⟩

def isHexDigit (c : Char) : Bool :=
  ('0' ≤ c && c ≤ '9') || ('a' ≤ c && c ≤ 'f') || ('A' ≤ c && c ≤ 'F')

/-- A bad item is dropped. -/
def parseArtifact (item : Json) : Option CiArtifact := do
  let obj ← item.asObject
  let name ← (obj.lookup "name").bind Json.asStr
  let path ← (obj.lookup "path").bind Json.asStr
  let sha256 ← (obj.lookup "sha256").bind Json.asStr
  let bytes ← (obj.lookup "bytes").bind Json.asU64
  if name = "" ∨ 128 < name.utf8ByteSize ∨ path = "" then none
  else if sha256.utf8ByteSize ≠ 64 ∨ sha256.toList.all isHexDigit = false then none
  else some ⟨name, path, sha256, bytes, (obj.lookup "url").bind Json.asStr⟩

/-- No field is no artifacts; a field that is no array condemns the entry. -/
def parseArtifacts (body : Json) : Option (List CiArtifact) :=
  match body.get "artifacts" with
  | none => some []
  | some val =>
    val.asArray.map fun items => (items.take artifactsPerResultMax).filterMap parseArtifact

def parseResult (r : EntryRef) : Option CiResult :=
  let body := r.entry.body
  if r.entry.kind ≠ "ci_result" ∨ bodyWithinCap body = false then none
  else do
    let conclusion ← (bodyStr body "conclusion").bind Conclusion.parse
    let task ← bodyStr body "task"
    let repoRef ← bodyStr body "ref"
    let commit ← bodyStr body "commit"
    let attempt ← bodyU32 body "attempt" 1 attemptMax
    let claim ← bodyStr body "claim"
    let artifacts ← parseArtifacts body
    some ⟨r.oid, r.entry.actor, r.entry.ts, task, repoRef, commit, attempt, claim, conclusion,
      (body.get "exit_code").bind Json.asI64, (body.get "duration_ms").bind Json.asU64,
      (bodyStr body "log_summary").getD "", (bodyStr body "log_sha256").getD "",
      ((body.get "log_truncated").bind Json.asBool).getD false, artifacts⟩

end Bodies

section Attempts

inductive RunState
  | pending | claimed | stale | done
  deriving DecidableEq, Repr

def RunState.asStr : RunState → String
  | .pending => "pending"
  | .claimed => "claimed"
  | .stale => "stale"
  | .done => "done"

structure AttemptView where
  attempt : ℕ
  claims : List CiClaim
  winner : Option CiClaim
  results : List CiResult
  effective : Option CiResult
  state : RunState
  deriving DecidableEq, Repr

def CiClaim.key (c : CiClaim) : OrderKey := orderKey c.ts c.actor c.oid

def CiResult.key (r : CiResult) : OrderKey := orderKey r.ts r.actor r.oid

/-- The claims that an error result refers to. -/
def voided (results : List CiResult) : List String :=
  (results.filter fun r => r.conclusion = .error).map CiResult.claim

def standing (results : List CiResult) (now : ℤ) (c : CiClaim) : Bool :=
  c.live now && decide (c.oid ∉ voided results)

def attemptView (attempt : ℕ) (claims : List CiClaim) (results : List CiResult) (now : ℤ) :
    AttemptView :=
  let winner := (claims.filter (standing results now)).argmin CiClaim.key
  let answered := match winner with
    | some w => results.filter fun r : CiResult => r.claim = w.oid
    | none => results
  let effective := answered.argmin CiResult.key
  let settled := effective.any fun r => decide (r.conclusion ≠ .error)
  let state :=
    if settled then .done
    else if winner.isSome then .claimed
    else if claims.isEmpty then .pending
    else .stale
  ⟨attempt, claims, winner, results, effective, state⟩

end Attempts

section Runs

/-- A verified entry that takes part in a run. -/
inductive CiEntry
  | claim (c : CiClaim)
  | result (r : CiResult)
  deriving DecidableEq, Repr

namespace CiEntry

def attempt : CiEntry → ℕ
  | .claim c => c.attempt
  | .result r => r.attempt

def claim? : CiEntry → Option CiClaim
  | .claim c => some c
  | .result _ => none

def result? : CiEntry → Option CiResult
  | .claim _ => none
  | .result r => some r

end CiEntry

/-- The kinds exclude each other, so an entry parses as one of the two at most. -/
def parseCi (principals : Principals) (r : EntryRef) : Option CiEntry :=
  if r.isVerified principals then
    match parseClaim r with
    | some c => some (.claim c)
    | none => (parseResult r).map .result
  else none

def isCi (r : EntryRef) : Bool := r.entry.kind == "ci_claim" || r.entry.kind == "ci_result"

structure RunView where
  id : String
  task : String
  repoRef : String
  commit : String
  attempts : List AttemptView
  latestAttempt : ℕ
  state : RunState
  conclusion : Option Conclusion
  runner : Option String
  lastTs : ℤ
  unverified : ℕ
  deriving DecidableEq, Repr

/-- The entries of one attempt, the claims and the results in the order they were read. -/
structure Bucket where
  attempt : ℕ
  claims : List CiClaim
  results : List CiResult
  deriving DecidableEq, Repr

def Bucket.view (b : Bucket) (now : ℤ) : AttemptView := attemptView b.attempt b.claims b.results now

def parsedOf (principals : Principals) (id : String) (entries : List EntryRef) : List CiEntry :=
  (entries.filter fun r => r.entry.id = id).filterMap (parseCi principals)

def bucketsOf (principals : Principals) (id : String) (entries : List EntryRef) : List Bucket :=
  (groupBy CiEntry.attempt (parsedOf principals id entries)).map fun g =>
    ⟨g.1, g.2.filterMap CiEntry.claim?, g.2.filterMap CiEntry.result?⟩

/-- Task, ref and commit: of the effective result, else of the winner, else of the first claim
read. -/
def AttemptView.header (a : AttemptView) : String × String × String :=
  match a.effective, a.winner, a.claims.head? with
  | some r, _, _ => (r.task, r.repoRef, r.commit)
  | none, some c, _ => (c.task, c.repoRef, c.commit)
  | none, none, some c => (c.task, c.repoRef, c.commit)
  | none, none, none => ("", "", "")

def maxTs (entries : List EntryRef) : ℤ := (entries.map fun r => r.entry.ts).foldl max 0

def runView (principals : Principals) (id : String) (entries : List EntryRef) (now : ℤ) :
    Option RunView :=
  let mine := entries.filter fun r => r.entry.id = id
  if mine.isEmpty then none
  else
    let views := (bucketsOf principals id entries).map fun b => b.view now
    let latest := views.getLast?
    let header := (latest.map AttemptView.header).getD ("", "", "")
    some {
      id := id
      task := header.1
      repoRef := header.2.1
      commit := header.2.2
      attempts := views
      latestAttempt := (latest.map AttemptView.attempt).getD 1
      state := (latest.map AttemptView.state).getD .pending
      conclusion := (latest.bind AttemptView.effective).map CiResult.conclusion
      runner := (latest.bind AttemptView.winner).map CiClaim.actor
      lastTs := maxTs mine
      unverified := (mine.filter fun r => (parseCi principals r).isNone && isCi r).length }

/-- Every run of a log by id, in id order. -/
def collectRuns (principals : Principals) (entries : List EntryRef) (now : ℤ) :
    List (String × RunView) :=
  (groupBy (fun r : EntryRef => r.entry.id) entries).filterMap fun g =>
    (runView principals g.1 g.2 now).map fun v => (g.1, v)

end Runs

section Decisions

inductive Decision
  | settled (conclusion : Conclusion) (attempt : ℕ)
  | claim (attempt : ℕ)
  | resume (claimOid : String) (attempt : ℕ)
  | standDown (holder : String)
  deriving DecidableEq, Repr

/-- `max_attempts.clamp(1, ATTEMPT_MAX)`. -/
def budgetOf (maxAttempts : ℕ) : ℕ := min (max maxAttempts 1) attemptMax

def decideRun (run : RunView) (actor : String) (maxAttempts : ℕ) : Decision :=
  match run.attempts.getLast? with
  | none => .claim 1
  | some latest =>
    match latest.state with
    | .done =>
      match latest.effective with
      | some eff =>
        if (eff.conclusion = .failure ∨ eff.conclusion = .timeout) ∧
            eff.attempt < budgetOf maxAttempts then .claim (eff.attempt + 1)
        else .settled eff.conclusion eff.attempt
      | none => .claim latest.attempt
    | .claimed =>
      match latest.winner with
      | some w => if w.actor = actor then .resume w.oid latest.attempt else .standDown w.actor
      | none => .claim 1
    | .pending => .claim 1
    | .stale => .claim latest.attempt

end Decisions

end Walgit.Ci
