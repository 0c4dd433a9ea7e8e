import Mathlib.Data.Nat.Digits.Defs
import Walgit.Ci
import Walgit.JsonSize
import Walgit.Lib.LossySize
import Walgit.PackedRefs

/-!
# What the CI runner writes

A runner publishes its claim and its result as bodies that the read side has to
accept: the limits are checked there alone. Every body fits the cap. A claim is
refused for the duration that the command line gives it, and a log that is no
text has a summary above its bound.
-/

namespace Walgit.Ci

open Collab

section Tasks

def nameMax : ℕ := 64

def attemptsMax : ℕ := 10

def timeoutMinSecs : ℕ := 1

def timeoutMaxSecs : ℕ := 24 * 3600

def artifactMaxBytes : ℕ := 16 * 1024 * 1024

def logSummaryMax : ℕ := 4096

/-- `[A-Za-z0-9._-]{1,64}`. -/
def validTaskName (name : String) : Bool :=
  decide (name.utf8ByteSize ≤ nameMax) && name != "" &&
    name.toList.all fun c => c.isAlphanum || c ∈ ['.', '_', '-']

/-- A relative path inside the worktree. -/
def validArtifact (a : String) : Bool :=
  a != "" && decide (a.utf8ByteSize ≤ 255) && a.toList.head? != some '/' &&
    !a.toList.contains '\\' && !a.toList.contains ':' &&
    (PackedRefs.components a).all fun c => c != [] && c != ['.'] && c != ['.', '.']

/-- A validated task, with the pipeline's defaults applied. -/
structure CiResolvedTask where
  name : String
  maxAttempts : ℕ
  artifacts : List String
  name_ok : validTaskName name = true
  attempts_ok : 1 ≤ maxAttempts ∧ maxAttempts ≤ attemptsMax
  artifacts_few : artifacts.length ≤ artifactsPerResultMax
  artifacts_ok : ∀ a ∈ artifacts, validArtifact a = true

/-- A validated file. -/
structure CiResolved where
  claimTtlSecs : UInt64
  tasks : List CiResolvedTask
  ttl_ok : timeoutMinSecs ≤ claimTtlSecs.toNat ∧ claimTtlSecs.toNat ≤ timeoutMaxSecs

/-- `ttl_override.unwrap_or(cfg.claim_ttl_secs)`. -/
def CiResolved.ttl (cfg : CiResolved) (ttlOverride : Option UInt64) : UInt64 :=
  ttlOverride.getD cfg.claimTtlSecs

end Tasks

section Executions

def hexEncode (bytes : List UInt8) : String :=
  .ofList (bytes.flatMap fun b => [Nat.digitChar (b.toNat / 16), Nat.digitChar (b.toNat % 16)])

/-- SHA-256: a digest of 32 bytes for all bytes. -/
abbrev Digest := List UInt8 → { d : List UInt8 // d.length = 32 }

def sha256Hex (sha256 : Digest) (bytes : List UInt8) : String := hexEncode (sha256 bytes).1

structure CollectedArtifact where
  name : String
  path : String
  sha256 : String
  bytes : UInt64
  oid : String

/-- What the runner reads in a task's worktree: the length of a regular file, the blob that git
stores for it, and its bytes. -/
structure Worktree where
  fileLen : String → Option UInt64
  hashObject : String → Option String
  readFile : String → Option (List UInt8)

/-- `Path::file_name` of a path that is valid as an artifact. -/
def fileName (rel : String) : Option String := (PackedRefs.components rel).getLast?.map .ofList

/-- A file that is missing, too large, or whose name is too long is skipped. -/
def collectArtifact (sha256 : Digest) (worktree : Worktree) (rel : String) :
    Option CollectedArtifact := do
  let len ← (worktree.fileLen rel).filter fun len => decide (len.toNat ≤ artifactMaxBytes)
  let name ← (fileName rel).filter fun n => n != "" && decide (n.utf8ByteSize ≤ 128)
  let oid ← worktree.hashObject rel
  let content ← worktree.readFile rel
  some ⟨name, rel, sha256Hex sha256 content, len, oid⟩

def collectArtifacts (sha256 : Digest) (worktree : Worktree) (task : CiResolvedTask) :
    List CollectedArtifact :=
  task.artifacts.filterMap (collectArtifact sha256 worktree)

structure ExecOutcome where
  conclusion : Conclusion
  exitCode : Option Int64
  durationMs : UInt64
  log : List UInt8
  logTruncated : Bool
  artifacts : List CollectedArtifact

/-- How an execution can end: it never ran, it was killed at its deadline, or it exited, with a
code or by a signal. -/
inductive Execution
  | failed (msg : String)
  | timedOut (log : List UInt8) (truncated : Bool)
  | exited (code : Option Int32) (log : List UInt8) (truncated : Bool)

def Execution.log : Execution → List UInt8
  | .failed msg => Utf8.encode msg.toList
  | .timedOut log _ => log
  | .exited _ log _ => log

/-- Artifacts are collected unless the task never ran. -/
def execute (sha256 : Digest) (worktree : Worktree) (task : CiResolvedTask) (durationMs : UInt64)
    (e : Execution) : ExecOutcome :=
  match e with
  | .failed _ => ⟨.error, none, durationMs, e.log, false, []⟩
  | .timedOut _ truncated =>
    ⟨.timeout, none, durationMs, e.log, truncated, collectArtifacts sha256 worktree task⟩
  | .exited code _ truncated =>
    ⟨if code = some 0 then .success else .failure, code.map Int32.toInt64, durationMs, e.log,
      truncated, collectArtifacts sha256 worktree task⟩

end Executions

section Writers

/-- `b & 0xC0 == 0x80`. -/
def isContinuation (b : UInt8) : Bool := b &&& 0xC0 == 0x80

/-- The last `max` bytes, from the first boundary in them on. -/
def tailBytes (bytes : List UInt8) (max : ℕ) : List UInt8 :=
  (bytes.drop (bytes.length - max)).dropWhile isContinuation

def tailString (bytes : List UInt8) (max : ℕ) : String :=
  .ofList (Utf8.lossy (tailBytes bytes max))

def artifactJson (a : CollectedArtifact) : Json :=
  .object [("bytes", .int a.bytes.toNat), ("name", .string a.name), ("path", .string a.path),
    ("sha256", .string a.sha256)]

def IsObjectId (s : String) : Prop :=
  (s.toList.length = 40 ∨ s.toList.length = 64) ∧ s.toList.all isHexDigit = true

/-- A ref of the remote and its commit, as git reports them: `git ls-remote` reads the name from one
packet, and `git fetch` refuses a name that breaks its rules. -/
structure Tip where
  refName : String
  commit : String
  format_ok : PackedRefs.CheckRefFormat false refName
  packet_ok : refName.utf8ByteSize ≤ Pkt.maxPktData
  commit_ok : IsObjectId commit

structure Runner where
  actor : String
  signEntry : Entry → String

/-- The signed entry that `Runner::publish` writes. -/
def Runner.publish (runner : Runner) (kind id parent : String) (ts : ℤ) (body : Json) : Entry :=
  let entry : Entry := ⟨1, kind, id, runner.actor, ts, parent, none, body, ""⟩
  { entry with sig := runner.signEntry entry }

def runnerText : String := "walgit ci/0.1.0"

def claimBody (task : CiResolvedTask) (tip : Tip) (ttl : UInt64) (attempt : ℕ) : Json :=
  .object [("attempt", .int attempt), ("commit", .string tip.commit), ("ref", .string tip.refName),
    ("runner", .string runnerText), ("task", .string task.name), ("ttl", .int ttl.toNat)]

def optionalField (present : Bool) (key : String) (v : Json) : List (String × Json) :=
  if present then [(key, v)] else []

def resultBody (sha256 : Digest) (task : CiResolvedTask) (tip : Tip) (attempt : ℕ)
    (claimOid : String) (outcome : ExecOutcome) (artifacts : List Json) : Json :=
  .object (optionalField (!artifacts.isEmpty) "artifacts" (.array artifacts) ++
    [("attempt", .int attempt), ("claim", .string claimOid), ("commit", .string tip.commit),
      ("conclusion", .string outcome.conclusion.asStr),
      ("duration_ms", .int outcome.durationMs.toNat),
      ("exit_code", (outcome.exitCode.map fun c => .int c.toInt).getD .null),
      ("log_sha256", .string (sha256Hex sha256 outcome.log)),
      ("log_summary", .string (tailString outcome.log logSummaryMax))] ++
    optionalField outcome.logTruncated "log_truncated" (.bool true) ++
    [("ref", .string tip.refName), ("task", .string task.name)])

/-- One attempt of a run: the task is the file's, and the decision keeps to its attempts. -/
structure Job where
  runner : Runner
  id : String
  cfg : CiResolved
  ttlOverride : Option UInt64
  task : CiResolvedTask
  task_mem : task ∈ cfg.tasks
  tip : Tip
  attempt : ℕ
  attempt_ok : 1 ≤ attempt ∧ attempt ≤ task.maxAttempts

def Job.ttl (job : Job) : UInt64 := job.cfg.ttl job.ttlOverride

def Job.publishClaim (job : Job) (ts : ℤ) : Entry :=
  job.runner.publish "ci_claim" job.id "" ts (claimBody job.task job.tip job.ttl job.attempt)

def uploadRunObjects (outcome : ExecOutcome) : List Json := outcome.artifacts.map artifactJson

def Job.publishResult (job : Job) (sha256 : Digest) (ts : ℤ) (claimOid : String)
    (outcome : ExecOutcome) (artifacts : List Json) : Entry :=
  job.runner.publish "ci_result" job.id claimOid ts
    (resultBody sha256 job.task job.tip job.attempt claimOid outcome artifacts)

/-- One execution under a claim, as it happens: how it ends, after how long, what its worktree
holds, and whether the upload of its objects succeeds. -/
structure Occurrence where
  sha256 : Digest
  worktree : Worktree
  durationMs : UInt64
  execution : Execution
  pushed : Bool
  claimOid : { oid : String // IsObjectId oid }

def Occurrence.outcome (o : Occurrence) (task : CiResolvedTask) : ExecOutcome :=
  execute o.sha256 o.worktree task o.durationMs o.execution

/-- The result goes without artifacts where their upload fails. -/
def Job.runOnce (job : Job) (ts : ℤ) (o : Occurrence) : Entry :=
  let outcome := o.outcome job.task
  job.publishResult o.sha256 ts o.claimOid outcome
    (if o.pushed then uploadRunObjects outcome else [])

end Writers

section Sizes

open Json

variable {s : String} {k n b b' : ℕ} {key : String} {v : Json} {vs : List Json}
  {fs gs : List (String × Json)}

theorem stringCost_le (h : ∀ c ∈ s.toList, escapedLen c ≤ k * c.utf8Size) :
    stringCost s ≤ 2 + k * s.utf8ByteSize := by
  have hsum : ∀ cs : List Char, (∀ c ∈ cs, escapedLen c ≤ k * c.utf8Size) →
      (cs.map escapedLen).sum ≤ k * byteLen cs := by
    intro cs hcs
    induction cs with
    | nil => exact Nat.zero_le _
    | cons c cs ih =>
      rw [List.forall_mem_cons] at hcs
      rw [List.map_cons, List.sum_cons, byteLen_cons, Nat.mul_add, Nat.add_comm]
      exact Nat.add_le_add (ih hcs.2) hcs.1
  have hle := hsum s.toList h
  rw [byteLen, String.ofList_toList] at hle
  exact Nat.add_le_add_left hle 2

theorem escapedLen_le_six (c : Char) : escapedLen c ≤ 6 * c.utf8Size := by
  have hpos := c.utf8Size_pos
  unfold escapedLen
  split_ifs <;> omega

theorem escapedLen_le_two {c : Char} (h : 32 ≤ c.toNat) : escapedLen c ≤ 2 * c.utf8Size := by
  have hpos := c.utf8Size_pos
  unfold escapedLen
  split_ifs <;> omega

/-- The bytes of the fields of an object, each with its key, a colon and a comma. -/
def fieldsLen (fs : List (String × Json)) : ℕ :=
  (fs.map fun f => 2 + stringCost f.1 + byteLen (compact f.2)).sum

theorem byteLen_object_le : byteLen (compact (.object fs)) ≤ 2 + fieldsLen fs := by
  have hsplit : fieldsLen fs = 2 * fs.length + keysLen fs + valuesLen fs := by
    induction fs with
    | nil => rfl
    | cons f fs ih =>
      simp only [fieldsLen, keysLen, valuesLen, List.map_cons, List.sum_cons,
        List.length_cons] at ih ⊢
      omega
  rw [compact, byteLen_bracket Collab.brackets_object, length_compactFields,
    byteLen_compactFields, hsplit]
  omega

theorem byteLen_array_le (h : ∀ v ∈ vs, byteLen (compact v) ≤ b) :
    byteLen (compact (.array vs)) ≤ 2 + (b + 1) * vs.length := by
  have hsum : ((compactItems vs).map byteLen).sum ≤ b * vs.length := by
    induction vs with
    | nil => exact Nat.zero_le _
    | cons v vs ih =>
      rw [List.forall_mem_cons] at h
      rw [compactItems, List.map_cons, List.sum_cons, List.length_cons, Nat.mul_succ,
        Nat.add_comm]
      exact Nat.add_le_add (ih h.2) h.1
  rw [compact, byteLen_bracket Collab.brackets_array, length_compactItems, Nat.add_mul]
  omega

theorem fieldsLen_cons_le (hkey : stringCost key ≤ 16) (hv : byteLen (compact v) ≤ b)
    (h : fieldsLen fs ≤ b') : fieldsLen ((key, v) :: fs) ≤ 18 + b + b' := by
  have hcons : fieldsLen ((key, v) :: fs) =
      2 + stringCost key + byteLen (compact v) + fieldsLen fs := rfl
  omega

theorem fieldsLen_append : fieldsLen (fs ++ gs) = fieldsLen fs + fieldsLen gs := by
  rw [fieldsLen, List.map_append, List.sum_append, ← fieldsLen, ← fieldsLen]

theorem byteLen_string_le (h : stringCost s ≤ b) : byteLen (compact (.string s)) ≤ b := by
  rwa [compact, byteLen_quote]

theorem byteLen_nat_le (h : n < 10 ^ 20) : byteLen (compact (.int n)) ≤ 20 := by
  rw [compact, byteLen_number fun _ => Collab.numberChar_of_int]
  exact Nat.repr_length n 20 (by decide) h

theorem byteLen_int64_le (c : Int64) : byteLen (compact (.int c.toInt)) ≤ 20 := by
  have hlow := c.le_toInt
  have hhigh := c.toInt_lt
  cases hc : c.toInt with
  | ofNat n =>
    rw [hc, Int.ofNat_eq_natCast] at hhigh
    exact byteLen_nat_le (by omega)
  | negSucc n =>
    rw [hc] at hlow
    rw [compact, byteLen_number fun _ => Collab.numberChar_of_int, Decimal.toList_negSucc,
      List.length_cons]
    exact Nat.succ_le_succ (Nat.repr_length (n + 1) 19 (by decide) (by omega))

end Sizes

section Values

open Json

variable {s : String} {c : Char} {n least greatest : ℕ} {key : String}
  {task : CiResolvedTask} {tip : Tip} {bytes : List UInt8} {sha256 : Digest} {v : Json}
  {fs : List (String × Json)}

theorem hexDigit_size (h : isHexDigit c = true) : c.utf8Size = 1 := by
  rw [Char.utf8Size_eq_one_iff]
  simp only [isHexDigit, Bool.or_eq_true, Bool.and_eq_true, decide_eq_true_eq] at h
  rcases h with (h | h) | h <;> exact UInt32.le_trans h.2 (by decide)

theorem utf8ByteSize_hex (h : s.toList.all isHexDigit = true) :
    s.utf8ByteSize = s.toList.length := by
  rw [← byteLen_of_ascii fun c hc => hexDigit_size (List.all_eq_true.mp h c hc), byteLen,
    String.ofList_toList]

theorem IsObjectId.ne_empty (h : IsObjectId s) : s ≠ "" := by
  rintro rfl
  exact absurd h.1 (by decide)

theorem IsObjectId.cost_le (h : IsObjectId s) : stringCost s ≤ 386 := by
  have hcost := @stringCost_le s 6 fun c _ => escapedLen_le_six c
  rw [utf8ByteSize_hex h.2] at hcost
  have hlen := h.1
  omega

theorem CiResolvedTask.name_ne : task.name ≠ "" := by
  have h := task.name_ok
  simp only [validTaskName, Bool.and_eq_true, bne_iff_ne] at h
  exact h.1.2

theorem CiResolvedTask.name_cost_le : stringCost task.name ≤ 386 := by
  have h := task.name_ok
  simp only [validTaskName, Bool.and_eq_true] at h
  have hsize : task.name.utf8ByteSize ≤ 64 := of_decide_eq_true h.1.1
  have hcost := @stringCost_le task.name 6 fun c _ => escapedLen_le_six c
  omega

theorem Tip.refName_ne : tip.refName ≠ "" := by
  intro h
  rcases tip.format_ok.level with hlevel | hlevel
  · cases hlevel
  · rw [h] at hlevel
    exact absurd hlevel (by decide)

theorem Tip.refName_cost_le : stringCost tip.refName ≤ 131034 := by
  have hcost := @stringCost_le tip.refName 2 fun c hc =>
    escapedLen_le_two (tip.format_ok.control c hc).1
  have hsize := tip.packet_ok
  rw [Pkt.maxPktData] at hsize
  omega

theorem hexEncode_spec (bytes : List UInt8) :
    (hexEncode bytes).toList.length = 2 * bytes.length ∧
      (hexEncode bytes).toList.all isHexDigit = true := by
  have hdigit : ∀ d < 16, isHexDigit (Nat.digitChar d) = true := by decide
  rw [hexEncode, String.toList_ofList]
  induction bytes with
  | nil => exact ⟨rfl, rfl⟩
  | cons b bytes ih =>
    have hb := b.toNat_lt
    rw [List.flatMap_cons, List.length_append, List.all_append, ih.1, ih.2, Bool.and_true]
    refine ⟨by simp only [List.length_cons, List.length_nil]; omega, ?_⟩
    simp only [List.all_cons, List.all_nil, Bool.and_true, Bool.and_eq_true]
    exact ⟨hdigit _ (by omega), hdigit _ (by omega)⟩

theorem isObjectId_sha256Hex : IsObjectId (sha256Hex sha256 bytes) := by
  obtain ⟨hlen, hhex⟩ := hexEncode_spec (sha256 bytes).1
  rw [(sha256 bytes).2] at hlen
  exact ⟨.inr hlen, hhex⟩

theorem utf8ByteSize_sha256Hex : (sha256Hex sha256 bytes).utf8ByteSize = 64 := by
  obtain ⟨hlen, hhex⟩ := hexEncode_spec (sha256 bytes).1
  rw [sha256Hex, utf8ByteSize_hex hhex, hlen, (sha256 bytes).2]

theorem asStr_of_mem (hv : Valid (.object fs)) (h : (key, .string s) ∈ fs) :
    (fs.lookup key).bind asStr = some s := by
  rw [lookup_of_mem hv.1 h, Option.bind_some, asStr]

theorem get_of_mem (hv : Valid (.object fs)) (h : (key, v) ∈ fs) :
    Json.get (.object fs) key = some v :=
  lookup_of_mem hv.1 h

theorem get_of_not_mem (h : key ∉ fs.map Prod.fst) : Json.get (.object fs) key = none := by
  rw [Json.get, List.lookup_eq_none_iff]
  intro f hf
  exact bne_iff_ne.mpr fun heq => h (heq ▸ List.mem_map_of_mem hf)

theorem bodyStr_of_mem (hv : Valid (.object fs)) (h : (key, .string s) ∈ fs) (hne : s ≠ "") :
    bodyStr (.object fs) key = some s := by
  rw [bodyStr, Json.get, asStr_of_mem hv h, Option.filter_some, if_pos (bne_iff_ne.mpr hne)]

theorem asU64_natCast (h : n < 2 ^ 64) : asU64 (.int n) = some n := by
  rw [asU64, if_pos ⟨Int.natCast_nonneg n, by exact_mod_cast h⟩, Int.toNat_natCast]

theorem asI64_toInt (c : Int64) : asI64 (.int c.toInt) = some c.toInt := by
  rw [asI64, if_pos ⟨c.le_toInt, c.toInt_lt⟩]

theorem asU64_of_mem (hv : Valid (.object fs)) (h : (key, .int n) ∈ fs) (hn : n < 2 ^ 64) :
    (fs.lookup key).bind asU64 = some n := by
  rw [lookup_of_mem hv.1 h, Option.bind_some, asU64_natCast hn]

theorem bodyU32_of_mem (hv : Valid (.object fs)) (h : (key, .int n) ∈ fs) (hn : n < 2 ^ 64)
    (hgreatest : greatest < 2 ^ 32) : bodyU32 (.object fs) key least greatest =
      if least ≤ n ∧ n ≤ greatest then some n else none := by
  rw [bodyU32, Json.get, asU64_of_mem hv h hn, Option.filter_some]
  have hiff : (n < 2 ^ 32 ∧ least ≤ n ∧ n ≤ greatest) ↔ least ≤ n ∧ n ≤ greatest := by omega
  simp only [hiff, decide_eq_true_eq]

theorem bodyAttempt_of_mem (hv : Valid (.object fs)) (h : ("attempt", .int n) ∈ fs)
    (hn : 1 ≤ n ∧ n ≤ attemptMax) : bodyU32 (.object fs) "attempt" 1 attemptMax = some n := by
  rw [bodyU32_of_mem hv h (Nat.lt_of_le_of_lt hn.2 (by decide)) (by decide), if_pos hn]

end Values

section Claims

open Json

variable {job : Job} {ts : ℤ} {oid principal : String} {task : CiResolvedTask} {tip : Tip}
  {ttl : UInt64} {attempt : ℕ}

theorem Job.attempt_bounds (job : Job) : 1 ≤ job.attempt ∧ job.attempt ≤ attemptMax :=
  ⟨job.attempt_ok.1, job.attempt_ok.2.trans job.task.attempts_ok.2⟩

theorem claimBody_valid : Valid (claimBody task tip ttl attempt) :=
  ⟨by simp, trivial, trivial, trivial, trivial, trivial, trivial, trivial⟩

theorem claimBody_fits (h : attempt ≤ attemptMax) :
    bodyWithinCap (claimBody task tip ttl attempt) = true := by
  rw [bodyWithinCap, fits_iff_byteLen _ claimBody_valid]
  calc byteLen (compact (claimBody task tip ttl attempt))
      ≤ 2 + fieldsLen _ := byteLen_object_le
    _ ≤ 2 + (18 + 20 + (18 + 386 + (18 + 131034 + (18 + 20 + (18 + 386 + (18 + 20 + 0)))))) :=
      Nat.add_le_add_left
        (fieldsLen_cons_le (by decide) (byteLen_nat_le (Nat.lt_of_le_of_lt h (by decide))) <|
          fieldsLen_cons_le (by decide) (byteLen_string_le tip.commit_ok.cost_le) <|
          fieldsLen_cons_le (by decide) (byteLen_string_le tip.refName_cost_le) <|
          fieldsLen_cons_le (by decide) (byteLen_string_le (by decide)) <|
          fieldsLen_cons_le (by decide) (byteLen_string_le task.name_cost_le) <|
          fieldsLen_cons_le (by decide) (byteLen_nat_le (ttl.toNat_lt.trans (by decide))) <|
          Nat.le_refl 0) 2
    _ ≤ bodyMaxBytes := by decide
/-- The claim that the read side is to get. -/
def Job.claim (job : Job) (oid : String) (ts : ℤ) : CiClaim :=
  ⟨oid, job.runner.actor, ts, job.task.name, job.tip.refName, job.tip.commit, job.ttl.toNat,
    job.attempt⟩

theorem parseClaim_eq {r : EntryRef} {task repoRef commit : String} {attempt : ℕ}
    (hkind : r.entry.kind = "ci_claim") (hcap : bodyWithinCap r.entry.body = true)
    (htask : bodyStr r.entry.body "task" = some task)
    (href : bodyStr r.entry.body "ref" = some repoRef)
    (hcommit : bodyStr r.entry.body "commit" = some commit)
    (hattempt : bodyU32 r.entry.body "attempt" 1 attemptMax = some attempt) :
    parseClaim r = (bodyU32 r.entry.body "ttl" claimTtlMin claimTtlMax).map fun ttl =>
      ⟨r.oid, r.entry.actor, r.entry.ts, task, repoRef, commit, ttl, attempt⟩ := by
  simp only [parseClaim, hkind, hcap, htask, href, hcommit, hattempt, ne_eq, not_true_eq_false,
    Bool.true_eq_false, or_self, if_false, Option.bind_some, Option.bind_eq_bind]
  rw [Option.map_eq_bind]
  rfl

theorem parseClaim_publishClaim : parseClaim ⟨oid, principal, job.publishClaim ts⟩ =
    if claimTtlMin ≤ job.ttl.toNat ∧ job.ttl.toNat ≤ claimTtlMax then some (job.claim oid ts)
    else none := by
  have hattempt := job.attempt_bounds
  have hv := @claimBody_valid job.task job.tip job.ttl job.attempt
  have httl : bodyU32 (job.publishClaim ts).body "ttl" claimTtlMin claimTtlMax = _ :=
    bodyU32_of_mem hv (by simp) job.ttl.toNat_lt (by decide)
  have hread := @parseClaim_eq ⟨oid, principal, job.publishClaim ts⟩ _ _ _ _ rfl
    (claimBody_fits hattempt.2) (bodyStr_of_mem hv (by simp) job.task.name_ne)
    (bodyStr_of_mem hv (by simp) job.tip.refName_ne)
    (bodyStr_of_mem hv (by simp) job.tip.commit_ok.ne_empty)
    (bodyAttempt_of_mem hv (by simp) hattempt)
  rw [hread, httl]
  split_ifs
  · rfl
  · rfl

end Claims

section Artifacts

open Json

variable {a : CollectedArtifact} {as : List CollectedArtifact} {sha256 : Digest}
  {worktree : Worktree} {task : CiResolvedTask} {rel : String}

/-- What the read side asks of an artifact, and the bound on its path. -/
structure CollectedArtifact.Readable (a : CollectedArtifact) : Prop where
  name : a.name ≠ "" ∧ a.name.utf8ByteSize ≤ 128
  path : a.path ≠ "" ∧ a.path.utf8ByteSize ≤ 255
  sha256 : a.sha256.utf8ByteSize = 64 ∧ a.sha256.toList.all isHexDigit = true

/-- An artifact as it is read; the runner gives no address. -/
def CollectedArtifact.reference (a : CollectedArtifact) : CiArtifact :=
  ⟨a.name, a.path, a.sha256, a.bytes.toNat, none⟩

theorem readable_of_collectArtifact (hrel : validArtifact rel = true)
    (h : collectArtifact sha256 worktree rel = some a) : a.Readable := by
  simp only [collectArtifact, Option.bind_eq_bind, Option.bind_eq_some_iff,
    Option.filter_eq_some_iff, Bool.and_eq_true, bne_iff_ne, decide_eq_true_eq,
    Option.some.injEq] at h
  obtain ⟨len, -, name, ⟨-, hname⟩, oid, -, content, -, rfl⟩ := h
  simp only [validArtifact, Bool.and_eq_true, bne_iff_ne, decide_eq_true_eq] at hrel
  exact ⟨hname, hrel.1.1.1.1, utf8ByteSize_sha256Hex, (hexEncode_spec _).2⟩

theorem readable_collectArtifacts :
    ∀ a ∈ collectArtifacts sha256 worktree task, a.Readable := by
  intro a ha
  obtain ⟨rel, hrel, hcollect⟩ := List.mem_filterMap.mp ha
  exact readable_of_collectArtifact (task.artifacts_ok rel hrel) hcollect

theorem collectArtifacts_few :
    (collectArtifacts sha256 worktree task).length ≤ artifactsPerResultMax :=
  (List.length_filterMap_le _ _).trans task.artifacts_few

theorem artifactJson_valid (a : CollectedArtifact) : Valid (artifactJson a) :=
  ⟨by simp, trivial, trivial, trivial, trivial, trivial⟩

theorem parseArtifact_eq {item : Json} {obj : List (String × Json)} {name path sha : String}
    {bytes : ℕ} (hobj : item.asObject = some obj)
    (hname : (obj.lookup "name").bind asStr = some name)
    (hpath : (obj.lookup "path").bind asStr = some path)
    (hsha : (obj.lookup "sha256").bind asStr = some sha)
    (hbytes : (obj.lookup "bytes").bind asU64 = some bytes)
    (hnames : ¬ (name = "" ∨ 128 < name.utf8ByteSize ∨ path = ""))
    (hdigest : ¬ (sha.utf8ByteSize ≠ 64 ∨ sha.toList.all isHexDigit = false)) :
    parseArtifact item = some ⟨name, path, sha, bytes, (obj.lookup "url").bind asStr⟩ := by
  simp only [parseArtifact, hobj, hname, hpath, hsha, hbytes, Option.bind_eq_bind,
    Option.bind_some, if_neg hnames, if_neg hdigest]

theorem parseArtifact_artifactJson (h : a.Readable) :
    parseArtifact (artifactJson a) = some a.reference := by
  have hnames : ¬ (a.name = "" ∨ 128 < a.name.utf8ByteSize ∨ a.path = "") := by
    rintro (hname | hname | hpath)
    · exact h.name.1 hname
    · exact absurd h.name.2 (Nat.not_le.mpr hname)
    · exact h.path.1 hpath
  have hdigest : ¬ (a.sha256.utf8ByteSize ≠ 64 ∨ a.sha256.toList.all isHexDigit = false) := by
    rw [h.sha256.1, h.sha256.2]
    decide
  have hv := artifactJson_valid a
  have hobj : asObject (artifactJson a) = some _ := rfl
  have hread := parseArtifact_eq hobj (asStr_of_mem hv (by simp)) (asStr_of_mem hv (by simp))
    (asStr_of_mem hv (by simp)) (asU64_of_mem hv List.mem_cons_self a.bytes.toNat_lt)
    hnames hdigest
  rw [List.lookup_eq_none_iff.mpr (by simp)] at hread
  exact hread

theorem filterMap_parseArtifact (h : ∀ a ∈ as, a.Readable) :
    (as.map artifactJson).filterMap parseArtifact = as.map CollectedArtifact.reference := by
  induction as with
  | nil => rfl
  | cons a as ih =>
    rw [List.forall_mem_cons] at h
    rw [List.map_cons, List.filterMap_cons_some (parseArtifact_artifactJson h.1), ih h.2,
      List.map_cons]

theorem artifactJson_size (h : a.Readable) : byteLen (compact (artifactJson a)) ≤ 2784 := by
  have hcost : ∀ {s : String} {n}, s.utf8ByteSize ≤ n →
      byteLen (compact (.string s)) ≤ 2 + 6 * n := fun hs =>
    byteLen_string_le ((stringCost_le fun c _ => escapedLen_le_six c).trans (by omega))
  calc byteLen (compact (artifactJson a))
      ≤ 2 + fieldsLen _ := byteLen_object_le
    _ ≤ 2 + (18 + 20 + (18 + (2 + 6 * 128) + (18 + (2 + 6 * 255) + (18 + (2 + 6 * 64) + 0)))) :=
      Nat.add_le_add_left
        (fieldsLen_cons_le (by decide) (byteLen_nat_le (a.bytes.toNat_lt.trans (by decide))) <|
          fieldsLen_cons_le (by decide) (hcost h.name.2) <|
          fieldsLen_cons_le (by decide) (hcost h.path.2) <|
          fieldsLen_cons_le (by decide) (hcost h.sha256.1.le) <|
          Nat.le_refl 0) 2
    _ ≤ 2784 := by decide

end Artifacts

section Tails

open Json

variable {b : UInt8} {bytes : List UInt8} {m : ℕ}

theorem length_tailBytes_le : (tailBytes bytes m).length ≤ m := by
  have hdrop : ((bytes.drop (bytes.length - m)).dropWhile isContinuation).length ≤ _ :=
    (List.dropWhile_suffix isContinuation).length_le
  rw [List.length_drop] at hdrop
  rw [tailBytes]
  omega

theorem tailBytes_eq_self (h : bytes.length ≤ m) (hhead : ∀ b ∈ bytes.head?,
    isContinuation b = false) : tailBytes bytes m = bytes := by
  rw [tailBytes, Nat.sub_eq_zero_of_le h, List.drop_zero]
  cases bytes with
  | nil => rfl
  | cons b bytes =>
    rw [List.dropWhile_cons_of_neg (by rw [hhead b rfl]; decide)]

theorem utf8ByteSize_ofList (cs : List Char) :
    (String.ofList cs).utf8ByteSize = (Utf8.encode cs).length := by
  rw [← byteLen]
  induction cs with
  | nil => rfl
  | cons c cs ih => rw [byteLen_cons, ih, Utf8.length_encode_cons, Nat.add_comm]

theorem utf8ByteSize_tailString : (tailString bytes m).utf8ByteSize =
    (tailBytes bytes m).length + Utf8.growth (tailBytes bytes m) := by
  rw [tailString, utf8ByteSize_ofList, Utf8.length_encode_lossy]

theorem tailString_cost_le : stringCost (tailString bytes m) ≤ 2 + 6 * m := by
  have hsum := Utf8.sum_lossy_le escapedLen_le_six (show escapedLen '\uFFFD' ≤ 6 by decide)
    (tailBytes bytes m)
  have hle := @length_tailBytes_le bytes m
  rw [stringCost, tailString, String.toList_ofList]
  omega

end Tails

section Results

open Json

variable {sha256 : Digest} {task : CiResolvedTask} {tip : Tip} {attempt : ℕ} {claimOid : String}
  {outcome : ExecOutcome} {as : List CollectedArtifact} {job : Job} {ts : ℤ}
  {oid principal : String}

theorem resultBody_valid :
    Valid (resultBody sha256 task tip attempt claimOid outcome (as.map artifactJson)) := by
  have hitems : ValidItems (as.map artifactJson) := by
    rw [validItems_iff, List.forall_mem_map]
    exact fun a _ => artifactJson_valid a
  have hexit : Valid ((outcome.exitCode.map fun c => Json.int c.toInt).getD .null) := by
    cases outcome.exitCode <;> trivial
  constructor
  · unfold optionalField
    split_ifs <;> simp
  · rw [validFields_iff]
    unfold optionalField
    split_ifs <;> simp [hexit, Valid, hitems]

theorem byteLen_exitCode_le :
    byteLen (compact ((outcome.exitCode.map fun c => Json.int c.toInt).getD .null)) ≤ 20 := by
  cases outcome.exitCode with
  | none => decide
  | some c => exact byteLen_int64_le c

theorem fieldsLen_optionalField_le {present : Bool} {key : String} {v : Json} {b : ℕ}
    (hkey : stringCost key ≤ 16) (hv : byteLen (compact v) ≤ b) :
    fieldsLen (optionalField present key v) ≤ 18 + b := by
  unfold optionalField
  split_ifs
  · exact fieldsLen_cons_le hkey hv (show fieldsLen [] ≤ 0 from Nat.le_refl 0)
  · exact Nat.zero_le _

/-- Whatever the log and the artifacts are, a result is within the cap. -/
theorem resultBody_fits (hattempt : attempt ≤ attemptMax) (hclaim : IsObjectId claimOid)
    (hfew : as.length ≤ artifactsPerResultMax) (has : ∀ a ∈ as, a.Readable) :
    bodyWithinCap (resultBody sha256 task tip attempt claimOid outcome
      (as.map artifactJson)) = true := by
  rw [bodyWithinCap, fits_iff_byteLen _ resultBody_valid]
  have hitems : ∀ v ∈ as.map artifactJson, byteLen (compact v) ≤ 2784 := by
    rw [List.forall_mem_map]
    exact fun a ha => artifactJson_size (has a ha)
  have harray : byteLen (compact (.array (as.map artifactJson))) ≤ 2 + 2785 * 32 := by
    refine (byteLen_array_le hitems).trans (Nat.add_le_add_left (Nat.mul_le_mul_left _ ?_) 2)
    rwa [List.length_map]
  have hconclusion : stringCost outcome.conclusion.asStr ≤ 9 := by
    cases outcome.conclusion <;> decide
  calc byteLen (compact (resultBody sha256 task tip attempt claimOid outcome _))
      ≤ 2 + fieldsLen _ := byteLen_object_le
    _ ≤ 2 + (18 + (2 + 2785 * 32) +
          (18 + 20 + (18 + 386 + (18 + 386 + (18 + 9 + (18 + 20 + (18 + 20 + (18 + 386 +
            (18 + (2 + 6 * logSummaryMax) + 0)))))))) +
          (18 + 4) + (18 + 131034 + (18 + 386 + 0))) := by
      refine Nat.add_le_add_left ?_ 2
      rw [fieldsLen_append, fieldsLen_append, fieldsLen_append]
      refine Nat.add_le_add (Nat.add_le_add (Nat.add_le_add ?_ ?_) ?_) ?_
      · exact fieldsLen_optionalField_le (by decide) harray
      · exact fieldsLen_cons_le (by decide)
            (byteLen_nat_le (Nat.lt_of_le_of_lt hattempt (by decide))) <|
          fieldsLen_cons_le (by decide) (byteLen_string_le hclaim.cost_le) <|
          fieldsLen_cons_le (by decide) (byteLen_string_le tip.commit_ok.cost_le) <|
          fieldsLen_cons_le (by decide) (byteLen_string_le hconclusion) <|
          fieldsLen_cons_le (by decide)
            (byteLen_nat_le (outcome.durationMs.toNat_lt.trans (by decide))) <|
          fieldsLen_cons_le (by decide) byteLen_exitCode_le <|
          fieldsLen_cons_le (by decide) (byteLen_string_le isObjectId_sha256Hex.cost_le) <|
          fieldsLen_cons_le (by decide) (byteLen_string_le tailString_cost_le) <|
          Nat.le_refl 0
      · exact fieldsLen_optionalField_le (by decide) (by decide)
      · exact fieldsLen_cons_le (by decide) (byteLen_string_le tip.refName_cost_le) <|
          fieldsLen_cons_le (by decide) (byteLen_string_le task.name_cost_le) <|
          Nat.le_refl 0
    _ ≤ bodyMaxBytes := by decide

/-- A result as it is to be read. -/
def Job.result (job : Job) (oid : String) (ts : ℤ) (sha256 : Digest) (claimOid : String)
    (outcome : ExecOutcome) (artifacts : List CiArtifact) : CiResult :=
  ⟨oid, job.runner.actor, ts, job.task.name, job.tip.refName, job.tip.commit, job.attempt,
    claimOid, outcome.conclusion, outcome.exitCode.map Int64.toInt, some outcome.durationMs.toNat,
    tailString outcome.log logSummaryMax, sha256Hex sha256 outcome.log, outcome.logTruncated,
    artifacts⟩

theorem bodyStr_getD {fs : List (String × Json)} {key s : String} (hv : Valid (.object fs))
    (h : (key, .string s) ∈ fs) : (bodyStr (.object fs) key).getD "" = s := by
  by_cases hs : s = ""
  · rw [bodyStr, Json.get, asStr_of_mem hv h, Option.filter_some, hs]
    rfl
  · rw [bodyStr_of_mem hv h hs, Option.getD_some]

theorem parseArtifacts_of_none {body : Json} (h : body.get "artifacts" = none) :
    parseArtifacts body = some [] := by
  rw [parseArtifacts, h]

theorem parseArtifacts_of_array {body : Json} {items : List Json}
    (h : body.get "artifacts" = some (.array items)) : parseArtifacts body =
      some ((items.take artifactsPerResultMax).filterMap parseArtifact) := by
  rw [parseArtifacts, h]
  rfl

theorem parseArtifacts_resultBody (hfew : as.length ≤ artifactsPerResultMax)
    (has : ∀ a ∈ as, a.Readable) :
    parseArtifacts (resultBody sha256 task tip attempt claimOid outcome (as.map artifactJson)) =
      some (as.map CollectedArtifact.reference) := by
  cases as with
  | nil =>
    have hget : (resultBody sha256 task tip attempt claimOid outcome []).get "artifacts" = none :=
      get_of_not_mem (by cases outcome.logTruncated <;> simp [optionalField])
    exact parseArtifacts_of_none hget
  | cons a as =>
    have hget : (resultBody sha256 task tip attempt claimOid outcome
        ((a :: as).map artifactJson)).get "artifacts" =
          some (.array ((a :: as).map artifactJson)) :=
      get_of_mem resultBody_valid (by simp [optionalField])
    rw [parseArtifacts_of_array hget, List.take_of_length_le (by rwa [List.length_map]),
      filterMap_parseArtifact has]

theorem parse_asStr (c : Conclusion) : Conclusion.parse c.asStr = some c := by
  cases c <;> decide

theorem asStr_ne_empty (c : Conclusion) : c.asStr ≠ "" := by
  cases c <;> decide

theorem parseResult_eq {r : EntryRef} {task repoRef commit claim summary digest : String}
    {attempt : ℕ} {c : Conclusion} {exit : Option ℤ} {duration : Option ℕ} {truncated : Bool}
    {artifacts : List CiArtifact} (hkind : r.entry.kind = "ci_result")
    (hcap : bodyWithinCap r.entry.body = true)
    (hconclusion : bodyStr r.entry.body "conclusion" = some c.asStr)
    (htask : bodyStr r.entry.body "task" = some task)
    (href : bodyStr r.entry.body "ref" = some repoRef)
    (hcommit : bodyStr r.entry.body "commit" = some commit)
    (hattempt : bodyU32 r.entry.body "attempt" 1 attemptMax = some attempt)
    (hclaim : bodyStr r.entry.body "claim" = some claim)
    (hartifacts : parseArtifacts r.entry.body = some artifacts)
    (hexit : (r.entry.body.get "exit_code").bind asI64 = exit)
    (hduration : (r.entry.body.get "duration_ms").bind asU64 = duration)
    (hsummary : (bodyStr r.entry.body "log_summary").getD "" = summary)
    (hdigest : (bodyStr r.entry.body "log_sha256").getD "" = digest)
    (htruncated : ((r.entry.body.get "log_truncated").bind asBool).getD false = truncated) :
    parseResult r = some ⟨r.oid, r.entry.actor, r.entry.ts, task, repoRef, commit, attempt, claim,
      c, exit, duration, summary, digest, truncated, artifacts⟩ := by
  simp only [parseResult, hkind, hcap, hconclusion, htask, href, hcommit, hattempt, hclaim,
    hartifacts, hexit, hduration, hsummary, hdigest, htruncated, ne_eq, not_true_eq_false,
    Bool.true_eq_false, or_self, if_false, Option.bind_some, parse_asStr, Option.bind_eq_bind]

theorem exitCode_resultBody : ((resultBody sha256 task tip attempt claimOid outcome
    (as.map artifactJson)).get "exit_code").bind asI64 = outcome.exitCode.map Int64.toInt := by
  have hget : (resultBody sha256 task tip attempt claimOid outcome
      (as.map artifactJson)).get "exit_code" =
        some ((outcome.exitCode.map fun c => Json.int c.toInt).getD .null) :=
    get_of_mem resultBody_valid (by simp)
  rw [hget, Option.bind_some]
  cases outcome.exitCode with
  | none => rfl
  | some c => exact asI64_toInt c

theorem durationMs_resultBody : ((resultBody sha256 task tip attempt claimOid outcome
    (as.map artifactJson)).get "duration_ms").bind asU64 = some outcome.durationMs.toNat := by
  have hget : (resultBody sha256 task tip attempt claimOid outcome
      (as.map artifactJson)).get "duration_ms" = some (.int outcome.durationMs.toNat) :=
    get_of_mem resultBody_valid (by simp)
  rw [hget, Option.bind_some, asU64_natCast outcome.durationMs.toNat_lt]

theorem logTruncated_resultBody : (((resultBody sha256 task tip attempt claimOid outcome
    (as.map artifactJson)).get "log_truncated").bind asBool).getD false =
      outcome.logTruncated := by
  cases htruncated : outcome.logTruncated with
  | false =>
    have hget : (resultBody sha256 task tip attempt claimOid outcome
        (as.map artifactJson)).get "log_truncated" = none :=
      get_of_not_mem (by rw [htruncated]; unfold optionalField; split_ifs <;> simp_all)
    rw [hget]
    rfl
  | true =>
    have hget : (resultBody sha256 task tip attempt claimOid outcome
        (as.map artifactJson)).get "log_truncated" = some (.bool true) :=
      get_of_mem resultBody_valid (by simp [optionalField, htruncated])
    rw [hget]
    rfl

theorem parseResult_publishResult (hclaim : IsObjectId claimOid)
    (hfew : as.length ≤ artifactsPerResultMax) (has : ∀ a ∈ as, a.Readable) :
    parseResult ⟨oid, principal,
        job.publishResult sha256 ts claimOid outcome (as.map artifactJson)⟩ =
      some (job.result oid ts sha256 claimOid outcome (as.map CollectedArtifact.reference)) := by
  have hattempt := job.attempt_bounds
  have hv := @resultBody_valid sha256 job.task job.tip job.attempt claimOid outcome as
  exact parseResult_eq rfl (resultBody_fits hattempt.2 hclaim hfew has)
    (bodyStr_of_mem hv (by simp) (asStr_ne_empty outcome.conclusion))
    (bodyStr_of_mem hv (by simp) job.task.name_ne) (bodyStr_of_mem hv (by simp) job.tip.refName_ne)
    (bodyStr_of_mem hv (by simp) job.tip.commit_ok.ne_empty)
    (bodyAttempt_of_mem hv (by simp) hattempt) (bodyStr_of_mem hv (by simp) hclaim.ne_empty)
    (parseArtifacts_resultBody hfew has) exitCode_resultBody durationMs_resultBody
    (bodyStr_getD hv (by simp)) (bodyStr_getD hv (by simp)) logTruncated_resultBody

end Results

section Acceptance

variable {job : Job} {o : Occurrence} {claimTs resultTs : ℤ}

/-- The artifacts of a result: none where the upload failed. -/
def Occurrence.artifacts (o : Occurrence) (task : CiResolvedTask) : List CollectedArtifact :=
  if o.pushed then (o.outcome task).artifacts else []

/-- Whatever blob and inbox they are found in, the claim and the result are read as the values they
were published with; both are within the cap, and the summary within its bound. -/
structure Accepted (job : Job) (o : Occurrence) (claimTs resultTs : ℤ) : Prop where
  claim : ∀ oid principal,
    parseClaim ⟨oid, principal, job.publishClaim claimTs⟩ = some (job.claim oid claimTs)
  claim_fits : bodyWithinCap (job.publishClaim claimTs).body = true
  result : ∀ oid principal, parseResult ⟨oid, principal, job.runOnce resultTs o⟩ =
    some (job.result oid resultTs o.sha256 o.claimOid (o.outcome job.task)
      ((o.artifacts job.task).map CollectedArtifact.reference))
  result_fits : bodyWithinCap (job.runOnce resultTs o).body = true
  summary : (tailString (o.outcome job.task).log logSummaryMax).utf8ByteSize ≤ logSummaryMax

theorem Occurrence.log_outcome (o : Occurrence) (task : CiResolvedTask) :
    (o.outcome task).log = o.execution.log := by
  rw [Occurrence.outcome]
  cases o.execution <;> rfl

theorem Occurrence.artifacts_spec (o : Occurrence) (task : CiResolvedTask) :
    (o.artifacts task).length ≤ artifactsPerResultMax ∧ ∀ a ∈ o.artifacts task, a.Readable := by
  have hnone : ([] : List CollectedArtifact).length ≤ artifactsPerResultMax ∧
      ∀ a ∈ ([] : List CollectedArtifact), a.Readable := ⟨Nat.zero_le _, nofun⟩
  have hcollected : (collectArtifacts o.sha256 o.worktree task).length ≤ artifactsPerResultMax ∧
      ∀ a ∈ collectArtifacts o.sha256 o.worktree task, a.Readable :=
    ⟨collectArtifacts_few, readable_collectArtifacts⟩
  rw [Occurrence.artifacts, Occurrence.outcome]
  split_ifs
  · cases o.execution with
    | failed => exact hnone
    | timedOut => exact hcollected
    | exited => exact hcollected
  · exact hnone

theorem runOnce_eq : job.runOnce resultTs o = job.publishResult o.sha256 resultTs o.claimOid
    (o.outcome job.task) ((o.artifacts job.task).map artifactJson) := by
  rw [Job.runOnce, Occurrence.artifacts]
  split_ifs <;> rfl

/-- The bytes of a log's tail, with what each sequence in it that begins no character lacks of
three. -/
def tailWeight (log : List UInt8) : ℕ :=
  (tailBytes log logSummaryMax).length + Utf8.growth (tailBytes log logSummaryMax)

/-- The reader accepts what is written exactly when the duration of the claim, where the command
line gives it, is within the bounds, and the log's tail has room for its replacements. -/
theorem accepted_iff (job : Job) (o : Occurrence) (claimTs resultTs : ℤ) :
    Accepted job o claimTs resultTs ↔
      (∀ secs, job.ttlOverride = some secs →
        claimTtlMin ≤ secs.toNat ∧ secs.toNat ≤ claimTtlMax) ∧
        tailWeight o.execution.log ≤ logSummaryMax := by
  obtain ⟨hfew, hreadable⟩ := o.artifacts_spec job.task
  have hsummary : (tailString (o.outcome job.task).log logSummaryMax).utf8ByteSize =
      tailWeight o.execution.log := by
    rw [utf8ByteSize_tailString, o.log_outcome, tailWeight]
  have hbounds : (claimTtlMin ≤ job.ttl.toNat ∧ job.ttl.toNat ≤ claimTtlMax) ↔
      ∀ secs, job.ttlOverride = some secs →
        claimTtlMin ≤ secs.toNat ∧ secs.toNat ≤ claimTtlMax := by
    rw [Job.ttl, CiResolved.ttl]
    cases job.ttlOverride with
    | none => exact iff_of_true job.cfg.ttl_ok nofun
    | some secs => exact ⟨fun h _ heq => Option.some.inj heq ▸ h, fun h => h secs rfl⟩
  rw [← hbounds]
  constructor
  · intro h
    refine ⟨?_, hsummary ▸ h.summary⟩
    have hclaim := h.claim "" ""
    rw [parseClaim_publishClaim] at hclaim
    by_contra hout
    rw [if_neg hout] at hclaim
    cases hclaim
  · rintro ⟨httl, hlog⟩
    refine ⟨fun oid principal => ?_, claimBody_fits job.attempt_bounds.2, fun oid principal => ?_,
      ?_, hsummary ▸ hlog⟩
    · rw [parseClaim_publishClaim, if_pos httl]
    · rw [runOnce_eq]
      exact parseResult_publishResult o.claimOid.2 hfew hreadable
    · rw [runOnce_eq]
      exact resultBody_fits job.attempt_bounds.2 o.claimOid.2 hfew hreadable

def testTask : CiResolvedTask :=
  ⟨"test", 1, [], by decide, by decide, by decide, nofun⟩

def mainTip : Tip where
  refName := "refs/heads/main"
  commit := "1111111111111111111111111111111111111111"
  format_ok := ⟨by decide, by decide, by decide, List.forall_iff_forall_mem.mp (by decide),
    List.forall_iff_forall_mem.mp (by decide), by decide, by decide, by decide⟩
  packet_ok := by decide
  commit_ok := ⟨.inl (by decide), by decide⟩

def testJob (ttlOverride : Option UInt64) : Job where
  runner := ⟨"ci", fun _ => ""⟩
  id := "run"
  cfg := ⟨300, [testTask], by decide⟩
  ttlOverride := ttlOverride
  task := testTask
  task_mem := List.mem_singleton_self testTask
  tip := mainTip
  attempt := 1
  attempt_ok := by decide

/-- A task that fails and leaves a log. -/
def testRun (log : List UInt8) : Occurrence where
  sha256 := fun _ => ⟨List.replicate 32 0, List.length_replicate⟩
  worktree := ⟨fun _ => none, fun _ => none, fun _ => none⟩
  durationMs := 5
  execution := .exited (some 1) log false
  pushed := true
  claimOid := ⟨"2222222222222222222222222222222222222222", .inl (by decide), by decide⟩

/-- A claim for no time at all, and the log of a task that writes 4096 bytes of `0xFF`. -/
theorem unread_claim_and_long_summary : ¬ Accepted (testJob (some 0)) (testRun []) 0 0 ∧
    ¬ Accepted (testJob none) (testRun (List.replicate 4096 0xFF)) 0 0 := by
  constructor
  · intro h
    have hclaim := h.claim "" ""
    rw [parseClaim_publishClaim, if_neg (by decide)] at hclaim
    cases hclaim
  · intro h
    have hsummary := h.summary
    have htail : tailBytes (testRun (List.replicate 4096 0xFF)).execution.log logSummaryMax =
        List.replicate 4096 0xFF :=
      tailBytes_eq_self List.length_replicate.le fun b hb => by
        obtain rfl := Option.some.inj hb
        decide
    rw [utf8ByteSize_tailString, Occurrence.log_outcome, htail,
      Utf8.growth_replicate (by decide), List.length_replicate] at hsummary
    exact absurd hsummary (by decide)

end Acceptance

end Walgit.Ci
