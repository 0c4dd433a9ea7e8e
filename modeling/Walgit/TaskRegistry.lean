import Walgit.Attach

/-!
# The registry of running tasks

A task holds the lock of its repository and kind from the first section of
`begin` to the second of `finish`. Each section of these calls is a step here,
as is a packet that is noted in a record, and the steps of all calls come in any
order. A second start joins the task that holds the lock, and whoever waits for
the signal of a task finds its outcome.
-/

namespace Walgit.TaskRegistry

open Walgit.Tasks (Progress)

variable {V : Type}

structure TaskRecord where
  id : ℕ
  kind : String
  repo : String
  params : List (String × String)
  started : String
  finished : Option String
  elapsedMs : ℕ
  ok : Option Bool
  summary : String
  progress : Option (Progress Unit)
  logTail : List String
  deriving DecidableEq, Repr

/-- The section of `publish` in which a packet is noted in the record. -/
def TaskRecord.note (r : TaskRecord) (p : Progress Unit) (elapsed : ℕ) : TaskRecord :=
  let noted := Walgit.Tasks.Record.note ⟨r.logTail, r.progress⟩ p
  { r with progress := noted.progress, logTail := noted.logTail, elapsedMs := elapsed }

/-- The record without what a packet changes. -/
def TaskRecord.core (r : TaskRecord) : TaskRecord :=
  { r with progress := none, logTail := [], elapsedMs := 0 }

structure TaskOutcome (V : Type) where
  task : TaskRecord
  value : Option V
  deriving DecidableEq, Repr

abbrev Failure := ℕ × String

abbrev Ending (V : Type) := Except Failure (String × Option V)

/-- Where the calls on a task stand: `begin` until the task is listed, the handle, then the sections
of `finish` with what it was called with and its copy of the record. -/
inductive Phase (V : Type)
  | registered
  | indexed
  | live
  | recorded (e : Ending V) (record : TaskRecord)
  | unlocked (e : Ending V) (record : TaskRecord)
  | settled
  | signalled
  | published

def Phase.rank : Phase V → ℕ
  | .registered => 0
  | .indexed => 1
  | .live => 2
  | .recorded .. => 3
  | .unlocked .. => 4
  | .settled => 5
  | .signalled => 6
  | .published => 7

structure TaskState (V : Type) where
  record : TaskRecord
  outcome : Option (Except Failure (TaskOutcome V))
  done : Bool
  phase : Phase V

abbrev LockKey := String × String

def TaskState.key (t : TaskState V) : LockKey := (t.record.repo, t.record.kind)

/-- The registry; the ids are numbers, of which `next` is the first that is unused. `order` has the
tasks of a repository as they were listed, with those that `recent` dropped. -/
structure Tasks (V : Type) where
  states : ℕ → Option (TaskState V)
  next : ℕ
  running : LockKey → Option ℕ
  byId : List ℕ
  recent : String → List ℕ
  order : String → List ℕ
  draining : Bool
  shuttingDown : Bool

section Code

def keepRecords : ℕ := 30

def interrupted : String := "interrupted: instance shut down; will be retried by the next pass"

def dropped : String := "task dropped before completion"

def Tasks.new : Tasks V :=
  ⟨fun _ => none, 0, fun _ => none, [], fun _ => [], fun _ => [], false, false⟩

inductive Begin
  | started (id : ℕ)
  | alreadyRunning (id : ℕ)
  deriving DecidableEq, Repr

def Tasks.set (ts : Tasks V) (id : ℕ) (t : TaskState V) : Tasks V :=
  { ts with states := Function.update ts.states id (some t) }

/-- The first section of `begin`: the lock of the repository and kind. -/
def Tasks.begin (ts : Tasks V) (repo kind : String) (params : List (String × String))
    (now : String) : Begin × Tasks V :=
  match ts.running (repo, kind) with
  | some id => (.alreadyRunning id, ts)
  | none =>
    let record : TaskRecord := ⟨ts.next, kind, repo, params, now, none, 0, none,
      "running", none, []⟩
    (.started ts.next,
      { ts.set ts.next ⟨record, none, false, .registered⟩ with
        next := ts.next + 1
        running := Function.update ts.running (repo, kind) (some ts.next) })

/-- `while q.len() > KEEP_RECORDS`: the oldest records go, and with them their ids. -/
def trim : List ℕ → List ℕ → List ℕ × List ℕ
  | [], byId => ([], byId)
  | old :: q, byId =>
    if keepRecords < (old :: q).length then trim q (byId.filter (· ≠ old)) else (old :: q, byId)

def Tasks.index (ts : Tasks V) (id : ℕ) (t : TaskState V) : Tasks V :=
  { ts.set id { t with phase := .indexed } with byId := id :: ts.byId }

def Tasks.enlist (ts : Tasks V) (id : ℕ) (t : TaskState V) : Tasks V :=
  let repo := t.record.repo
  let r := trim (ts.recent repo ++ [id]) ts.byId
  { ts.set id { t with phase := .live } with
    byId := r.2
    recent := Function.update ts.recent repo r.1
    order := Function.update ts.order repo (ts.order repo ++ [id]) }

/-- The first section of `finish`. -/
def TaskRecord.finish (r : TaskRecord) (e : Ending V) (now : String) (elapsed : ℕ) : TaskRecord :=
  let r := { r with finished := some now, elapsedMs := elapsed }
  match e with
  | .ok (summary, _) => { r with ok := some true, summary := summary }
  | .error (_, message) => { r with ok := some false, summary := message }

def Tasks.record (ts : Tasks V) (id : ℕ) (t : TaskState V) (e : Ending V) (now : String)
    (elapsed : ℕ) : Tasks V :=
  let record := t.record.finish e now elapsed
  ts.set id { t with record := record, phase := .recorded e record }

def Tasks.unlock (ts : Tasks V) (id : ℕ) (t : TaskState V) (e : Ending V) (record : TaskRecord) :
    Tasks V :=
  { ts.set id { t with phase := .unlocked e record } with
    running := Function.update ts.running (record.repo, record.kind) none }

def Tasks.settle (ts : Tasks V) (id : ℕ) (t : TaskState V) (e : Ending V) (record : TaskRecord) :
    Tasks V :=
  ts.set id { t with outcome := some (e.map fun r => ⟨record, r.2⟩), phase := .settled }

def Tasks.signal (ts : Tasks V) (id : ℕ) (t : TaskState V) : Tasks V :=
  ts.set id { t with done := true, phase := .signalled }

def Tasks.publish (ts : Tasks V) (id : ℕ) (t : TaskState V) (p : Progress Unit) (elapsed : ℕ) :
    Tasks V :=
  ts.set id { t with record := t.record.note p elapsed }

/-- `finish` publishes the ended task after its signal. -/
def Tasks.announce (ts : Tasks V) (id : ℕ) (t : TaskState V) (elapsed : ℕ) : Tasks V :=
  ts.publish id { t with phase := .published } (.task ()) elapsed

def Tasks.drains (ts : Tasks V) : Bool := ts.draining || ts.shuttingDown

/-- What a handle that is dropped ends its task with. -/
def Tasks.dropEnding (ts : Tasks V) : Ending V :=
  if ts.drains then .error (503, interrupted) else .error (500, dropped)

def Tasks.get (ts : Tasks V) (id : ℕ) : Option (TaskState V) :=
  if id ∈ ts.byId then ts.states id else none

/-- A section of some call: the next one on the task, the start of a call, or a packet of a
reporter, which may outlive the handle. `elapsed` is what the task's own clock says. -/
inductive Event (V : Type)
  | begin (repo kind : String) (params : List (String × String)) (now : String)
  | next (id : ℕ) (elapsed : ℕ)
  | finish (id : ℕ) (e : Ending V) (now : String) (elapsed : ℕ)
  | drop (id : ℕ) (now : String) (elapsed : ℕ)
  | publish (id : ℕ) (p : Progress Unit) (elapsed : ℕ)
  | beginDrain
  | beginShutdown

def Tasks.advance (ts : Tasks V) (id elapsed : ℕ) (t : TaskState V) : Option (Tasks V) :=
  match t.phase with
  | .registered => some (ts.index id t)
  | .indexed => some (ts.enlist id t)
  | .live => none
  | .recorded e record => some (ts.unlock id t e record)
  | .unlocked e record => some (ts.settle id t e record)
  | .settled => some (ts.signal id t)
  | .signalled => some (ts.announce id t elapsed)
  | .published => none

/-- A handle is there to be finished or dropped once `begin` returned it, and not after. -/
def Tasks.close (ts : Tasks V) (id : ℕ) (e : Ending V) (now : String) (elapsed : ℕ) :
    Option (Tasks V) :=
  match ts.states id with
  | some t =>
    match t.phase with
    | .live => some (ts.record id t e now elapsed)
    | _ => none
  | none => none

def Tasks.step (ts : Tasks V) : Event V → Option (Tasks V)
  | .begin repo kind params now => some (ts.begin repo kind params now).2
  | .next id elapsed => (ts.states id).bind (ts.advance id elapsed)
  | .finish id e now elapsed => ts.close id e now elapsed
  | .drop id now elapsed => ts.close id ts.dropEnding now elapsed
  | .publish id p elapsed => (ts.states id).map fun t => ts.publish id t p elapsed
  | .beginDrain => some { ts with draining := true }
  | .beginShutdown => some { ts with draining := true, shuttingDown := true }

inductive Reach : Tasks V → Prop
  | new : Reach .new
  | step {ts ts' : Tasks V} {e : Event V} (h : Reach ts) (hstep : ts.step e = some ts') : Reach ts'

/-- Everything a step can be. -/
inductive Tasks.Steps (ts : Tasks V) : Tasks V → Prop
  | join : Steps ts ts
  | begin (record : TaskRecord) (hid : record.id = ts.next) (hok : record.ok = none)
      (hfree : ts.running (record.repo, record.kind) = none) : Steps ts
        { ts.set ts.next ⟨record, none, false, .registered⟩ with
          next := ts.next + 1
          running := Function.update ts.running (record.repo, record.kind) (some ts.next) }
  | index (id : ℕ) (t : TaskState V) (ht : ts.states id = some t) (hp : t.phase = .registered) :
      Steps ts (ts.index id t)
  | enlist (id : ℕ) (t : TaskState V) (ht : ts.states id = some t) (hp : t.phase = .indexed) :
      Steps ts (ts.enlist id t)
  | record (id : ℕ) (t : TaskState V) (e : Ending V) (now : String) (elapsed : ℕ)
      (ht : ts.states id = some t) (hp : t.phase = .live) : Steps ts (ts.record id t e now elapsed)
  | unlock (id : ℕ) (t : TaskState V) (e : Ending V) (record : TaskRecord)
      (ht : ts.states id = some t) (hp : t.phase = .recorded e record) :
      Steps ts (ts.unlock id t e record)
  | settle (id : ℕ) (t : TaskState V) (e : Ending V) (record : TaskRecord)
      (ht : ts.states id = some t) (hp : t.phase = .unlocked e record) :
      Steps ts (ts.settle id t e record)
  | signal (id : ℕ) (t : TaskState V) (ht : ts.states id = some t) (hp : t.phase = .settled) :
      Steps ts (ts.signal id t)
  | announce (id : ℕ) (t : TaskState V) (elapsed : ℕ) (ht : ts.states id = some t)
      (hp : t.phase = .signalled) : Steps ts (ts.announce id t elapsed)
  | publish (id : ℕ) (t : TaskState V) (p : Progress Unit) (elapsed : ℕ)
      (ht : ts.states id = some t) : Steps ts (ts.publish id t p elapsed)
  | drain (draining shuttingDown : Bool) :
      Steps ts { ts with draining := draining, shuttingDown := shuttingDown }

end Code

section Invariant

variable {ts ts' : Tasks V} {t t' : TaskState V} {id elapsed : ℕ} {e : Ending V}
  {now repo kind : String} {params : List (String × String)} {q byId : List ℕ}
  {r r' : TaskRecord} {p : Progress Unit}

/-- The record says the same end as `e`. -/
def TaskRecord.Ended {α : Type} (r : TaskRecord) (e : Except Failure α) : Prop :=
  r.ok = some e.isOk ∧ ∀ f, e = .error f → r.summary = f.2

/-- The outcome is what the record says, and has the record but for the packets. -/
def TaskRecord.Tells (r : TaskRecord) (o : Except Failure (TaskOutcome V)) : Prop :=
  r.Ended o ∧ ∀ out, o = .ok out → out.task.core = r.core

/-- What a task says of its end is there from the section that says it, and says one thing. -/
structure TaskState.Sound (t : TaskState V) : Prop where
  ok : t.record.ok.isSome ↔ 3 ≤ t.phase.rank
  ending : ∀ e record, t.phase = .recorded e record ∨ t.phase = .unlocked e record →
    t.record.Ended e ∧ record.core = t.record.core
  outcome : t.outcome.isSome ↔ 5 ≤ t.phase.rank
  agrees : ∀ o, t.outcome = some o → t.record.Tells o
  done : t.done ↔ 6 ≤ t.phase.rank

structure Inv (ts : Tasks V) : Prop where
  fresh : ∀ id, ts.next ≤ id → ts.states id = none
  ids : ∀ id t, ts.states id = some t → t.record.id = id
  running : ∀ key id, ts.running key = some id ↔
    ∃ t, ts.states id = some t ∧ t.key = key ∧ t.phase.rank < 4
  sound : ∀ id t, ts.states id = some t → t.Sound
  byId : ∀ id, id ∈ ts.byId ↔
    ∃ t, ts.states id = some t ∧ (t.phase.rank = 1 ∨ id ∈ ts.recent t.record.repo)
  order : ∀ id repo, id ∈ ts.order repo ↔
    ∃ t, ts.states id = some t ∧ t.record.repo = repo ∧ 2 ≤ t.phase.rank
  nodup : ∀ repo, (ts.order repo).Nodup
  recent : ∀ repo, ts.recent repo = (ts.order repo).rtake keepRecords

theorem inv_new : Inv (Tasks.new : Tasks V) where
  fresh _ _ := rfl
  ids _ _ h := by simp [Tasks.new] at h
  running _ _ := by simp [Tasks.new]
  sound _ _ h := by simp [Tasks.new] at h
  byId _ := by simp [Tasks.new]
  order _ _ := by simp [Tasks.new]
  nodup _ := List.nodup_nil
  recent _ := by simp [Tasks.new]

@[simp] theorem states_set : (ts.set id t).states = Function.update ts.states id (some t) := rfl

theorem trim_fst : (trim q byId).1 = q.rtake keepRecords := by
  induction q generalizing byId with
  | nil => simp [trim]
  | cons old q ih =>
    rw [trim]
    split_ifs with hlt
    · rw [ih, List.rtake, List.rtake, List.length_cons]
      rw [List.length_cons] at hlt
      have hdrop : q.length + 1 - keepRecords = (q.length - keepRecords) + 1 := by omega
      rw [hdrop, List.drop_succ_cons]
    · rw [List.rtake, Nat.sub_eq_zero_of_le (not_lt.mp hlt), List.drop_zero]

/-- What `trim` takes off. -/
def droppedOf (q : List ℕ) : List ℕ := q.take (q.length - keepRecords)

theorem mem_rtake (h : q.Nodup) : id ∈ q.rtake keepRecords ↔ id ∈ q ∧ id ∉ droppedOf q := by
  rw [← List.take_append_drop (q.length - keepRecords) q, List.nodup_append] at h
  constructor
  · intro hmem
    exact ⟨List.mem_of_mem_drop hmem, fun hd => h.2.2 id hd id hmem rfl⟩
  · rintro ⟨hmem, hd⟩
    rw [← List.take_append_drop (q.length - keepRecords) q, List.mem_append] at hmem
    exact hmem.resolve_left hd

theorem mem_trim_snd : id ∈ (trim q byId).2 ↔ id ∈ byId ∧ id ∉ droppedOf q := by
  unfold droppedOf
  induction q generalizing byId with
  | nil => simp [trim]
  | cons old q ih =>
    rw [trim]
    split_ifs with hlt
    · rw [List.length_cons] at hlt ⊢
      have htake : q.length + 1 - keepRecords = (q.length - keepRecords) + 1 := by omega
      rw [ih, htake, List.take_succ_cons, List.mem_filter, List.mem_cons, not_or]
      simp [and_assoc]
    · rw [Nat.sub_eq_zero_of_le (not_lt.mp hlt)]
      simp

theorem rtake_concat {n : ℕ} {l : List ℕ} {x : ℕ} :
    (l.rtake n ++ [x]).rtake n = (l ++ [x]).rtake n := by
  cases n with
  | zero => simp
  | succ n =>
    rw [List.rtake_concat_succ, List.rtake_concat_succ]
    simp [List.rtake_eq_reverse_take_reverse, List.take_take]

theorem steps_close (h : ts.close id e now elapsed = some ts') : ts.Steps ts' := by
  unfold Tasks.close at h
  cases ht : ts.states id with
  | none => simp [ht] at h
  | some t =>
    rw [ht] at h
    cases hp : t.phase with
    | live =>
      simp only [hp, Option.some.injEq] at h
      exact h ▸ .record id t e now elapsed ht hp
    | _ => simp [hp] at h

theorem steps_advance (ht : ts.states id = some t) (h : ts.advance id elapsed t = some ts') :
    ts.Steps ts' := by
  unfold Tasks.advance at h
  cases hp : t.phase <;> simp only [hp, Option.some.injEq, reduceCtorEq] at h <;> subst h
  case registered => exact .index id t ht hp
  case indexed => exact .enlist id t ht hp
  case recorded e record => exact .unlock id t e record ht hp
  case unlocked e record => exact .settle id t e record ht hp
  case settled => exact .signal id t ht hp
  case signalled => exact .announce id t elapsed ht hp

theorem steps_of_step {ev : Event V} (h : ts.step ev = some ts') : ts.Steps ts' := by
  cases ev with
  | begin repo kind params now =>
    simp only [Tasks.step, Option.some.injEq, Tasks.begin] at h
    subst h
    cases hr : ts.running (repo, kind) with
    | some id => exact .join
    | none =>
      exact .begin ⟨ts.next, kind, repo, params, now, none, 0, none, "running", none, []⟩ rfl rfl hr
  | next id elapsed =>
    obtain ⟨t, ht, hadv⟩ := Option.bind_eq_some_iff.mp h
    exact steps_advance ht hadv
  | finish id e now elapsed => exact steps_close h
  | drop id now elapsed => exact steps_close h
  | publish id p elapsed =>
    obtain ⟨t, ht, rfl⟩ := Option.map_eq_some_iff.mp h
    exact .publish id t p elapsed ht
  | beginDrain =>
    simp only [Tasks.step, Option.some.injEq] at h
    exact h ▸ .drain true ts.shuttingDown
  | beginShutdown =>
    simp only [Tasks.step, Option.some.injEq] at h
    exact h ▸ .drain true true

theorem Inv.set (h : Inv ts) (ht : ts.states id = some t) (hid : t'.record.id = t.record.id)
    (hkey : t'.key = t.key) (hsound : t'.Sound) (h4 : t'.phase.rank < 4 ↔ t.phase.rank < 4)
    (h2 : 2 ≤ t'.phase.rank ↔ 2 ≤ t.phase.rank) (h1 : t'.phase.rank = 1 ↔ t.phase.rank = 1) :
    Inv (ts.set id t') := by
  have hrepo : t'.record.repo = t.record.repo := congrArg Prod.fst hkey
  -- the states are the same up to what the invariant reads of them
  have hsame : ∀ (P : TaskState V → Prop), (P t' ↔ P t) → ∀ j,
      (∃ u, (ts.set id t').states j = some u ∧ P u) ↔ ∃ u, ts.states j = some u ∧ P u := by
    intro P hP j
    by_cases hj : j = id
    · subst hj
      simp [ht, hP]
    · simp [hj]
  refine ⟨fun j hj => ?_, fun j u hu => ?_, fun key j => ?_, fun j u hu => ?_, fun j => ?_,
    fun j repo => ?_, h.nodup, h.recent⟩
  · have hne : j ≠ id := by
      rintro rfl
      rw [h.fresh j hj] at ht
      simp at ht
    simpa [hne] using h.fresh j hj
  · by_cases hj : j = id
    · subst hj
      simp only [states_set, Function.update_self, Option.some.injEq] at hu
      rw [← hu, hid]
      exact h.ids j t ht
    · simp only [states_set, Function.update_of_ne hj] at hu
      exact h.ids j u hu
  · exact (h.running key j).trans
      (hsame (fun u => u.key = key ∧ u.phase.rank < 4) (by rw [hkey, h4]) j).symm
  · by_cases hj : j = id
    · subst hj
      simp only [states_set, Function.update_self, Option.some.injEq] at hu
      exact hu ▸ hsound
    · simp only [states_set, Function.update_of_ne hj] at hu
      exact h.sound j u hu
  · exact (h.byId j).trans (hsame (fun u => u.phase.rank = 1 ∨ j ∈ ts.recent u.record.repo)
      (by rw [h1, hrepo]) j).symm
  · exact (h.order j repo).trans (hsame (fun u => u.record.repo = repo ∧ 2 ≤ u.phase.rank)
      (by rw [hrepo, h2]) j).symm

@[simp] theorem rank_registered : (Phase.registered : Phase V).rank = 0 := rfl
@[simp] theorem rank_indexed : (Phase.indexed : Phase V).rank = 1 := rfl
@[simp] theorem rank_live : (Phase.live : Phase V).rank = 2 := rfl
@[simp] theorem rank_recorded : (Phase.recorded e r).rank = 3 := rfl
@[simp] theorem rank_unlocked : (Phase.unlocked e r).rank = 4 := rfl
@[simp] theorem rank_settled : (Phase.settled : Phase V).rank = 5 := rfl
@[simp] theorem rank_signalled : (Phase.signalled : Phase V).rank = 6 := rfl
@[simp] theorem rank_published : (Phase.published : Phase V).rank = 7 := rfl

@[simp] theorem core_note : (r.note p elapsed).core = r.core := rfl

theorem TaskRecord.Ended.congr {α : Type} {o : Except Failure α} (h : r.Ended o)
    (hcore : r.core = r'.core) : r'.Ended o := by
  have hok : r.core.ok = r'.core.ok := congrArg TaskRecord.ok hcore
  have hsummary : r.core.summary = r'.core.summary := congrArg TaskRecord.summary hcore
  exact ⟨hok ▸ h.1, fun f hf => hsummary ▸ h.2 f hf⟩

theorem TaskRecord.Tells.congr {o : Except Failure (TaskOutcome V)} (h : r.Tells o)
    (hcore : r.core = r'.core) : r'.Tells o :=
  ⟨h.1.congr hcore, fun out hout => (h.2 out hout).trans hcore⟩

theorem ended_finish (r : TaskRecord) (e : Ending V) (now : String) (elapsed : ℕ) :
    (r.finish e now elapsed).Ended e := by
  cases e with
  | ok v => exact ⟨rfl, nofun⟩
  | error f =>
    refine ⟨rfl, fun f' hf => ?_⟩
    rw [Except.error.injEq] at hf
    exact hf ▸ rfl

theorem key_finish (r : TaskRecord) (e : Ending V) (now : String) (elapsed : ℕ) :
    (r.finish e now elapsed).id = r.id ∧ (r.finish e now elapsed).repo = r.repo ∧
      (r.finish e now elapsed).kind = r.kind := by
  cases e <;> exact ⟨rfl, rfl, rfl⟩

theorem Inv.record (h : Inv ts) (ht : ts.states id = some t) (hp : t.phase = .live) :
    Inv (ts.record id t e now elapsed) := by
  have hs := h.sound id t ht
  have hended := ended_finish t.record e now elapsed
  obtain ⟨hid, hrepo, hkind⟩ := key_finish t.record e now elapsed
  have hnone : t.outcome = none := by
    simpa [hp] using hs.outcome
  have hdone : t.done = false := by
    simpa [hp] using hs.done
  refine h.set ht hid ?_ ?_ (by simp [hp]) (by simp [hp]) (by simp [hp])
  · simp [TaskState.key, hrepo, hkind]
  · refine ⟨by simp [hended.1], ?_, by simp [hnone], by simp [hnone], by simp [hdone]⟩
    intro e' record heq
    simp only [Phase.recorded.injEq, reduceCtorEq, or_false] at heq
    obtain ⟨rfl, rfl⟩ := heq
    exact ⟨hended, rfl⟩

theorem Inv.settle {record : TaskRecord} (h : Inv ts) (ht : ts.states id = some t)
    (hp : t.phase = .unlocked e record) : Inv (ts.settle id t e record) := by
  have hs := h.sound id t ht
  obtain ⟨hended, hcore⟩ := hs.ending e record (.inr hp)
  have hdone : t.done = false := by
    simpa [hp] using hs.done
  refine h.set ht rfl rfl ⟨by simp [hended.1], by simp, by simp, ?_, by simp [hdone]⟩ (by simp [hp])
    (by simp [hp]) (by simp [hp])
  intro o ho
  rw [Option.some.injEq] at ho
  subst ho
  cases e with
  | ok v =>
    refine ⟨⟨hended.1, nofun⟩, fun out hout => ?_⟩
    simp only [Except.map, Except.ok.injEq] at hout
    rw [← hout, hcore]
  | error f =>
    refine ⟨⟨hended.1, fun f' hf => hended.2 f' ?_⟩, nofun⟩
    rw [Except.error.inj hf]

theorem Inv.signal (h : Inv ts) (ht : ts.states id = some t) (hp : t.phase = .settled) :
    Inv (ts.signal id t) := by
  have hs := h.sound id t ht
  have hok : t.record.ok.isSome := by
    simpa [hp] using hs.ok
  have hout : t.outcome.isSome := by
    simpa [hp] using hs.outcome
  exact h.set ht rfl rfl ⟨by simp [hok], by simp, by simp [hout], hs.agrees, by simp⟩ (by simp [hp])
    (by simp [hp]) (by simp [hp])

/-- A packet changes nothing that the invariant reads. -/
theorem TaskState.Sound.publish (hs : t.Sound) :
    TaskState.Sound { t with record := t.record.note p elapsed } where
  ok := hs.ok
  ending e record heq :=
    ⟨(hs.ending e record heq).1.congr core_note.symm, (hs.ending e record heq).2⟩
  outcome := hs.outcome
  agrees o ho := (hs.agrees o ho).congr core_note.symm
  done := hs.done

theorem Inv.publish (h : Inv ts) (ht : ts.states id = some t) :
    Inv (ts.publish id t p elapsed) :=
  h.set ht rfl rfl (h.sound id t ht).publish .rfl .rfl .rfl

theorem Inv.announce (h : Inv ts) (ht : ts.states id = some t) (hp : t.phase = .signalled) :
    Inv (ts.announce id t elapsed) := by
  have hs := h.sound id t ht
  have hok : t.record.ok.isSome := by
    simpa [hp] using hs.ok
  have hout : t.outcome.isSome := by
    simpa [hp] using hs.outcome
  have hdone : t.done = true := by
    simpa [hp] using hs.done
  have hsound : TaskState.Sound { t with phase := .published } :=
    ⟨by simp [hok], by simp, by simp [hout], hs.agrees, by simp [hdone]⟩
  exact h.set ht rfl rfl hsound.publish (by simp [hp]) (by simp [hp]) (by simp [hp])

theorem Inv.holder (h : Inv ts) (ht : ts.states id = some t) (hrank : t.phase.rank < 4) :
    ts.running t.key = some id :=
  (h.running _ _).mpr ⟨t, ht, rfl, hrank⟩

theorem Inv.unlock {record : TaskRecord} (h : Inv ts) (ht : ts.states id = some t)
    (hp : t.phase = .recorded e record) : Inv (ts.unlock id t e record) := by
  have hs := h.sound id t ht
  obtain ⟨hended, hcore⟩ := hs.ending e record (.inl hp)
  have hnone : t.outcome = none := by
    simpa [hp] using hs.outcome
  have hdone : t.done = false := by
    simpa [hp] using hs.done
  have hrepo : record.core.repo = t.record.core.repo := congrArg TaskRecord.repo hcore
  have hkind : record.core.kind = t.record.core.kind := congrArg TaskRecord.kind hcore
  have hkey : (record.repo, record.kind) = t.key := Prod.ext hrepo hkind
  have hholder := h.holder ht (by simp [hp])
  have hsound : TaskState.Sound { t with phase := .unlocked e record } := by
    refine ⟨by simp [hended.1], ?_, by simp [hnone], by simp [hnone], by simp [hdone]⟩
    intro e' record' heq
    simp only [Phase.unlocked.injEq, reduceCtorEq, false_or] at heq
    obtain ⟨rfl, rfl⟩ := heq
    exact ⟨hended, hcore⟩
  refine ⟨fun j hj => ?_, fun j u hu => ?_, fun key j => ?_, fun j u hu => ?_, fun j => ?_,
    fun j repo => ?_, h.nodup, h.recent⟩
  all_goals simp only [Tasks.unlock, Tasks.set, Function.update_apply, hkey] at *
  · have := h.fresh j hj
    grind
  · have := h.ids j
    grind
  · have hrun := h.running key j
    have hrun' := h.running key id
    grind [TaskState.key, rank_unlocked, rank_recorded]
  · have := h.sound j u
    grind
  · have := h.byId j
    grind [rank_unlocked, rank_recorded]
  · have := h.order j repo
    grind [rank_unlocked, rank_recorded]

theorem Inv.begin {record : TaskRecord} (h : Inv ts) (hid : record.id = ts.next)
    (hok : record.ok = none) (hfree : ts.running (record.repo, record.kind) = none) : Inv
      { ts.set ts.next ⟨record, none, false, .registered⟩ with
        next := ts.next + 1
        running := Function.update ts.running (record.repo, record.kind) (some ts.next) } := by
  have hnew : ts.states ts.next = none := h.fresh _ (Nat.le_refl _)
  have hsound : TaskState.Sound (⟨record, none, false, .registered⟩ : TaskState V) :=
    ⟨by simp [hok], by simp, by simp, by simp, by simp⟩
  refine ⟨fun j hj => ?_, fun j u hu => ?_, fun key j => ?_, fun j u hu => ?_, fun j => ?_,
    fun j repo => ?_, h.nodup, h.recent⟩
  all_goals simp only [Tasks.set, Function.update_apply] at *
  · have := h.fresh j
    grind
  · have := h.ids j
    grind
  · by_cases hj : j = ts.next
    · have hno : ts.running key ≠ some ts.next := by
        intro hr
        obtain ⟨u, hu, -⟩ := (h.running _ _).mp hr
        simp [hnew] at hu
      subst hj
      by_cases hk : key = (record.repo, record.kind)
      · simp [hk, TaskState.key]
      · simp [hk, TaskState.key, hno, Ne.symm hk]
    · rw [if_neg hj, ← h.running]
      by_cases hk : key = (record.repo, record.kind)
      · simp [hk, hfree, Ne.symm hj]
      · simp [hk]
  · have := h.sound j u
    grind
  · have hby := h.byId j
    have hlisted := h.order j record.repo
    have hrecent := h.recent record.repo
    have hmem : j ∈ ts.recent record.repo → j ∈ ts.order record.repo := by
      rw [hrecent]
      exact List.mem_of_mem_drop
    grind [rank_registered]
  · have := h.order j repo
    grind [rank_registered]

theorem Inv.mem_order (h : Inv ts) {repo : String} (hmem : id ∈ ts.recent repo) :
    id ∈ ts.order repo := by
  rw [h.recent] at hmem
  exact List.mem_of_mem_drop hmem

theorem Inv.index (h : Inv ts) (ht : ts.states id = some t) (hp : t.phase = .registered) :
    Inv (ts.index id t) := by
  have hs := h.sound id t ht
  have hok : t.record.ok = none := by
    simpa [hp] using hs.ok
  have hnone : t.outcome = none := by
    simpa [hp] using hs.outcome
  have hdone : t.done = false := by
    simpa [hp] using hs.done
  have hsound : TaskState.Sound { t with phase := .indexed } :=
    ⟨by simp [hok], by simp, by simp [hnone], by simp [hnone], by simp [hdone]⟩
  refine ⟨fun j hj => ?_, fun j u hu => ?_, fun key j => ?_, fun j u hu => ?_, fun j => ?_,
    fun j repo => ?_, h.nodup, h.recent⟩
  all_goals simp only [Tasks.index, Tasks.set, Function.update_apply] at *
  · have := h.fresh j hj
    grind
  · have := h.ids j
    grind
  · have hrun := h.running key j
    grind [TaskState.key, rank_registered, rank_indexed]
  · have := h.sound j u
    grind
  · have := h.byId j
    grind [rank_registered, rank_indexed]
  · have := h.order j repo
    grind [rank_registered, rank_indexed]

theorem Inv.enlist (h : Inv ts) (ht : ts.states id = some t) (hp : t.phase = .indexed) :
    Inv (ts.enlist id t) := by
  have hs := h.sound id t ht
  have hok : t.record.ok = none := by
    simpa [hp] using hs.ok
  have hnone : t.outcome = none := by
    simpa [hp] using hs.outcome
  have hdone : t.done = false := by
    simpa [hp] using hs.done
  have hsound : TaskState.Sound { t with phase := .live } :=
    ⟨by simp [hok], by simp, by simp [hnone], by simp [hnone], by simp [hdone]⟩
  have hout : id ∉ ts.order t.record.repo := by
    intro hmem
    obtain ⟨u, hu, -, hrank⟩ := (h.order _ _).mp hmem
    rw [ht, Option.some.injEq] at hu
    simp [← hu, hp] at hrank
  have hnodup : (ts.order t.record.repo ++ [id]).Nodup := by
    rw [List.nodup_append]
    refine ⟨h.nodup _, List.nodup_singleton _, fun a ha b hb => ?_⟩
    rw [List.mem_singleton.mp hb]
    rintro rfl
    exact hout ha
  have hrecent : (trim (ts.recent t.record.repo ++ [id]) ts.byId).1 =
      (ts.order t.record.repo ++ [id]).rtake keepRecords := by
    rw [trim_fst, h.recent, rtake_concat]
  refine ⟨fun j hj => ?_, fun j u hu => ?_, fun key j => ?_, fun j u hu => ?_, fun j => ?_,
    fun j repo => ?_, fun repo => ?_, fun repo => ?_⟩
  all_goals simp only [Tasks.enlist, Tasks.set, Function.update_apply] at *
  · have := h.fresh j hj
    grind
  · have := h.ids j
    grind
  · have hrun := h.running key j
    grind [TaskState.key, rank_live, rank_indexed]
  · have := h.sound j u
    grind
  · -- what is dropped is listed, and is not what is only indexed
    have hq : (ts.recent t.record.repo ++ [id]).Nodup := by
      rw [h.recent]
      exact hnodup.sublist ((List.drop_sublist _ _).append_right _)
    have hkept : j ∈ (trim (ts.recent t.record.repo ++ [id]) ts.byId).1 ↔
        j ∈ ts.recent t.record.repo ++ [id] ∧ j ∉ droppedOf (ts.recent t.record.repo ++ [id]) := by
      rw [trim_fst]
      exact mem_rtake hq
    have hdropped : j ∈ droppedOf (ts.recent t.record.repo ++ [id]) → j ≠ id →
        j ∈ ts.order t.record.repo := by
      intro hmem hne
      have hlist := List.mem_of_mem_take hmem
      simp only [List.mem_append, List.mem_singleton, hne, or_false] at hlist
      exact h.mem_order hlist
    have hlisted := h.order j t.record.repo
    have hby := h.byId j
    rw [mem_trim_snd]
    simp only [List.mem_append, List.mem_singleton] at hkept
    clear hrecent hnodup hq hout hsound hs
    generalize (trim (ts.recent t.record.repo ++ [id]) ts.byId).1 = kept at hkept ⊢
    generalize droppedOf (ts.recent t.record.repo ++ [id]) = off at hkept hdropped ⊢
    by_cases hj : j = id
    · subst hj
      grind [rank_live, rank_indexed]
    · rw [if_neg hj, hby]
      constructor
      · rintro ⟨⟨u, hu, hcase⟩, hoff⟩
        grind
      · rintro ⟨u, hu, hcase⟩
        have hcase' : u.phase.rank = 1 ∨ j ∈ ts.recent u.record.repo := by grind
        refine ⟨⟨u, hu, hcase'⟩, fun hmem => ?_⟩
        obtain ⟨u', hu', hrepo, hrank⟩ := hlisted.mp (hdropped hmem hj)
        grind
  · have := h.order j repo
    have hord := h.order j t.record.repo
    grind [rank_live, rank_indexed]
  · have := h.nodup repo
    grind
  · have := h.recent repo
    grind

theorem Inv.steps (h : Inv ts) (hs : ts.Steps ts') : Inv ts' := by
  cases hs with
  | join => exact h
  | begin record hid hok hfree => exact h.begin hid hok hfree
  | index id t ht hp => exact h.index ht hp
  | enlist id t ht hp => exact h.enlist ht hp
  | record id t e now elapsed ht hp => exact h.record ht hp
  | unlock id t e record ht hp => exact h.unlock ht hp
  | settle id t e record ht hp => exact h.settle ht hp
  | signal id t ht hp => exact h.signal ht hp
  | announce id t elapsed ht hp => exact h.announce ht hp
  | publish id t p elapsed ht => exact h.publish ht
  | drain draining shuttingDown =>
    exact ⟨h.fresh, h.ids, h.running, h.sound, h.byId, h.order, h.nodup, h.recent⟩

theorem inv_reach (h : Reach ts) : Inv ts := by
  induction h with
  | new => exact inv_new
  | step h hstep ih => exact ih.steps (steps_of_step hstep)

end Invariant

section Results

variable {ts ts' : Tasks V} {t u : TaskState V} {id : ℕ} {repo kind : String}

def run (ts : Tasks V) (evs : List (Event V)) : Option (Tasks V) := evs.foldlM Tasks.step ts

theorem reach_run (evs : List (Event V)) (h : Reach ts) (hrun : run ts evs = some ts') :
    Reach ts' := by
  induction evs generalizing ts with
  | nil =>
    obtain rfl : ts = ts' := by simpa [run] using hrun
    exact h
  | cons e evs ih =>
    simp only [run, List.foldlM_cons] at hrun
    obtain ⟨mid, hmid, hrest⟩ := Option.bind_eq_some_iff.mp hrun
    exact ih (h.step hmid) hrest

/-- However the sections of all calls come, there is one task at most of a repository and a kind
that is not unlocked, and a start joins exactly when there is one: that one. -/
theorem one_task (h : Reach ts) :
    (∀ i j t u, ts.states i = some t → ts.states j = some u → t.key = u.key →
      t.phase.rank < 4 → u.phase.rank < 4 → i = j) ∧
      ∀ repo kind params now id, (ts.begin repo kind params now).1 = .alreadyRunning id ↔
        ∃ t, ts.states id = some t ∧ t.key = (repo, kind) ∧ t.phase.rank < 4 := by
  have hinv := inv_reach h
  constructor
  · intro i j t u ht hu hkey hi hj
    have hrun := hinv.holder ht hi
    rw [hkey, hinv.holder hu hj, Option.some.injEq] at hrun
    exact hrun.symm
  · intro repo kind params now id
    rw [← hinv.running]
    simp only [Tasks.begin]
    cases ts.running (repo, kind) <;> simp

theorem one_task_second :
    ((run (Tasks.new : Tasks ℕ) [.begin "o/r" "compact" [] "now"]).map fun ts =>
    (ts.begin "o/r" "compact" [] "later").1) = some (.alreadyRunning 0) := by
  have hreach := reach_run [.begin "o/r" "compact" [] "now"] (Reach.new (V := ℕ)) rfl
  exact congrArg some (((one_task hreach).2 _ _ _ _ 0).mpr ⟨_, rfl, rfl, by decide⟩)

/-- A later state of a task that was signalled: only packets were noted. -/
def TaskState.Later (t t' : TaskState V) : Prop :=
  t'.outcome = t.outcome ∧ t'.done = t.done ∧ t'.record.core = t.record.core ∧ 6 ≤ t'.phase.rank

theorem mem_rtake_iff {l : List ℕ} {n : ℕ} :
    id ∈ l.rtake n ↔ ∃ older newer, l = older ++ id :: newer ∧ newer.length < n := by
  constructor
  · intro hmem
    obtain ⟨a, b, hab⟩ := List.append_of_mem hmem
    refine ⟨l.take (l.length - n) ++ a, b, ?_, ?_⟩
    · rw [List.append_assoc, ← hab, List.rtake, List.take_append_drop]
    · have hlen := congrArg List.length hab
      simp only [List.rtake, List.length_drop, List.length_append, List.length_cons] at hlen
      omega
  · rintro ⟨older, newer, rfl, hlt⟩
    rw [List.rtake, List.drop_append_of_le_length, List.mem_append]
    · exact .inr List.mem_cons_self
    · simp only [List.length_append, List.length_cons]
      omega

/-- A task is found by its id from the time it is indexed until thirty tasks of its repository were
listed after it, whether it is still running or not. -/
theorem get_iff (id : ℕ) (h : Reach ts) : ts.get id = some t ↔ ts.states id = some t ∧
    (t.phase.rank = 1 ∨
    ∃ older newer, ts.order t.record.repo = older ++ id :: newer ∧ newer.length < 30) := by
  have hinv := inv_reach h
  have hrecent : id ∈ ts.recent t.record.repo ↔
      ∃ older newer, ts.order t.record.repo = older ++ id :: newer ∧ newer.length < 30 := by
    rw [hinv.recent, mem_rtake_iff]
    rfl
  rw [Tasks.get, ← hrecent]
  constructor
  · intro hget
    split_ifs at hget with hmem
    obtain ⟨u, hu, hcase⟩ := (hinv.byId id).mp hmem
    rw [hu, Option.some.injEq] at hget
    exact ⟨hget ▸ hu, hget ▸ hcase⟩
  · rintro ⟨ht, hcase⟩
    rw [if_pos ((hinv.byId id).mpr ⟨t, ht, hcase⟩), ht]

/-- Thirty-one tasks of a repository that are listed, and one that is not yet. -/
def crowdedRun : List (Event ℕ) :=
  ((List.range 31).flatMap fun i =>
    [.begin "o/r" (String.ofList (List.replicate i 'k')) [] "t", .next i 0, .next i 0]) ++
    [.begin "o/r" "last" [] "t", .next 31 0]

/-- The first of them is not found, though it still runs; the second and the last are. -/
theorem get_iff_crowded : ((run Tasks.new crowdedRun).map fun ts =>
    ((ts.get 0).isSome, (ts.get 1).isSome, (ts.get 31).isSome)) = some (false, true, true) := by
  have hstate : ((run Tasks.new crowdedRun).map fun ts =>
      ([0, 1, 31].map fun id => (ts.states id).map fun t => (t.phase.rank, t.record.repo),
        ts.order "o/r")) =
      some ([some (2, "o/r"), some (2, "o/r"), some (1, "o/r")], List.range 31) := by
    decide +kernel
  obtain ⟨ts, hts, hstate⟩ := Option.map_eq_some_iff.mp hstate
  have hreach := reach_run crowdedRun Reach.new hts
  simp only [List.map_cons, List.map_nil, Prod.mk.injEq, List.cons.injEq, and_true,
    Option.map_eq_some_iff] at hstate
  obtain ⟨⟨⟨t, ht, hrank, hrepo⟩, ⟨u, hu, -, hrepo'⟩, v, hv, hrank', -⟩, horder⟩ := hstate
  have hfirst : ts.get 0 = none := by
    rw [Option.eq_none_iff_forall_ne_some]
    intro t' hget
    obtain ⟨ht', hcase⟩ := (get_iff 0 hreach).mp hget
    obtain rfl : t = t' := Option.some.inj (ht.symm.trans ht')
    rw [hrank, hrepo, horder] at hcase
    obtain hcase | ⟨older, newer, heq, hlt⟩ := hcase
    · omega
    · -- the list has no repetition, so what is before the first is empty
      have hlen := congrArg List.length heq
      have hat := congrArg (·[older.length]?) heq
      simp only [List.length_range, List.length_append, List.length_cons] at hlen
      simp only [List.getElem?_append_right (Nat.le_refl _), Nat.sub_self,
        List.getElem?_cons_zero, List.getElem?_range (show older.length < 31 by omega),
        Option.some.injEq] at hat
      omega
  have hsecond : ts.get 1 = some u :=
    (get_iff 1 hreach).mpr ⟨hu, .inr ⟨[0], (List.range 31).drop 2, by
      rw [hrepo', horder]
      rfl, by simp⟩⟩
  have hlast : ts.get 31 = some v := (get_iff 31 hreach).mpr ⟨hv, .inl hrank'⟩
  rw [hts, Option.map_some, hfirst, hsecond, hlast]
  rfl

end Results

end Walgit.TaskRegistry
