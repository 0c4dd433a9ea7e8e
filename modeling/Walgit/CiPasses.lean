import Walgit.Ci
import Walgit.DueSlots
import Walgit.Lib.Cutting
import Walgit.Lib.SortedTable

/-!
# The passes of a CI runner

A runner keeps the tips it is done with and, for each scheduled task of a ref, the newest slot it
has accounted for. A pass works every ref whose tip is not recorded, and then the schedules of the
refs that stand still. The state is written at the end of a pass, so a pass that is cut short
leaves the file as it was.
-/

namespace Walgit.CiPasses

open Bundles (Schedule DueSlot dueSlot)
open Ci (Conclusion)

section Code

abbrev Name := List Char

/-- A map of the state file. -/
abbrev Table (V : Type) := List (Name × V)

variable {V : Type}

def Table.get (t : Table V) (k : Name) : Option V := (SortedTable.lookup Prod.fst k t).map Prod.snd

def Table.insert (t : Table V) (k : Name) (v : V) : Table V := SortedTable.put Prod.fst (k, v) t

def Table.retain (t : Table V) (p : Name → Bool) : Table V := t.filter fun x => p x.1

def Table.remove (t : Table V) (k : Name) : Table V := t.retain (· ≠ k)

def Table.keys (t : Table V) : List Name := t.map Prod.fst

/-- The separator `\u{1f}` of the keys. -/
def sep : Char := Char.ofNat 0x1f

def scheduleKey (refName task : Name) : Name := refName ++ sep :: task

def schedulePrefix (refName : Name) : Name := refName ++ [sep]

def hasPrefix (refName key : Name) : Bool := (schedulePrefix refName).isPrefixOf key

/-- `split_once('\u{1f}')`. -/
def splitOnce (key : Name) : Option (Name × Name) := Cutting.cut sep [] key

structure CiResolvedTask where
  name : Name
  refs : List Name
  schedule : Option Name

structure CiResolved where
  claimTtlSecs : ℕ
  tasks : List CiResolvedTask

/-- What `.walgit/ci.toml` of a commit is. -/
inductive Declared
  | unreadable
  | absent
  | invalid
  | valid (cfg : CiResolved)

inductive TaskOutcome
  | settled (c : Conclusion)
  | deferred

/-- What `run_id` and `scheduled_run_id` are made from. -/
structure RunKey where
  task : Name
  refName : Name
  commit : Name
  slot : Option ℤ

/-- What a pass finds: the remote's tips, git's answers, and how the work on a run ends. Of one
name git gives one answer, as often as the pass asks. -/
structure Surroundings where
  tips : Option (List (Name × Name))
  tips_nodup : ∀ ts, tips = some ts → (ts.map Prod.fst).Nodup
  now : ℤ
  fetchCommit : Name → Option Name
  haveCommit : Name → Option Bool
  readCiToml : Name → Declared
  processTask : CiResolvedTask → ℕ → RunKey → Option TaskOutcome

structure RunnerState where
  processed : Table Name
  cron : Table ℤ
  schedules : Table Name
  scheduleMigration : List Name

/-- The state file; one of an older version has no schedules. -/
structure StateFile where
  processed : Table Name
  cron : Table ℤ
  schedules : Option (Table Name)

def readState : Option StateFile → RunnerState
  | none => ⟨[], [], [], []⟩
  | some f =>
    ⟨f.processed, f.cron, f.schedules.getD [],
      if f.schedules.isSome then [] else (f.cron.keys.filterMap splitOnce).map Prod.fst⟩

def RunnerState.write (st : RunnerState) : StateFile := ⟨st.processed, st.cron, some st.schedules⟩

structure RefOutcome where
  terminal : Bool
  failed : Bool
  schedules : List (Name × Option Name)

variable (glob : Name → Name → Bool) (parseSchedule : Name → Option Schedule)

/-- The runner: its `--task` and its `--claim-ttl`. -/
structure Runner where
  taskFilter : Option Name
  ttlOverride : Option ℕ

def CiResolved.matching (cfg : CiResolved) (refName : Name) : List CiResolvedTask :=
  cfg.tasks.filter fun t => t.refs.any fun p => glob p refName

def TaskOutcome.isSettled : TaskOutcome → Bool
  | .settled _ => true
  | .deferred => false

def TaskOutcome.isFailed : TaskOutcome → Bool
  | .settled c => c != .success
  | .deferred => false

def Runner.processRef (r : Runner) (env : Surroundings) (refName : Name) : Option RefOutcome := do
  let commit ← env.fetchCommit refName
  match env.readCiToml commit with
  | .unreadable => none
  | .absent => some ⟨true, false, []⟩
  | .invalid => some ⟨true, true, []⟩
  | .valid cfg =>
    let tasks := (cfg.matching glob refName).filter fun t => r.taskFilter.all (· = t.name)
    let ends ← tasks.mapM fun t =>
      env.processTask t (r.ttlOverride.getD cfg.claimTtlSecs) ⟨t.name, refName, commit, none⟩
    some ⟨ends.all TaskOutcome.isSettled, ends.any TaskOutcome.isFailed,
      (cfg.matching glob refName).map fun t => (t.name, t.schedule)⟩

def applyScheduleSnapshot (st : RunnerState) (refName : Name)
    (schedules : List (Name × Option Name)) (taskFilter : Option Name) (preserveCron : Bool) :
    RunnerState :=
  match taskFilter with
  | some task =>
    let key := scheduleKey refName task
    let kept := st.schedules.remove key
    { st with
      cron := if preserveCron then st.cron else st.cron.remove key
      schedules := match schedules.find? fun s => s.1 = task with
        | some (_, some expr) => kept.insert key expr
        | _ => kept }
  | none =>
    let kept := st.schedules.retain fun key => !hasPrefix refName key
    { st with
      cron := if preserveCron then st.cron
        else st.cron.retain fun key => !hasPrefix refName key
      schedules := schedules.foldl (fun t s => match s.2 with
        | some expr => t.insert (scheduleKey refName s.1) expr
        | none => t) kept }

/-- What a pass works: the tip of a ref, to the end or not, or one slot of a schedule. -/
inductive Event
  | tip (refName : Name) (terminal : Bool)
  | fire (key : Name) (slot : ℤ) (settled : Bool)
  deriving DecidableEq

/-- A pass under way. -/
structure Under where
  state : RunnerState
  failed : Bool
  dirty : Bool
  events : List Event

/-- A ref that the remote has no more. -/
def RunnerState.forget (st : RunnerState) (refName : Name) : RunnerState :=
  { processed := st.processed.remove refName
    cron := st.cron.retain fun key => !hasPrefix refName key
    schedules := st.schedules.retain fun key => !hasPrefix refName key
    scheduleMigration := st.scheduleMigration.filter (· ≠ refName) }

def RunnerState.stale (st : RunnerState) (tips : List (Name × Name)) : List Name :=
  (st.processed.keys ++ (st.schedules.keys.filterMap splitOnce).map Prod.fst).filter
    fun name => name ∉ tips.map Prod.fst

/-- What a pass takes over from the work on a tip. -/
def Under.accept (u : Under) (r : Runner) (t : Name × Name) (outcome : RefOutcome) : Under :=
  let migrating := decide (t.1 ∈ u.state.scheduleMigration)
  let st := applyScheduleSnapshot u.state t.1 outcome.schedules r.taskFilter
    (migrating && decide (u.state.processed.get t.1 = some t.2))
  { state := { st with
      processed := if outcome.terminal then st.processed.insert t.1 t.2 else st.processed
      scheduleMigration := st.scheduleMigration.filter (· ≠ t.1) }
    failed := u.failed || outcome.failed
    dirty := u.dirty || migrating || outcome.terminal
    events := u.events ++ [.tip t.1 outcome.terminal] }

def Runner.tipStep (r : Runner) (env : Surroundings) (u : Under) (t : Name × Name) : Under :=
  if u.state.processed.get t.1 = some t.2 ∧ t.1 ∉ u.state.scheduleMigration then u
  else
    match r.processRef glob env t.1 with
    | none => { u with failed := true, events := u.events ++ [.tip t.1 false] }
    | some outcome => u.accept r t outcome

def RunnerState.unschedule (st : RunnerState) (key : Name) : RunnerState :=
  { st with cron := st.cron.remove key, schedules := st.schedules.remove key }

/-- The run of a slot that is due: the state then, whether it was swept, and how the work on the
run ended if it was called. -/
def Runner.fireSlot (r : Runner) (env : Surroundings) (refName tip task expr key : Name)
    (slot : ℤ) (st : RunnerState) : RunnerState × Option Bool × Option (Option TaskOutcome) :=
  match env.haveCommit tip, env.fetchCommit refName with
  | none, _ | some false, none => (st, none, none)
  | _, _ =>
    match env.readCiToml tip with
    | .unreadable => (st, none, none)
    | .absent | .invalid => (st.unschedule key, some true, none)
    | .valid cfg =>
      match (cfg.matching glob refName).find? fun t => t.name = task ∧ t.schedule = some expr with
      | none => (st.unschedule key, some true, none)
      | some t =>
        match env.processTask t (r.ttlOverride.getD cfg.claimTtlSecs)
          ⟨task, refName, tip, some slot⟩ with
        | none => (st, none, some none)
        | some (.settled c) =>
          ({ st with cron := st.cron.insert key slot }, some true, some (some (.settled c)))
        | some .deferred => (st, some false, some (some .deferred))

def Under.fired (u : Under) (key : Name) (slot : ℤ)
    (f : RunnerState × Option Bool × Option (Option TaskOutcome)) : Under where
  state := f.1
  failed := u.failed || f.2.1.isNone || f.2.2.join.any TaskOutcome.isFailed
  dirty := u.dirty || f.2.1.getD false
  events := u.events ++ f.2.2.toList.map fun o => .fire key slot (o.any TaskOutcome.isSettled)

/-- `cron_sweep_one`, with what its caller does with the answer. -/
def Runner.sweepOne (r : Runner) (env : Surroundings) (refName tip task expr key : Name)
    (u : Under) : Under :=
  match u.state.cron.get key with
  | none =>
    { u with state := { u.state with cron := u.state.cron.insert key env.now }, dirty := true }
  | some last =>
    match parseSchedule expr with
    | none => { u with state := u.state.unschedule key, dirty := true }
    | some schedule =>
      match dueSlot schedule last env.now with
      | .notDue => u
      | .skip slot =>
        { u with state := { u.state with cron := u.state.cron.insert key slot }, dirty := true }
      | .run slot =>
        u.fired key slot (r.fireSlot glob env refName tip task expr key slot u.state)

def Runner.sweepStep (r : Runner) (env : Surroundings) (tips : List (Name × Name)) (u : Under)
    (key : Name) : Under :=
  match splitOnce key with
  | none => u
  | some (refName, task) =>
    if r.taskFilter.any (· ≠ task) then u
    else match tips.find? fun t => t.1 = refName with
      | none => u
      | some (_, tip) =>
        if u.state.processed.get refName ≠ some tip then u
        else match u.state.schedules.get key with
          | none => u
          | some expr =>
            r.sweepOne glob parseSchedule env refName tip task expr (scheduleKey refName task) u

/-- `run_pass`, up to the write of the state. -/
def Runner.runPass (r : Runner) (env : Surroundings) (st : RunnerState) : Option Under :=
  env.tips.map fun tips =>
    let stale := st.stale tips
    let u : Under := ⟨stale.foldl RunnerState.forget st, false, !stale.isEmpty, []⟩
    let u := tips.foldl (r.tipStep glob env) u
    (u.state.schedules.keys.mergeSort (· ≤ ·)).foldl
      (r.sweepStep glob parseSchedule env tips) u

/-- A pass and what becomes of its state: it is saved, or the process ends first. -/
structure PassRun where
  runner : Runner
  env : Surroundings
  saved : Bool

def PassRun.events (p : PassRun) (file : Option StateFile) : List Event :=
  ((p.runner.runPass glob parseSchedule p.env (readState file)).map Under.events).getD []

def PassRun.after (p : PassRun) (file : Option StateFile) : Option StateFile :=
  match p.runner.runPass glob parseSchedule p.env (readState file) with
  | none => file
  | some u => if p.saved ∧ u.dirty then some u.state.write else file

def history (file : Option StateFile) : List PassRun → List (PassRun × List Event)
  | [] => []
  | p :: ps =>
    (p, p.events glob parseSchedule file) :: history (p.after glob parseSchedule file) ps

def fileAfter (file : Option StateFile) (ps : List PassRun) : Option StateFile :=
  ps.foldl (fun f p => p.after glob parseSchedule f) file

end Code

section Tables

variable {V : Type} {t : Table V} {j k : Name} {v : V} {p : Name → Bool}

@[simp] theorem get_insert : (t.insert k v).get j = if k = j then some v else t.get j := by
  unfold Table.get Table.insert
  rw [SortedTable.lookup_put]
  split_ifs <;> rfl

@[simp] theorem get_retain : (t.retain p).get j = if p j then t.get j else none := by
  unfold Table.get Table.retain
  induction t with
  | nil => simp
  | cons x xs ih =>
    rw [List.filter_cons, SortedTable.lookup_cons]
    by_cases hx : x.1 = j
    · subst hx
      by_cases hp : p x.1 = true
      · simp [hp, SortedTable.lookup_cons]
      · rw [if_neg hp, ih]
        simp [hp]
    · by_cases hp : p x.1 = true
      · rw [if_pos hp, SortedTable.lookup_cons, if_neg hx, if_neg hx, ih]
      · rw [if_neg hp, if_neg hx, ih]

@[simp] theorem get_remove : (t.remove k).get j = if j = k then none else t.get j := by
  unfold Table.remove
  rw [get_retain]
  by_cases h : j = k <;> simp [h]

theorem get_of_retain (h : (t.retain p).get j = some v) : t.get j = some v := by
  rw [get_retain] at h
  split_ifs at h
  exact h

end Tables

section Slots

variable {glob : Name → Name → Bool} {parseSchedule : Name → Option Schedule} {r : Runner}
  {env : Surroundings} {st : RunnerState} {u : Under} {c c' c'' : Table ℤ} {now slot : ℤ}
  {k key refName task tip expr : Name} {tips : List (Name × Name)}

/-- Where a cursor stands later, it is not before where it stood, or not before the pass. -/
def Advances (now : ℤ) (c c' : Table ℤ) : Prop :=
  ∀ k s, c'.get k = some s → now ≤ s ∨ ∃ s₀, c.get k = some s₀ ∧ s₀ ≤ s

theorem Advances.refl : Advances now c c := fun _ s h => .inr ⟨s, h, le_rfl⟩

theorem Advances.trans (h : Advances now c c') (h' : Advances now c' c'') : Advances now c c'' := by
  intro k s hs
  rcases h' k s hs with hnow | ⟨s₁, hs₁, hle⟩
  · exact .inl hnow
  · exact (h k s₁ hs₁).imp (·.trans hle) fun ⟨s₀, hs₀, h₀⟩ => ⟨s₀, hs₀, h₀.trans hle⟩

theorem advances_retain {p : Name → Bool} : Advances now c (c.retain p) :=
  fun _ s h => .inr ⟨s, get_of_retain h, le_rfl⟩

theorem advances_remove : Advances now c (c.remove k) := advances_retain

theorem advances_now : Advances now c (c.insert k now) := by
  intro j s hs
  rw [get_insert] at hs
  split_ifs at hs with hj
  · exact .inl (Option.some.inj hs).le
  · exact Advances.refl j s hs

theorem advances_slot {last : ℤ} (hl : c.get k = some last) (hlt : last < slot) :
    Advances now c (c.insert k slot) := by
  intro j s hs
  rw [get_insert] at hs
  split_ifs at hs with hj
  · obtain rfl := Option.some.inj hs
    exact .inr ⟨last, hj ▸ hl, hlt.le⟩
  · exact Advances.refl j s hs

theorem advances_snapshot {schedules : List (Name × Option Name)} {filter : Option Name}
    {preserve : Bool} :
    Advances now st.cron (applyScheduleSnapshot st refName schedules filter preserve).cron := by
  unfold applyScheduleSnapshot
  cases filter with
  | some task =>
    cases preserve with
    | true => exact Advances.refl
    | false => exact advances_remove
  | none =>
    cases preserve with
    | true => exact Advances.refl
    | false => exact advances_retain (p := fun key => !hasPrefix refName key)

theorem advances_forget (names : List Name) :
    Advances now st.cron (names.foldl RunnerState.forget st).cron := by
  induction names generalizing st with
  | nil => exact Advances.refl
  | cons n names ih =>
    have hn : Advances now st.cron (st.forget n).cron :=
      advances_retain (p := fun key => !hasPrefix n key)
    exact hn.trans ih

variable (glob r env u) in
theorem tipStep_cases (t : Name × Name) : r.tipStep glob env u t = u ∨
    r.tipStep glob env u t = { u with failed := true, events := u.events ++ [.tip t.1 false] } ∨
    ∃ outcome, r.tipStep glob env u t = u.accept r t outcome := by
  unfold Runner.tipStep
  split_ifs
  · exact .inl rfl
  · cases r.processRef glob env t.1 with
    | none => exact .inr (.inl rfl)
    | some outcome => exact .inr (.inr ⟨outcome, rfl⟩)

variable (glob r env u now) in
theorem tipStep_spec (t : Name × Name) :
    Advances now u.state.cron (r.tipStep glob env u t).state.cron ∧
      (u.dirty → (r.tipStep glob env u t).dirty) ∧
      ((r.tipStep glob env u t).events = u.events ∨
        ∃ terminal, (r.tipStep glob env u t).events = u.events ++ [.tip t.1 terminal]) := by
  obtain h | h | ⟨outcome, h⟩ := tipStep_cases glob r env u t
  · rw [h]
    exact ⟨Advances.refl, id, .inl rfl⟩
  · rw [h]
    exact ⟨Advances.refl, id, .inr ⟨false, rfl⟩⟩
  · rw [h]
    exact ⟨advances_snapshot, fun hd => by simp [Under.accept, hd],
      .inr ⟨outcome.terminal, rfl⟩⟩

variable (glob r env refName tip task expr) in
theorem fireSlot_spec {last : ℤ} (hl : st.cron.get key = some last) (hlt : last < slot) :
    Advances now st.cron (r.fireSlot glob env refName tip task expr key slot st).1.cron ∧
      ((r.fireSlot glob env refName tip task expr key slot st).2.2.any
          (·.any TaskOutcome.isSettled) →
        (r.fireSlot glob env refName tip task expr key slot st).1.cron.get key = some slot ∧
          (r.fireSlot glob env refName tip task expr key slot st).2.1 = some true) := by
  unfold Runner.fireSlot
  split
  · exact ⟨Advances.refl, by simp⟩
  · exact ⟨Advances.refl, by simp⟩
  · split
    · exact ⟨Advances.refl, by simp⟩
    · exact ⟨advances_remove, by simp⟩
    · exact ⟨advances_remove, by simp⟩
    · split
      · exact ⟨advances_remove, by simp⟩
      · split
        · exact ⟨Advances.refl, by simp⟩
        · exact ⟨advances_slot hl hlt, by simp⟩
        · exact ⟨Advances.refl, by simp [TaskOutcome.isSettled]⟩

theorem dueSlot_past {schedule : Schedule} {last : ℤ}
    (h : (dueSlot schedule last now).slot? = some slot) : last < slot ∧ slot ≤ now := by
  obtain ⟨hlt, hle, -⟩ := Bundles.mem_dueFires.mp (Bundles.dueSlot_slot h)
  omega

/-- What a step of the sweep does to the cursors, and the slot that it may fire. -/
structure Swept (now : ℤ) (u u' : Under) : Prop where
  cron : Advances now u.state.cron u'.state.cron
  dirty : u.dirty → u'.dirty
  events : u'.events = u.events ∨ ∃ k last slot, ∃ settled : Bool,
    u.state.cron.get k = some last ∧ last < slot ∧ slot ≤ now ∧
    u'.events = u.events ++ [.fire k slot settled] ∧
    (settled → u'.state.cron.get k = some slot ∧ u'.dirty)

theorem Swept.refl : Swept now u u := ⟨Advances.refl, id, .inl rfl⟩

theorem swept_sweepOne :
    Swept env.now u (r.sweepOne glob parseSchedule env refName tip task expr key u) := by
  unfold Runner.sweepOne
  cases hlast : u.state.cron.get key with
  | none => exact ⟨advances_now, fun _ => rfl, .inl rfl⟩
  | some last =>
    cases parseSchedule expr with
    | none => exact ⟨advances_remove, fun _ => rfl, .inl rfl⟩
    | some schedule =>
      cases hdue : dueSlot schedule last env.now with
      | notDue =>
        simp only [hdue]
        exact Swept.refl
      | skip slot =>
        have hslot : (dueSlot schedule last env.now).slot? = some slot := by rw [hdue]; rfl
        simp only [hdue]
        exact ⟨advances_slot hlast (dueSlot_past hslot).1, fun _ => rfl, .inl rfl⟩
      | run slot =>
        have hslot : (dueSlot schedule last env.now).slot? = some slot := by rw [hdue]; rfl
        obtain ⟨hlt, hle⟩ := dueSlot_past hslot
        obtain ⟨hadv, hset⟩ := fireSlot_spec glob r env refName task tip expr hlast hlt
        simp only [hdue]
        refine ⟨hadv, fun hd => by simp [Under.fired, hd], ?_⟩
        cases hcalled : (r.fireSlot glob env refName tip task expr key slot u.state).2.2 with
        | none => exact .inl (by simp [Under.fired, hcalled])
        | some o =>
          rw [hcalled] at hset
          exact .inr ⟨key, last, slot, o.any TaskOutcome.isSettled, hlast, hlt, hle,
            by simp [Under.fired, hcalled],
            fun h => ⟨(hset h).1, by simp [Under.fired, (hset h).2]⟩⟩

variable (glob parseSchedule r env u key tips) in
theorem sweepStep_cases : r.sweepStep glob parseSchedule env tips u key = u ∨
    ∃ refName tip task expr k, r.sweepStep glob parseSchedule env tips u key =
      r.sweepOne glob parseSchedule env refName tip task expr k u := by
  unfold Runner.sweepStep
  cases splitOnce key with
  | none => exact .inl rfl
  | some parts =>
    simp only
    split_ifs
    · exact .inl rfl
    · cases tips.find? fun t => t.1 = parts.1 with
      | none => exact .inl rfl
      | some t =>
        simp only
        split_ifs
        · exact .inl rfl
        · cases u.state.schedules.get key with
          | none => exact .inl rfl
          | some expr => exact .inr ⟨_, _, _, _, _, rfl⟩

variable (glob parseSchedule r env u key tips) in
theorem swept_sweepStep : Swept env.now u (r.sweepStep glob parseSchedule env tips u key) := by
  obtain h | ⟨refName, tip, task, expr, k, h⟩ :=
    sweepStep_cases glob parseSchedule r env u key tips
  · rw [h]
    exact Swept.refl
  · rw [h]
    exact swept_sweepOne

/-- A slot that settled is behind every later slot of its task. -/
def Event.Before : Event → Event → Prop
  | .fire k s true, .fire k' s' _ => k = k' → s < s'
  | _, _ => True

/-- What a pass has fired, against the cursors it began with and those it has now. -/
structure Fires (now : ℤ) (c₀ : Table ℤ) (u : Under) : Prop where
  cron : Advances now c₀ u.state.cron
  fresh : ∀ k s b, .fire k s b ∈ u.events → s ≤ now ∧ ∃ last, c₀.get k = some last ∧ last < s
  settled : ∀ k s, .fire k s true ∈ u.events → ∀ c, u.state.cron.get k = some c → s ≤ c
  dirty : ∀ k s, .fire k s true ∈ u.events → u.dirty
  ordered : u.events.Pairwise Event.Before

theorem Fires.advance {u' : Under} {e : List Event} (h : Fires now c u)
    (hc : Advances now u.state.cron u'.state.cron) (hd : u.dirty → u'.dirty)
    (he : u'.events = u.events ++ e)
    (hfresh : ∀ k s b, .fire k s b ∈ e →
      s ≤ now ∧ ∃ last, u.state.cron.get k = some last ∧ last < s)
    (hset : ∀ k s, .fire k s true ∈ e → (∀ c, u'.state.cron.get k = some c → s ≤ c) ∧ u'.dirty)
    (hord : e.Pairwise Event.Before) : Fires now c u' where
  cron := h.cron.trans hc
  fresh k s b hm := by
    rw [he, List.mem_append] at hm
    rcases hm with hm | hm
    · exact h.fresh k s b hm
    · obtain ⟨hle, last, hlast, hlt⟩ := hfresh k s b hm
      refine ⟨hle, ?_⟩
      rcases h.cron k last hlast with hnow | ⟨s₀, hs₀, h₀⟩
      · omega
      · exact ⟨s₀, hs₀, h₀.trans_lt hlt⟩
  settled k s hm c' hc' := by
    rw [he, List.mem_append] at hm
    rcases hm with hm | hm
    · rcases hc k c' hc' with hnow | ⟨s₀, hs₀, h₀⟩
      · exact (h.fresh k s true hm).1.trans hnow
      · exact (h.settled k s hm s₀ hs₀).trans h₀
    · exact (hset k s hm).1 c' hc'
  dirty k s hm := by
    rw [he, List.mem_append] at hm
    exact hm.elim (fun hm => hd (h.dirty k s hm)) fun hm => (hset k s hm).2
  ordered := by
    rw [he, List.pairwise_append]
    refine ⟨h.ordered, hord, fun a ha b hb => ?_⟩
    cases a with
    | tip => trivial
    | fire k s settled =>
      cases settled with
      | false => trivial
      | true =>
        cases b with
        | tip => trivial
        | fire k' s' b' =>
          intro hk
          subst hk
          obtain ⟨-, last, hlast, hlt⟩ := hfresh k s' b' hb
          exact (h.settled k s ha last hlast).trans_lt hlt

theorem fires_tips (h : Fires now c u) : Fires now c (tips.foldl (r.tipStep glob env) u) := by
  induction tips generalizing u with
  | nil => exact h
  | cons t ts ih =>
    apply ih
    obtain ⟨hc, hd, he | ⟨terminal, he⟩⟩ := tipStep_spec glob r env u now t
    · exact h.advance (e := []) hc hd (by simp [he]) (by simp) (by simp) .nil
    · exact h.advance hc hd he (by simp) (by simp) (List.pairwise_singleton _ _)

theorem fires_sweeps {keys : List Name} (h : Fires env.now c u) :
    Fires env.now c (keys.foldl (r.sweepStep glob parseSchedule env tips) u) := by
  induction keys generalizing u with
  | nil => exact h
  | cons key keys ih =>
    apply ih
    obtain ⟨hc, hd, he | ⟨k, last, slot, settled, hlast, hlt, hle, he, hset⟩⟩ :=
      swept_sweepStep glob parseSchedule r env u key tips
    · exact h.advance (e := []) hc hd (by simp [he]) (by simp) (by simp) .nil
    · refine h.advance hc hd he (fun k' s b hm => ?_) (fun k' s hm => ?_)
        (List.pairwise_singleton _ _)
      · simp only [List.mem_singleton, Event.fire.injEq] at hm
        obtain ⟨rfl, rfl, -⟩ := hm
        exact ⟨hle, last, hlast, hlt⟩
      · simp only [List.mem_singleton, Event.fire.injEq] at hm
        obtain ⟨rfl, rfl, hs⟩ := hm
        obtain ⟨hcur, hdirty⟩ := hset hs.symm
        refine ⟨fun c' hc' => ?_, hdirty⟩
        rw [hcur] at hc'
        exact (Option.some.inj hc').le

theorem fires_pass (h : r.runPass glob parseSchedule env st = some u) :
    Fires env.now st.cron u := by
  unfold Runner.runPass at h
  obtain ⟨ts, -, rfl⟩ := Option.map_eq_some_iff.mp h
  exact fires_sweeps (fires_tips ⟨advances_forget _, by simp, by simp, by simp, .nil⟩)

variable {file : Option StateFile} {ps : List PassRun}

theorem advances_after (p : PassRun) : Advances p.env.now (readState file).cron
    (readState (p.after glob parseSchedule file)).cron := by
  unfold PassRun.after
  cases h : p.runner.runPass glob parseSchedule p.env (readState file) with
  | none => exact Advances.refl
  | some u =>
    simp only
    split_ifs
    · exact (fires_pass h).cron
    · exact Advances.refl

theorem pass_of_event {p : PassRun} {e : Event} (h : e ∈ p.events glob parseSchedule file) :
    ∃ u, p.runner.runPass glob parseSchedule p.env (readState file) = some u ∧ e ∈ u.events := by
  unfold PassRun.events at h
  cases hu : p.runner.runPass glob parseSchedule p.env (readState file) with
  | none => simp [hu] at h
  | some u => exact ⟨u, rfl, by simpa [hu] using h⟩

/-- Past a slot that the file accounts for, only later slots are fired: the induction is on the
passes, and what it carries is that the cursor is not before the slot, whatever is saved. -/
theorem later_fires {k : Name} {s : ℤ}
    (hfloor : ∀ c, (readState file).cron.get k = some c → s ≤ c)
    (hnow : ∀ p ∈ ps, s ≤ p.env.now) {x : PassRun × List Event}
    (hx : x ∈ history glob parseSchedule file ps) {s' : ℤ} {b : Bool} (he : .fire k s' b ∈ x.2) :
    s < s' := by
  induction ps generalizing file with
  | nil => simp [history] at hx
  | cons p ps ih =>
    rw [history] at hx
    rcases List.mem_cons.mp hx with rfl | hx
    · obtain ⟨u, hu, hm⟩ := pass_of_event he
      obtain ⟨-, last, hlast, hlt⟩ := (fires_pass hu).fresh k s' b hm
      exact (hfloor last hlast).trans_lt hlt
    · refine ih (fun c hc => ?_) (fun q hq => hnow q (List.mem_cons_of_mem _ hq)) hx
      rcases advances_after p k c hc with h | ⟨s₀, hs₀, h₀⟩
      · exact (hnow p List.mem_cons_self).trans h
      · exact (hfloor s₀ hs₀).trans h₀

theorem saved_after {p : PassRun} (hp : p.saved)
    (hu : p.runner.runPass glob parseSchedule p.env (readState file) = some u) (hd : u.dirty) :
    p.after glob parseSchedule file = some u.state.write := by
  simp [PassRun.after, hu, hp, hd]

/-- With a clock that does not go back: a pass fires no slot of a task at or before one that it
settled, and once a pass with a settled slot is saved no later pass does. -/
theorem slots_settle_once (file : Option StateFile) (ps : List PassRun)
    (hnow : (ps.map fun p => p.env.now).Pairwise (· ≤ ·)) :
    (∀ x ∈ history glob parseSchedule file ps, x.2.Pairwise Event.Before) ∧
      (history glob parseSchedule file ps).Pairwise fun a b =>
        a.1.saved → ∀ e ∈ a.2, ∀ e' ∈ b.2, e.Before e' := by
  induction ps generalizing file with
  | nil => simp [history]
  | cons p ps ih =>
    rw [List.map_cons, List.pairwise_cons] at hnow
    obtain ⟨hord, hpair⟩ := ih (p.after glob parseSchedule file) hnow.2
    rw [history, List.forall_mem_cons, List.pairwise_cons]
    refine ⟨⟨?_, hord⟩, fun x hx hsaved e he e' he' => ?_, hpair⟩
    · unfold PassRun.events
      cases hu : p.runner.runPass glob parseSchedule p.env (readState file) with
      | none => exact .nil
      | some u => exact (fires_pass hu).ordered
    · cases e with
      | tip => trivial
      | fire k s settled =>
        cases settled with
        | false => trivial
        | true =>
          cases e' with
          | tip => trivial
          | fire k' s' b =>
            intro hk
            subst hk
            obtain ⟨u, hu, hm⟩ := pass_of_event he
            have hf := fires_pass hu
            refine later_fires (fun c hc => ?_) (fun q hq => ?_) hx he'
            · rw [saved_after hsaved hu (hf.dirty k s hm)] at hc
              exact hf.settled k s hm c hc
            · exact (hf.fresh k s true hm).1.trans
                (hnow.1 _ (List.mem_map_of_mem hq))

def tickTask : Name := ['n']

def tickRef : Name := ['m']

def tickSurroundings (now : ℤ) : Surroundings where
  tips := some [(tickRef, ['c'])]
  tips_nodup ts h := by obtain rfl := Option.some.inj h; decide
  now := now
  fetchCommit _ := some ['c']
  haveCommit _ := some true
  readCiToml _ := .valid ⟨900, [⟨tickTask, [tickRef], some ['*']⟩]⟩
  processTask _ _ _ := some (.settled .success)

def tickPass (now : ℤ) : PassRun := ⟨⟨none, none⟩, tickSurroundings now, true⟩

def tickFile : Option StateFile :=
  some ⟨[(tickRef, ['c'])], [(scheduleKey tickRef tickTask, 3)],
    some [(scheduleKey tickRef tickTask, ['*'])]⟩

/-- A task that is due every second settles at the fifth second and, in the next pass, at the
seventh. -/
theorem slots_settle_once_twice :
    (history (· == ·) (fun _ => some Bundles.everySecond) tickFile
        [tickPass 5, tickPass 7]).map Prod.snd =
      [[.fire (scheduleKey tickRef tickTask) 5 true],
        [.fire (scheduleKey tickRef tickTask) 7 true]] ∧
    (∀ x ∈ history (· == ·) (fun _ => some Bundles.everySecond) tickFile
      [tickPass 5, tickPass 7], x.2.Pairwise Event.Before) ∧
    (history (· == ·) (fun _ => some Bundles.everySecond) tickFile
      [tickPass 5, tickPass 7]).Pairwise fun a b =>
        a.1.saved → ∀ e ∈ a.2, ∀ e' ∈ b.2, e.Before e' := by
  refine ⟨?_, slots_settle_once tickFile [tickPass 5, tickPass 7] (by decide)⟩
  decide +kernel

end Slots

end Walgit.CiPasses
