import Walgit.Consumers
import Walgit.Manifests

/-!
# Events replay the refs

A consumer of the events keeps a map of refs and the keys that it has seen. Over
the whole log it ends with the refs of the fold as long as no entry moves one ref
twice and every update without an event names a ref that has the value already.
-/

namespace Walgit

open Interleaving Replay

variable {cfg : Config} {s : Sys} {r : RefState} {log es : List LogEntry} {e : LogEntry}
  {u : RefUpdate} {ev : RefEvent} {evs : List RefEvent}

/-- `(repo, _walgit.seq, ref_name)`, within one repository. -/
def RefEvent.key (ev : RefEvent) : ℕ × String := (ev.seq, ev.name)

def RefEvent.write (ev : RefEvent) : RefKey × Option String :=
  (.ref ev.name, if isNullOid ev.new then none else some ev.new)

/-- A consumer that drops the events whose key it has seen. -/
def replayEvents (r : RefState) : List (ℕ × String) → List RefEvent → RefState
  | _, [] => r
  | seen, ev :: evs =>
    if ev.key ∈ seen then replayEvents r seen evs
    else replayEvents (assign r ev.write.1 ev.write.2) (ev.key :: seen) evs

/-- Keys identify events, and the consumer ends with the refs of the fold. -/
structure EventsReplay (log : List LogEntry) : Prop where
  keys : ((refsFromEntries log).map RefEvent.key).Nodup
  refs : ∀ name, replayEvents RefState.empty [] (refsFromEntries log) (.ref name) =
    replayEntries LogEntry.writes RefState.init log (.ref name)

def LogEntry.EmitsOnce (e : LogEntry) : Prop := ((entryEvents e).map RefEvent.name).Nodup

/-- An update without an event writes the value that its ref has. -/
def IdleUpdates (r : RefState) : List RefUpdate → Prop
  | [] => True
  | u :: us => (u.isSymbolic = false → classify u.oldOid u.newOid = none →
      r (.ref u.name) = u.value) ∧ IdleUpdates (replay r u.writes) us

def IdleEntries (r : RefState) : List LogEntry → Prop
  | [] => True
  | e :: es => IdleUpdates r e.updates ∧ IdleEntries (replay r e.writes) es

section Consumer

theorem replayEvents_nodup {seen : List (ℕ × String)} (hnew : ∀ ev ∈ evs, ev.key ∉ seen)
    (hkeys : (evs.map RefEvent.key).Nodup) :
    replayEvents r seen evs = replay r (evs.map RefEvent.write) := by
  induction evs generalizing r seen with
  | nil => rfl
  | cons ev evs ih =>
    obtain ⟨hnot, hkeys⟩ := List.nodup_cons.mp hkeys
    rw [replayEvents, if_neg (hnew ev List.mem_cons_self), List.map_cons, replay]
    refine ih (fun x hx hmem => ?_) hkeys
    rcases List.mem_cons.mp hmem with heq | hmem
    · exact hnot (heq ▸ List.mem_map_of_mem hx)
    · exact hnew x (List.mem_cons_of_mem ev hx) hmem

theorem refEvent_seq (h : refEvent e u = some ev) : ev.seq = e.seq := by
  unfold refEvent at h
  split at h
  · cases h
  · obtain ⟨a, -, rfl⟩ := Option.map_eq_some_iff.mp h
    cases a <;> rfl

theorem entryEvents_seq (h : ev ∈ entryEvents e) : ev.seq = e.seq := by
  unfold entryEvents at h
  cases htxn : e.refTxn with
  | none => simp [htxn] at h
  | some txn =>
    rw [htxn] at h
    obtain ⟨u, -, hu⟩ := List.mem_filterMap.mp h
    exact refEvent_seq hu

theorem keys_nodup (hord : log.Pairwise fun a b => a.seq < b.seq)
    (honce : ∀ e ∈ log, e.EmitsOnce) : ((refsFromEntries log).map RefEvent.key).Nodup := by
  unfold refsFromEntries
  rw [List.map_flatMap, List.nodup_flatMap]
  refine ⟨fun e he => ?_, hord.imp_of_mem fun {a b} _ _ hlt => ?_⟩
  · have hname : ((entryEvents e).map RefEvent.key).map Prod.snd =
        (entryEvents e).map RefEvent.name := List.map_map ..
    exact List.Nodup.of_map Prod.snd (hname ▸ honce e he)
  · intro k hka hkb
    obtain ⟨eva, ha, rfl⟩ := List.mem_map.mp hka
    obtain ⟨evb, hb, hk⟩ := List.mem_map.mp hkb
    have hseq : evb.seq = eva.seq := congrArg Prod.fst hk
    rw [entryEvents_seq ha, entryEvents_seq hb] at hseq
    exact Nat.ne_of_gt hlt hseq

end Consumer

section Fold

def SameRefs (r r' : RefState) : Prop := ∀ name, r (.ref name) = r' (.ref name)

theorem isNullOid_zeroLike (other : String) : isNullOid (zeroLike other) = true := by
  simp [isNullOid, zeroLike]

theorem refEvent_write (h : refEvent e u = some ev) :
    u.isSymbolic = false ∧ ev.write = (.ref u.name, u.value) := by
  unfold refEvent at h
  split at h
  · cases h
  · rename_i hsym
    obtain ⟨a, ha, rfl⟩ := Option.map_eq_some_iff.mp h
    refine ⟨by simpa using hsym, ?_⟩
    unfold RefEvent.write RefUpdate.value
    cases a with
    | delete =>
      have hnew : isNullOid u.newOid = true := by
        unfold classify at ha
        split at ha <;> simp_all
      simp [isNullOid_zeroLike, hnew]
    | _ => rfl

theorem refEvent_none (h : refEvent e u = none) :
    u.isSymbolic = true ∨ classify u.oldOid u.newOid = none := by
  unfold refEvent at h
  split at h
  · exact .inl ‹_›
  · exact .inr (Option.map_eq_none_iff.mp h)

theorem sameRefs_symbolic (h : u.isSymbolic = true) : SameRefs (replay r u.writes) r := by
  intro name
  refine replay_untouched fun w hw => ?_
  unfold RefUpdate.writes at hw
  rw [if_pos h] at hw
  split at hw
  · rw [List.mem_singleton.mp hw]
    nofun
  · cases hw

theorem sameRefs_writes {r' : RefState} {ws : List (RefKey × Option String)}
    (h : SameRefs r r') : SameRefs (replay r ws) (replay r' ws) :=
  fun name => replay_congr fun _ => h name

theorem SameRefs.trans {r₁ r₂ r₃ : RefState} (h : SameRefs r₁ r₂) (h' : SameRefs r₂ r₃) :
    SameRefs r₁ r₃ :=
  fun name => (h name).trans (h' name)

theorem sameRefs_update {r' : RefState} (h : SameRefs r r')
    (hidle : u.isSymbolic = false → classify u.oldOid u.newOid = none →
      r' (.ref u.name) = u.value) :
    SameRefs (replay r ((refEvent e u).toList.map RefEvent.write)) (replay r' u.writes) := by
  cases hev : refEvent e u with
  | some ev =>
    obtain ⟨hsym, hwrite⟩ := refEvent_write hev
    have hw : u.writes = [ev.write] := by
      rw [hwrite, RefUpdate.writes, if_neg (by simp [hsym])]
    rw [hw]
    exact sameRefs_writes h
  | none =>
    rcases refEvent_none hev with hsym | hnone
    · exact h.trans fun name => (sameRefs_symbolic hsym name).symm
    · by_cases hsym : u.isSymbolic = true
      · exact h.trans fun name => (sameRefs_symbolic hsym name).symm
      · have hvalue := hidle (by simpa using hsym) hnone
        refine h.trans fun name => ?_
        rw [RefUpdate.writes, if_neg hsym, replay, replay, assign]
        split
        · rename_i hname
          rw [hname, hvalue]
        · rfl

theorem sameRefs_updates {r' : RefState} {us : List RefUpdate} (h : SameRefs r r')
    (hidle : IdleUpdates r' us) :
    SameRefs (replay r ((us.filterMap (refEvent e)).map RefEvent.write))
      (replay r' (us.flatMap RefUpdate.writes)) := by
  induction us generalizing r r' with
  | nil => exact h
  | cons u us ih =>
    have hstep := ih (sameRefs_update (e := e) h hidle.1) hidle.2
    rw [List.flatMap_cons, replay_append]
    rw [← replay_append, ← List.map_append] at hstep
    have heq : (u :: us).filterMap (refEvent e) =
        (refEvent e u).toList ++ us.filterMap (refEvent e) := by
      cases hev : refEvent e u <;> simp [hev]
    rwa [heq]

theorem sameRefs_entries {r' : RefState} (h : SameRefs r r') (hidle : IdleEntries r' es) :
    SameRefs (replay r ((refsFromEntries es).map RefEvent.write))
      (replayEntries LogEntry.writes r' es) := by
  induction es generalizing r r' with
  | nil => exact h
  | cons e es ih =>
    have hentry : SameRefs (replay r ((entryEvents e).map RefEvent.write))
        (replay r' e.writes) := by
      have hu := hidle.1
      unfold LogEntry.updates at hu
      unfold entryEvents LogEntry.writes
      cases htxn : e.refTxn with
      | none => exact h
      | some txn =>
        rw [htxn] at hu
        exact sameRefs_updates h hu
    have hstep := ih hentry hidle.2
    rw [← replay_append, ← List.map_append] at hstep
    have hfold : replayEntries LogEntry.writes r' (e :: es) =
        replayEntries LogEntry.writes (replay r' e.writes) es := by
      rw [replayEntries, List.flatMap_cons, replay_append, replayEntries]
    rw [hfold]
    exact hstep

theorem eventsReplay_of_idle (hord : log.Pairwise fun a b => a.seq < b.seq)
    (honce : ∀ e ∈ log, e.EmitsOnce) (hidle : IdleEntries RefState.init log) :
    EventsReplay log := by
  have hkeys := keys_nodup hord honce
  refine ⟨hkeys, fun name => ?_⟩
  rw [replayEvents_nodup (fun _ _ => List.not_mem_nil) hkeys]
  have hstart : SameRefs RefState.empty RefState.init := fun _ => rfl
  exact sameRefs_entries hstart hidle name

theorem idleEntries_append : IdleEntries r (log ++ es) ↔
    IdleEntries r log ∧ IdleEntries (replayEntries LogEntry.writes r log) es := by
  induction log generalizing r with
  | nil => simp [IdleEntries, replayEntries, replay]
  | cons e log ih =>
    simp only [List.cons_append, IdleEntries, ih, and_assoc, replayEntries, List.flatMap_cons,
      replay_append]

end Fold

section Runs

/-- The pair is not torn, no committed entry moves a ref twice, and an update that emits nothing
names a ref that has its value. -/
def EventsOk (o : Op) (ch : Choice) (σ : World) : Prop :=
  Avoids pairHazards o ch σ ∧
    ∀ known base op slot, o = .putManifest known base op (some slot) →
      (∀ e ∈ slot.entries, e.EmitsOnce) ∧
      IdleEntries (replayEntries LogEntry.writes RefState.init σ.log) slot.entries

def Replayable (σ : World) : Prop :=
  (∀ e ∈ σ.log, e.EmitsOnce) ∧ IdleEntries RefState.init σ.log

theorem replayable_step {t : ℕ} {o : Op} {ch : Choice} {σ σ' : World} {a : o.Res}
    (hok : EventsOk o ch σ) (hex : exec t o ch σ = some (a, σ')) (h : Replayable σ) :
    Replayable σ' := by
  have hsame : σ'.commits = σ.commits → Replayable σ' := by
    intro hc
    unfold Replayable World.log
    rw [hc]
    exact h
  cases exec_store hex with
  | same hc => exact hsame hc
  | write seq entries _ _ hσ => exact hsame (hσ ▸ rfl)
  | remove seq hσ => exact hsame (hσ ▸ rfl)
  | commit base op slot ho hσ =>
    subst hσ
    have hlog : (σ.commit t base op slot).log = σ.log ++ slot.elim [] Slot.entries := rfl
    unfold Replayable
    rw [hlog, idleEntries_append]
    cases slot with
    | none =>
      refine ⟨fun e he => h.1 e ?_, h.2, trivial⟩
      simpa using he
    | some slot =>
      obtain ⟨honce, hidle⟩ := hok.2 _ base op slot ho
      refine ⟨fun e he => ?_, h.2, hidle⟩
      rcases List.mem_append.mp he with he | he
      · exact h.1 e he
      · exact honce e he

theorem events_replay_refs (h : RunIf cfg EventsOk s) : EventsReplay s.world.log := by
  have hl : Linked s.world.commits :=
    ((h.reachable fun _ _ _ hok => hok.1).inv .refl).linked
  have hr : Replayable s.world := by
    refine h.keeps (L := pairHazards) (J := Replayable) .refl
      (fun _ _ _ hok => hok.1) ?_ fun t o ch σ a σ' _ _ _ hok hex => replayable_step hok hex
    exact ⟨by simp [log_init], trivial⟩
  exact eventsReplay_of_idle hl.log_pairwise hr.1 hr.2

/-- A test: every update of a put emits, and no name twice. -/
def Op.emitsAll : Op → Bool
  | .putManifest _ _ _ (some slot) => slot.entries.all fun e =>
    decide ((entryEvents e).map RefEvent.name).Nodup &&
      e.updates.all fun u => u.isSymbolic || (classify u.oldOid u.newOid).isSome
  | _ => true

theorem idleEntries_of_emits
    (h : ∀ e ∈ es, ∀ u ∈ e.updates, u.isSymbolic = false → classify u.oldOid u.newOid ≠ none) :
    IdleEntries r es := by
  have hupdates : ∀ (us : List RefUpdate) r,
      (∀ u ∈ us, u.isSymbolic = false → classify u.oldOid u.newOid ≠ none) → IdleUpdates r us := by
    intro us
    induction us with
    | nil => exact fun _ _ => trivial
    | cons u us ih =>
      exact fun r hus => ⟨fun hsym hnone => absurd hnone (hus u List.mem_cons_self hsym),
        ih _ fun v hv => hus v (List.mem_cons_of_mem u hv)⟩
  induction es generalizing r with
  | nil => trivial
  | cons e es ih =>
    exact ⟨hupdates _ _ (h e List.mem_cons_self), ih fun x hx => h x (List.mem_cons_of_mem e hx)⟩

theorem eventsOk_of_test {o : Op} {ch : Choice} {σ : World}
    (h : (o.clean ch σ && o.emitsAll) = true) : EventsOk o ch σ := by
  obtain ⟨hc, ht⟩ := Bool.and_eq_true_iff.mp h
  refine ⟨avoids_of_clean (by decide) hc, ?_⟩
  rintro known base op slot rfl
  have hall := List.all_eq_true.mp ht
  simp only [Bool.and_eq_true, decide_eq_true_eq, List.all_eq_true, Bool.or_eq_true] at hall
  refine ⟨fun e he => (hall e he).1, idleEntries_of_emits fun e he u hu hsym hnone => ?_⟩
  rcases (hall e he).2 u hu with h' | h'
  · rw [hsym] at h'
    cases h'
  · rw [hnone] at h'
    cases h'

theorem events_replay_refs_pushed : ∃ s, RunIf plainConfig EventsOk s ∧
    (refsFromEntries s.world.log).map RefEvent.action = [.create, .delete] ∧
    EventsReplay s.world.log := by
  obtain ⟨s, hr, hs⟩ := exists_runIf (fun o ch σ => o.clean ch σ && o.emitsAll)
    (fun _ _ _ => eventsOk_of_test) plainConfig
    (.spawn (.sync 0) :: steps 0 19 ++ .spawn (push "" oidA) :: steps 1 20 ++
      .spawn (push oidA "") :: steps 2 20)
    (p := fun s => (refsFromEntries s.world.log).map RefEvent.action = [.create, .delete])
    (by decide +kernel)
  exact ⟨s, hr, of_decide_eq_true hs, events_replay_refs hr⟩

/-- One transaction creates a ref twice: the second event is dropped. -/
theorem event_key_repeats : ∃ cfg s, Run cfg s ∧ ¬ EventsReplay s.world.log ∧
    replayEvents RefState.empty [] (refsFromEntries s.world.log) (.ref mainRef) = some oidA ∧
    replayEntries LogEntry.writes RefState.init s.world.log (.ref mainRef) = some oidB := by
  obtain ⟨s, hr, hs⟩ := exists_run plainConfig
    (.spawn (.publish 0 [⟨none, ⟨[⟨mainRef, "", oidA, ""⟩, ⟨mainRef, "", oidB, ""⟩], true⟩, true,
      none⟩]) :: steps 0 16)
    (p := fun s =>
      replayEvents RefState.empty [] (refsFromEntries s.world.log) (.ref mainRef) = some oidA ∧
      replayEntries LogEntry.writes RefState.init s.world.log (.ref mainRef) = some oidB)
    (by decide +kernel)
  obtain ⟨hseen, hfold⟩ := of_decide_eq_true hs
  refine ⟨plainConfig, s, hr, fun hx => ?_, hseen, hfold⟩
  have hrefs := hx.refs mainRef
  rw [hseen, hfold] at hrefs
  exact absurd hrefs (by decide)

end Runs

end Walgit
