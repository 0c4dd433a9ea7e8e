import Walgit.CiPasses

/-!
# The tips a CI runner works

A pass works a tip unless it is recorded, and it records a tip that was worked to the end. So a
tip is worked again by every pass until one has come to the end and is saved, and by none after
that, as long as the ref stays there.
-/

namespace Walgit.CiPasses

open Bundles (Schedule dueSlot)

section Tips

variable {glob : Name → Name → Bool} {parseSchedule : Name → Option Schedule} {r : Runner}
  {env : Surroundings} {st : RunnerState} {u u' u'' : Under} {refName tip : Name}
  {tips : List (Name × Name)} {file : Option StateFile} {ps : List PassRun}

/-- The tip of the ref is recorded, and the ref is not looked at for its schedules. -/
def RunnerState.Done (st : RunnerState) (refName tip : Name) : Prop :=
  st.processed.get refName = some tip ∧ refName ∉ st.scheduleMigration

/-- A tip that was worked to the end is recorded, and the record is to be written. -/
def Under.Worked (u : Under) (refName tip : Name) : Prop :=
  .tip refName true ∈ u.events → u.state.Done refName tip ∧ u.dirty

/-- What a step does about a listed tip: where the tip is recorded nothing, and it is recorded only
by being worked to the end. -/
structure Kept (refName tip : Name) (u u' : Under) : Prop where
  grows : u.events ⊆ u'.events
  done : u.state.Done refName tip → u'.state.Done refName tip
  idle : u.state.Done refName tip → ∀ b, .tip refName b ∈ u'.events → .tip refName b ∈ u.events
  worked : u.Worked refName tip → u'.Worked refName tip
  began : u'.state.Done refName tip → u.state.Done refName tip ∨ ∃ b, .tip refName b ∈ u'.events
  ended : u'.state.processed.get refName = some tip →
    u.state.processed.get refName = some tip ∨ .tip refName true ∈ u'.events

theorem Kept.refl : Kept refName tip u u :=
  ⟨List.Subset.refl _, id, fun _ _ => id, id, .inl, .inl⟩

theorem Kept.trans (h : Kept refName tip u u') (h' : Kept refName tip u' u'') :
    Kept refName tip u u'' where
  grows := List.Subset.trans h.grows h'.grows
  done := h'.done ∘ h.done
  idle hd b hb := h.idle hd b (h'.idle (h.done hd) b hb)
  worked := h'.worked ∘ h.worked
  began hd := by
    rcases h'.began hd with hd' | hb
    · exact (h.began hd').imp_right fun ⟨b, hb⟩ => ⟨b, h'.grows hb⟩
    · exact .inr hb
  ended he := by
    rcases h'.ended he with he' | hb
    · exact (h.ended he').imp_right fun hb => h'.grows hb
    · exact .inr hb

theorem kept_foldl {β : Type} {step : Under → β → Under} {xs : List β}
    (h : ∀ u, ∀ x ∈ xs, Kept refName tip u (step u x)) :
    Kept refName tip u (xs.foldl step u) := by
  induction xs generalizing u with
  | nil => exact Kept.refl
  | cons x xs ih =>
    exact (h u x List.mem_cons_self).trans (ih fun v y hy => h v y (List.mem_cons_of_mem _ hy))

theorem kept_elsewhere {e : List Event}
    (hget : u'.state.processed.get refName = u.state.processed.get refName)
    (hmig : refName ∈ u'.state.scheduleMigration ↔ refName ∈ u.state.scheduleMigration)
    (hdirty : u.dirty → u'.dirty) (hevents : u'.events = u.events ++ e)
    (hnew : ∀ b, .tip refName b ∉ e) : Kept refName tip u u' := by
  have hdone : u'.state.Done refName tip ↔ u.state.Done refName tip := by
    unfold RunnerState.Done
    rw [hget, hmig]
  have hold (b : Bool) : .tip refName b ∈ u'.events → .tip refName b ∈ u.events := by
    rw [hevents, List.mem_append]
    exact fun h => h.resolve_right (hnew b)
  exact ⟨hevents ▸ List.subset_append_left _ _, hdone.mpr, fun _ => hold,
    fun hw hm => ⟨hdone.mpr (hw (hold true hm)).1, hdirty (hw (hold true hm)).2⟩,
    fun h => .inl (hdone.mp h), fun h => .inl (hget ▸ h)⟩

@[simp] theorem snapshot_processed {schedules : List (Name × Option Name)} {filter : Option Name}
    {preserve : Bool} :
    (applyScheduleSnapshot st refName schedules filter preserve).processed = st.processed := by
  cases filter <;> rfl

@[simp] theorem snapshot_scheduleMigration {schedules : List (Name × Option Name)}
    {filter : Option Name} {preserve : Bool} :
    (applyScheduleSnapshot st refName schedules filter preserve).scheduleMigration =
      st.scheduleMigration := by
  cases filter <;> rfl

theorem kept_otherTip {t : Name × Name} (ht : t.1 ≠ refName) :
    Kept refName tip u (r.tipStep glob env u t) := by
  have hsame : (r.tipStep glob env u t).state.processed.get refName =
        u.state.processed.get refName ∧
      (refName ∈ (r.tipStep glob env u t).state.scheduleMigration ↔
        refName ∈ u.state.scheduleMigration) := by
    obtain h | h | ⟨outcome, h⟩ := tipStep_cases glob r env u t
    · rw [h]
      exact ⟨rfl, .rfl⟩
    · rw [h]
      exact ⟨rfl, .rfl⟩
    · rw [h]
      cases hterm : outcome.terminal <;> simp [Under.accept, hterm, ht, ht.symm]
  obtain ⟨-, hdirty, he | ⟨terminal, he⟩⟩ := tipStep_spec glob r env u env.now t
  · exact kept_elsewhere (e := []) hsame.1 hsame.2 hdirty (by simp [he]) (by simp)
  · exact kept_elsewhere hsame.1 hsame.2 hdirty he (by simp [ht.symm])

variable (glob r env u refName tip) in
/-- The step of the ref itself: it does something only where the tip is not recorded. -/
theorem kept_ownTip : Kept refName tip u (r.tipStep glob env u (refName, tip)) ∧
    (u.state.Done refName tip ∨
      ∃ b, .tip refName b ∈ (r.tipStep glob env u (refName, tip)).events) := by
  unfold Runner.tipStep
  split_ifs with hdone
  · exact ⟨Kept.refl, .inl hdone⟩
  · have hnot : ¬ u.state.Done refName tip := hdone
    simp only
    cases r.processRef glob env refName with
    | none =>
      refine ⟨⟨List.subset_append_left _ _, id, fun h => absurd h hnot, fun hw hm => ?_, .inl,
        .inl⟩, .inr ⟨false, by simp⟩⟩
      have hold : .tip refName true ∈ u.events := by simpa using hm
      exact hw hold
    | some outcome =>
      refine ⟨⟨List.subset_append_left _ _, fun h => absurd h hnot, fun h => absurd h hnot,
        fun hw hm => ?_, fun _ => .inr ⟨outcome.terminal, by simp [Under.accept]⟩, fun h => ?_⟩,
        .inr ⟨outcome.terminal, by simp [Under.accept]⟩⟩
      · have hold : .tip refName true ∉ u.events := fun h => hnot (hw h).1
        have hterm : outcome.terminal = true := by simpa [Under.accept, hold] using hm
        simp [Under.accept, hterm, RunnerState.Done]
      · cases hterm : outcome.terminal with
        | false => exact .inl (by simpa [Under.accept, hterm] using h)
        | true => exact .inr (by simp [Under.accept, hterm])

theorem fireSlot_keeps {task expr key : Name} {slot : ℤ} :
    (r.fireSlot glob env refName tip task expr key slot st).1.processed = st.processed ∧
      (r.fireSlot glob env refName tip task expr key slot st).1.scheduleMigration =
        st.scheduleMigration := by
  unfold Runner.fireSlot
  split
  · exact ⟨rfl, rfl⟩
  · exact ⟨rfl, rfl⟩
  · split
    · exact ⟨rfl, rfl⟩
    · exact ⟨rfl, rfl⟩
    · exact ⟨rfl, rfl⟩
    · split
      · exact ⟨rfl, rfl⟩
      · split <;> exact ⟨rfl, rfl⟩

theorem sweepOne_keeps {task expr key : Name} :
    (r.sweepOne glob parseSchedule env refName tip task expr key u).state.processed =
        u.state.processed ∧
      (r.sweepOne glob parseSchedule env refName tip task expr key u).state.scheduleMigration =
        u.state.scheduleMigration := by
  unfold Runner.sweepOne
  cases u.state.cron.get key with
  | none => exact ⟨rfl, rfl⟩
  | some last =>
    cases parseSchedule expr with
    | none => exact ⟨rfl, rfl⟩
    | some schedule =>
      cases hdue : dueSlot schedule last env.now with
      | notDue => simp [hdue]
      | skip slot => simp [hdue]
      | run slot =>
        simp only [hdue, Under.fired]
        exact fireSlot_keeps

variable (glob parseSchedule r env u tips) in
theorem sweepStep_keeps (key : Name) :
    (r.sweepStep glob parseSchedule env tips u key).state.processed = u.state.processed ∧
      (r.sweepStep glob parseSchedule env tips u key).state.scheduleMigration =
        u.state.scheduleMigration := by
  obtain h | ⟨refName, tip, task, expr, k, h⟩ :=
    sweepStep_cases glob parseSchedule r env u key tips
  · rw [h]
    exact ⟨rfl, rfl⟩
  · rw [h]
    exact sweepOne_keeps

theorem kept_sweepStep (key : Name) :
    Kept refName tip u (r.sweepStep glob parseSchedule env tips u key) := by
  obtain ⟨hprocessed, hmigration⟩ := sweepStep_keeps glob parseSchedule r env u tips key
  obtain ⟨-, hdirty, he | ⟨k, last, slot, settled, -, -, -, he, -⟩⟩ :=
    swept_sweepStep glob parseSchedule r env u key tips
  · exact kept_elsewhere (e := []) (by rw [hprocessed]) (by rw [hmigration]) hdirty
      (by simp [he]) (by simp)
  · exact kept_elsewhere (by rw [hprocessed]) (by rw [hmigration]) hdirty he (by simp)

variable (st) in
theorem forget_elsewhere {names : List Name} (hn : refName ∉ names) :
    (names.foldl RunnerState.forget st).processed.get refName = st.processed.get refName ∧
      (refName ∈ (names.foldl RunnerState.forget st).scheduleMigration ↔
        refName ∈ st.scheduleMigration) := by
  induction names generalizing st with
  | nil => exact ⟨rfl, .rfl⟩
  | cons n names ih =>
    rw [List.mem_cons, not_or] at hn
    obtain ⟨hget, hmig⟩ := ih (st.forget n) hn.2
    exact ⟨hget.trans (by simp [RunnerState.forget, hn.1]),
      hmig.trans (by simp [RunnerState.forget, hn.1])⟩

variable (glob r env u) in
theorem kept_tips {ts : List (Name × Name)} (hnodup : (ts.map Prod.fst).Nodup)
    (hmem : (refName, tip) ∈ ts) {t : Name × Name} (ht : t ∈ ts) :
    Kept refName tip u (r.tipStep glob env u t) := by
  by_cases hname : t.1 = refName
  · obtain rfl : t = (refName, tip) := List.inj_on_of_nodup_map hnodup ht hmem hname
    exact (kept_ownTip glob r env u refName tip).1
  · exact kept_otherTip hname

variable (glob r env u) in
theorem worked_tips {ts : List (Name × Name)} (hnodup : (ts.map Prod.fst).Nodup)
    (hmem : (refName, tip) ∈ ts) : u.state.Done refName tip ∨
      ∃ b, .tip refName b ∈ (ts.foldl (r.tipStep glob env) u).events := by
  obtain ⟨before, rest, rfl⟩ := List.append_of_mem hmem
  have hbefore : Kept refName tip u (before.foldl (r.tipStep glob env) u) :=
    kept_foldl fun v t ht => kept_tips glob r env v hnodup hmem (List.mem_append_left _ ht)
  set v := before.foldl (r.tipStep glob env) u
  obtain ⟨hown, hevent⟩ := kept_ownTip glob r env v refName tip
  have hrest : Kept refName tip (r.tipStep glob env v (refName, tip))
      (rest.foldl (r.tipStep glob env) (r.tipStep glob env v (refName, tip))) :=
    kept_foldl fun w t ht => kept_tips glob r env w hnodup hmem
      (List.mem_append_right _ (List.mem_cons_of_mem _ ht))
  rw [List.foldl_append, List.foldl_cons]
  rcases hevent with hdone | ⟨b, hb⟩
  · exact (hbefore.began hdone).imp_right fun ⟨b, hb⟩ => ⟨b, hrest.grows (hown.grows hb)⟩
  · exact .inr ⟨b, hrest.grows hb⟩

/-- What a pass does about a listed tip. -/
structure PassKept (refName tip : Name) (st : RunnerState) (u : Under) : Prop where
  done : st.Done refName tip → u.state.Done refName tip ∧ ∀ b, .tip refName b ∉ u.events
  works : ¬ st.Done refName tip → ∃ b, .tip refName b ∈ u.events
  worked : u.Worked refName tip
  ended : u.state.processed.get refName = some tip →
    st.processed.get refName = some tip ∨ .tip refName true ∈ u.events

theorem passKept (hlisted : ∀ ts, env.tips = some ts → (refName, tip) ∈ ts)
    (h : r.runPass glob parseSchedule env st = some u) : PassKept refName tip st u := by
  unfold Runner.runPass at h
  obtain ⟨ts, hts, rfl⟩ := Option.map_eq_some_iff.mp h
  have hmem := hlisted ts hts
  have hnodup := env.tips_nodup ts hts
  have hstale : refName ∉ st.stale ts := by
    simp only [RunnerState.stale, List.mem_filter, decide_eq_true_eq, not_and, not_not]
    exact fun _ => List.mem_map.mpr ⟨(refName, tip), hmem, rfl⟩
  obtain ⟨hget, hmig⟩ := forget_elsewhere st hstale
  have hforget : ((st.stale ts).foldl RunnerState.forget st).Done refName tip ↔
      st.Done refName tip := by
    unfold RunnerState.Done
    rw [hget, hmig]
  set v : Under := ⟨(st.stale ts).foldl RunnerState.forget st, false, !(st.stale ts).isEmpty, []⟩
    with hv
  have htips : Kept refName tip v (ts.foldl (r.tipStep glob env) v) :=
    kept_foldl fun w t ht => kept_tips glob r env w hnodup hmem ht
  have hsweeps : Kept refName tip (ts.foldl (r.tipStep glob env) v)
      (((ts.foldl (r.tipStep glob env) v).state.schedules.keys.mergeSort (· ≤ ·)).foldl
        (r.sweepStep glob parseSchedule env ts) (ts.foldl (r.tipStep glob env) v)) :=
    kept_foldl fun w key _ => kept_sweepStep key
  have hk := htips.trans hsweeps
  exact {
    done := fun hd => ⟨hk.done (hforget.mpr hd), fun b hb =>
      List.not_mem_nil (hk.idle (hforget.mpr hd) b hb)⟩
    works := fun hnot => by
      obtain ⟨b, hb⟩ := (worked_tips glob r env v hnodup hmem).resolve_left fun hd =>
        hnot (hforget.mp hd)
      exact ⟨b, hsweeps.grows hb⟩
    worked := hk.worked fun hm => absurd hm List.not_mem_nil
    ended := fun he => (hk.ended he).imp_left fun hold => hget ▸ hold }

theorem done_after {p : PassRun} (hlisted : ∀ ts, p.env.tips = some ts → (refName, tip) ∈ ts)
    (h : (readState file).Done refName tip) :
    (readState (p.after glob parseSchedule file)).Done refName tip := by
  unfold PassRun.after
  cases hu : p.runner.runPass glob parseSchedule p.env (readState file) with
  | none => exact h
  | some u =>
    simp only
    split_ifs
    · exact ⟨((passKept hlisted hu).done h).1.1, by simp [readState, RunnerState.write]⟩
    · exact h

theorem done_fileAfter (hlisted : ∀ p ∈ ps, ∀ ts, p.env.tips = some ts → (refName, tip) ∈ ts)
    (h : (readState file).Done refName tip) :
    (readState (fileAfter glob parseSchedule file ps)).Done refName tip := by
  induction ps generalizing file with
  | nil => exact h
  | cons p ps ih =>
    obtain ⟨hp, hps⟩ := List.forall_mem_cons.mp hlisted
    exact ih hps (done_after hp h)

variable (glob parseSchedule) in
theorem done_iff (hlisted : ∀ p ∈ ps, ∀ ts, p.env.tips = some ts → (refName, tip) ∈ ts)
    (hnew : (readState file).processed.get refName ≠ some tip) :
    (readState (fileAfter glob parseSchedule file ps)).Done refName tip ↔
      ∃ x ∈ history glob parseSchedule file ps, x.1.saved ∧ .tip refName true ∈ x.2 := by
  induction ps generalizing file with
  | nil => simpa [fileAfter, history] using fun h => absurd h.1 hnew
  | cons p ps ih =>
    obtain ⟨hp, hps⟩ := List.forall_mem_cons.mp hlisted
    rw [history, List.exists_mem_cons_iff]
    change (readState (fileAfter glob parseSchedule (p.after glob parseSchedule file) ps)).Done
      refName tip ↔ _
    by_cases hworked : p.saved ∧ .tip refName true ∈ p.events glob parseSchedule file
    · obtain ⟨u, hu, hm⟩ := pass_of_event hworked.2
      obtain ⟨hdone, hdirty⟩ := (passKept hp hu).worked hm
      refine iff_of_true (done_fileAfter hps ?_) (.inl hworked)
      rw [saved_after hworked.1 hu hdirty]
      exact ⟨hdone.1, by simp [readState, RunnerState.write]⟩
    · refine (ih hps ?_).trans (by simp [hworked])
      unfold PassRun.after
      cases hu : p.runner.runPass glob parseSchedule p.env (readState file) with
      | none => exact hnew
      | some u =>
        simp only
        split_ifs with hsaved
        · intro hget
          have hm := ((passKept hp hu).ended hget).resolve_left hnew
          exact hworked ⟨hsaved.1, by simpa [PassRun.events, hu] using hm⟩
        · exact hnew

/-- While a ref stays at a tip that is not recorded, every pass works it until a saved pass has
worked it to the end, and none does after that. -/
theorem tip_worked_until_done (file : Option StateFile) (ps : List PassRun) (p : PassRun)
    (refName tip : Name) (hnew : (readState file).processed.get refName ≠ some tip)
    (hlisted : ∀ q ∈ p :: ps, ∀ ts, q.env.tips = some ts → (refName, tip) ∈ ts)
    (hseen : p.env.tips.isSome) :
    (∃ terminal, .tip refName terminal ∈
        p.events glob parseSchedule (fileAfter glob parseSchedule file ps)) ↔
      ∀ x ∈ history glob parseSchedule file ps, x.1.saved → .tip refName true ∉ x.2 := by
  obtain ⟨hp, hps⟩ := List.forall_mem_cons.mp hlisted
  have hdone := done_iff glob parseSchedule hps hnew
  obtain ⟨ts, hts⟩ := Option.isSome_iff_exists.mp hseen
  obtain ⟨u, hu⟩ : ∃ u, p.runner.runPass glob parseSchedule p.env
      (readState (fileAfter glob parseSchedule file ps)) = some u := by
    simp [Runner.runPass, hts]
  have hk := passKept hp hu
  have hworks : (∃ terminal, .tip refName terminal ∈ u.events) ↔
      ¬ (readState (fileAfter glob parseSchedule file ps)).Done refName tip :=
    ⟨fun ⟨b, hb⟩ hd => (hk.done hd).2 b hb, hk.works⟩
  rw [PassRun.events, hu, Option.map_some, Option.getD_some, hworks, hdone]
  push Not
  rfl

/-- The remote moves on to a commit whose work is held elsewhere, and the runner then works it to
the end. -/
def movedPass (now : ℤ) (outcome : TaskOutcome) : PassRun :=
  let tips := [(tickRef, ['d'])]
  ⟨⟨none, none⟩,
    { tickSurroundings now with
      tips := some tips
      tips_nodup := fun ts h => by obtain rfl := Option.some.inj h; decide
      processTask := fun _ _ _ => some outcome },
    true⟩

/-- A tip that is held elsewhere is worked in the next pass too, and then no more. -/
theorem tip_worked_until_done_moved :
    (history (· == ·) (fun _ => none) tickFile
      [movedPass 5 .deferred, movedPass 6 (.settled .success)]).map Prod.snd =
        [[.tip tickRef false], [.tip tickRef true]] ∧
    ((∃ terminal, .tip tickRef terminal ∈ (movedPass 7 .deferred).events (· == ·) (fun _ => none)
        (fileAfter (· == ·) (fun _ => none) tickFile
          [movedPass 5 .deferred, movedPass 6 (.settled .success)])) ↔
      ∀ x ∈ history (· == ·) (fun _ => none) tickFile
        [movedPass 5 .deferred, movedPass 6 (.settled .success)],
        x.1.saved → .tip tickRef true ∉ x.2) := by
  refine ⟨by decide +kernel,
    tip_worked_until_done tickFile _ _ tickRef ['d'] (by decide) (fun p hp ts hts => ?_) rfl⟩
  simp only [List.mem_cons, List.not_mem_nil, or_false] at hp
  rcases hp with rfl | rfl | rfl <;>
  · obtain rfl := Option.some.inj hts
    exact List.mem_cons_self

end Tips

end Walgit.CiPasses
