import Walgit.Historical

/-!
# Runs with consumers

Any number of catch-ups and historical reads beside the writers. The cursor
moves forward and stays at or below the head; nothing up to it is skipped
silently; every historical answer is a fold. Each holds along the runs that
avoid its own races, and each has a run without that condition in which it
fails.
-/

namespace Walgit

open Interleaving Replay

variable {L : List Hazard} {Z : List ConsumerHazard} {cfg : Config} {sinks t : ℕ}
  {s s' : ConsumerSys}

section Sound

theorem spec_consumerJob (hp : PairLevel L) (job : ConsumerJob) :
    ConsumerSpec L Z sinks t (job.run cfg sinks) (fun σ => Fresh t σ.1) fun _ _ => True := by
  cases job with
  | writer job =>
    exact ((ConsumerSpec.lift (N := fun _ => True) .const (spec_run hp job)).pre
      fun _ _ _ _ hf => ⟨hf, trivial⟩).post fun _ _ _ _ _ _ => trivial
  | catchUp h => exact (spec_catchUp hp).pre fun _ _ _ _ _ => trivial
  | historical h cut => exact spec_historical.pre fun _ _ _ _ _ => trivial

theorem consumerInv_init : ConsumerInv L Z sinks World.init Consumers.init where
  cursor _ hc := by cases hc
  started _ hc := by cases hc
  covered _ _ _ hc := by cases hc
  lags _ _ hd := by cases hd
  answers _ _ _ ha := by cases ha

theorem sound_consumers : (consumers L Z sinks).discipline.Sound ConsumerSys.init :=
  Discipline.sound_init ⟨inv_init, consumerInv_init⟩ fun _ => fresh_init

theorem consumerExec_eq : consumerExec = (consumers L Z sinks).discipline.exec := by
  funext t o c σ
  cases o <;> rfl

theorem consumersOk_eq : ConsumersOk L Z = (consumers L Z sinks).discipline.ok := by
  funext t o c σ
  cases o <;> rfl

theorem ConsumerReach.sound (hp : PairLevel L) (hs : (consumers L Z sinks).discipline.Sound s)
    (h : ConsumerReach cfg sinks L Z s s') : (consumers L Z sinks).discipline.Sound s' := by
  unfold ConsumerReach at h
  rw [@consumerExec_eq L Z sinks, @consumersOk_eq L Z sinks] at h
  exact hs.reach (fun _ => Extension.stable_fst calm_fresh.stable)
    (fun job _ => spec_consumerJob hp job) h

theorem ConsumerReach.inv (hp : PairLevel L) (h : ConsumerReach cfg sinks L Z ConsumerSys.init s) :
    Inv L s.world.1 ∧ ConsumerInv L Z sinks s.world.1 s.world.2 :=
  (h.sound hp sound_consumers).inv

end Sound

section Traces

/-- The manifest lists every committed segment of the range. -/
def listsRange (σ : World) (m : Manifest) (r : LogRange) : Bool :=
  (slotsOf σ.commits).all fun slot =>
    decide (r.after < slot.last → slot.seq ≤ r.last m → slot.ref ∈ m.logSegments)

theorem not_misses {σ : World} {m : Manifest} {r : LogRange} (h : listsRange σ m r = true) :
    ¬ Misses σ m r := by
  rintro ⟨⟨slot, hs, ha, hl, hn⟩, -⟩
  exact hn (of_decide_eq_true (List.all_eq_true.mp h slot hs) ha hl)

/-- Tests a call of a consumer for all of its races at once. -/
def ConsumerOp.clean (σ : World) (x : Consumers) : ConsumerOp → Bool
  | .logManifest _ r => listsRange σ σ.current.manifest r
  | .heldManifest h r => σ.all h fun hd => listsRange σ hd.manifest r
  | .getCursor m => x.cursor.all (fun cur => cur.publishedSeq ≤ m.headSeq) &&
      (x.cursor.isSome || x.first.all fun m₀ => m.minSeq ≤ m₀)
  | _ => true

theorem consumerAvoids_of_clean {o : ConsumerOp} {σ : World} {x : Consumers}
    (h : o.clean σ x = true) : ConsumerAvoids Z o σ x := by
  intro z _ hz
  cases z with
  | trimmed =>
    rcases hz with ⟨known, r, rfl, -, hmiss⟩ | ⟨j, r, rfl, ho⟩
    · exact not_misses h hmiss
    · obtain ⟨hd, -, hp, hmiss⟩ := World.all_on h ho
      exact not_misses hp hmiss
  | coldRestart =>
    obtain ⟨m, rfl, hc, m₀, hf, hlt⟩ := hz
    have hcold := (Bool.and_eq_true_iff.mp h).2
    rw [hc, hf] at hcold
    exact absurd (of_decide_eq_true hcold) (Nat.not_le_of_lt hlt)
  | staleHead =>
    obtain ⟨m, rfl, cur, hc, hlt⟩ := hz
    have hahead := (Bool.and_eq_true_iff.mp h).1
    rw [hc] at hahead
    exact absurd (of_decide_eq_true hahead) (Nat.not_le_of_lt hlt)

def cleanCall (_t : ℕ) (o : Op ⊕ ConsumerOp) (c : Choice) (σ : World × Consumers) : Bool :=
  match o with
  | .inl o => o.clean c σ.1
  | .inr o => o.clean σ.1 σ.2

theorem consumersOk_of_clean (hL : .inexactSnapshot ∉ L) (t : ℕ) (o : Op ⊕ ConsumerOp)
    (c : Choice) (σ : World × Consumers) (h : cleanCall t o c σ = true) :
    ConsumersOk L Z t o c σ := by
  cases o with
  | inl o => exact avoids_of_clean hL h
  | inr o => exact consumerAvoids_of_clean h

def ConsumerSys.cleanRuns (cfg : Config) (sinks : ℕ) (s : ConsumerSys) (es : List ConsumerStep) :
    Option ConsumerSys :=
  s.testedRuns consumerExec (ConsumerJob.run cfg sinks) cleanCall es

theorem exists_consumerReach (hL : .inexactSnapshot ∉ L) (cfg : Config) (sinks : ℕ)
    (es : List ConsumerStep) {p : ConsumerSys → Bool}
    (h : (s.cleanRuns cfg sinks es).any p = true) :
    ∃ s', ConsumerReach cfg sinks L Z s s' ∧ p s' = true :=
  exists_of_testedRuns consumerExec _ (consumersOk_of_clean hL) h

theorem exists_consumerRun (cfg : Config) (sinks : ℕ) (es : List ConsumerStep)
    {p : ConsumerSys → Bool} (h : (ConsumerSys.runs cfg sinks es).any p = true) :
    ∃ s, ConsumerRun cfg sinks s ∧ p s = true :=
  exists_of_runs consumerExec _ h

/-- Task `t` takes `n` steps and every call succeeds. -/
def turns (t n : ℕ) : List ConsumerStep := List.replicate n (.run t noFault)

/-- A push has been committed by the instance of handle 0. -/
def onePush : List ConsumerStep :=
  .spawn (.writer (.sync 0)) :: turns 0 19 ++ .spawn (.writer (push "" oidA)) :: turns 1 20

end Traces

section Cursor

def CursorMonotone (x x' : Consumers) : Prop :=
  ∀ cur, x.cursor = some cur →
    ∃ cur', x'.cursor = some cur' ∧ cur.publishedSeq ≤ cur'.publishedSeq

theorem ConsumerReach.cursorMonotone (hp : PairLevel L) (hZ : .staleHead ∈ Z)
    (h : ConsumerReach cfg sinks L Z ConsumerSys.init s) (h' : ConsumerReach cfg sinks L Z s s') :
    CursorMonotone s.world.2 s'.world.2 := by
  have hs := h.sound hp sound_consumers
  unfold ConsumerReach at h'
  rw [@consumerExec_eq L Z sinks, @consumersOk_eq L Z sinks] at h'
  refine hs.reach_rel (R := fun σ σ' => CursorMonotone σ.2 σ'.2)
    (fun _ => Extension.stable_fst calm_fresh.stable) (fun job _ => spec_consumerJob hp job)
    (fun σ cur hc => ⟨cur, hc, Nat.le_refl _⟩) ?_ ?_ h'
  · intro σ₁ σ₂ σ₃ h₁ h₂ cur hc
    obtain ⟨cur', hc', hle⟩ := h₁ cur hc
    obtain ⟨cur'', hc'', hle'⟩ := h₂ cur' hc'
    exact ⟨cur'', hc'', hle.trans hle'⟩
  · rintro t σ σ' - - (⟨-, he⟩ | ⟨-, hg⟩)
    · rw [he]
      exact fun cur hc => ⟨cur, hc, Nat.le_refl _⟩
    · exact hg.onward hZ

/-- The cursor never goes back between two states, is at most the committed head, and no
subtraction of seqs has gone below zero. -/
structure CursorSafe (s s' : ConsumerSys) : Prop where
  monotone : CursorMonotone s.world.2 s'.world.2
  bounded : ∀ cur, s'.world.2.cursor = some cur → cur.publishedSeq ≤ s'.world.1.head
  subtractions : ∀ d ∈ s'.world.2.lags, d.2 ≤ d.1

theorem bridge_cursor_safe (h : ConsumerReach cfg sinks pairHazards [.staleHead] .init s)
    (h' : ConsumerReach cfg sinks pairHazards [.staleHead] s s') : CursorSafe s s' := by
  have hp : PairLevel pairHazards := .refl
  have hinv := (h'.sound hp (h.sound hp sound_consumers)).inv.2
  exact ⟨h.cursorMonotone hp List.mem_cons_self h', fun cur hc => (hinv.cursor cur hc).2,
    hinv.lags List.mem_cons_self⟩

theorem bridge_cursor_safe_twice : ∃ s s',
    ConsumerReach plainConfig 1 pairHazards [.staleHead] ConsumerSys.init s ∧
    ConsumerReach plainConfig 1 pairHazards [.staleHead] s s' ∧ CursorSafe s s' ∧
    s.world.2.cursor = some ⟨1, 0⟩ ∧ s'.world.2.cursor = some ⟨2, 1⟩ := by
  have hs : ((ConsumerSys.init.cleanRuns plainConfig 1 (onePush ++
      .spawn (.catchUp 0) :: turns 2 22)).any fun s => s.world.2.cursor = some ⟨1, 0⟩ ∧
        ((s.cleanRuns plainConfig 1 (.spawn (.writer (push oidA oidB)) :: turns 3 20 ++
          .spawn (.catchUp 0) :: turns 4 22)).any fun s' =>
            s'.world.2.cursor = some ⟨2, 1⟩) = true) = true := by
    decide +kernel
  obtain ⟨s, hr, hs⟩ := exists_consumerReach (L := pairHazards) (Z := [.staleHead])
    (by decide) plainConfig 1 _ hs
  obtain ⟨hc, hs'⟩ := of_decide_eq_true hs
  obtain ⟨s', hr', hc'⟩ := exists_consumerReach (L := pairHazards) (Z := [.staleHead])
    (by decide) plainConfig 1 _ hs'
  exact ⟨s, s', hr, hr', bridge_cursor_safe hr hr', hc, of_decide_eq_true hc'⟩

/-- One bridge holds head 1, a second process moves the cursor to 2, the first puts it back. -/
theorem bridge_cursor_goes_back : ∃ cfg sinks s s', ConsumerRun cfg sinks s ∧
    Reach consumerExec (ConsumerJob.run cfg sinks) (fun _ _ _ _ => True) s s' ∧
    ¬ CursorSafe s s' ∧ s.world.2.cursor = some ⟨2, 0⟩ ∧ s'.world.2.cursor = some ⟨1, 1⟩ ∧
    (1, 2) ∈ s'.world.2.lags := by
  have hs : ((ConsumerSys.runs plainConfig 1 (onePush ++ .spawn (.catchUp 0) :: turns 2 13 ++
      .spawn (.writer (push oidA oidB)) :: turns 3 20 ++
      .spawn (.writer (.openRepo 1 none)) :: turns 4 18 ++
      .spawn (.catchUp 1) :: turns 5 23)).any fun s => s.world.2.cursor = some ⟨2, 0⟩ ∧
        (Pool.runs consumerExec (ConsumerJob.run plainConfig 1) s (turns 2 4)).any (fun s' =>
          s'.world.2.cursor = some ⟨1, 1⟩ ∧ (1, 2) ∈ s'.world.2.lags) = true) = true := by
    decide +kernel
  obtain ⟨s, hr, hs⟩ := exists_consumerRun plainConfig 1 _ hs
  obtain ⟨hc, hs'⟩ := of_decide_eq_true hs
  obtain ⟨s', hr', hs'⟩ := exists_of_runs consumerExec _ hs'
  obtain ⟨hc', hlag⟩ := of_decide_eq_true hs'
  refine ⟨plainConfig, 1, s, s', hr, hr', fun hsafe => ?_, hc, hc', hlag⟩
  exact absurd (hsafe.subtractions (1, 2) hlag) (by decide)

end Cursor

section Gaps

/-- Every committed update from the first catch-up's `min_seq` up to the stored cursor was
delivered to every sink or lies in a reported gap. -/
def NoSilentGap (sinks : ℕ) (s : ConsumerSys) : Prop :=
  ∀ cur m₀, s.world.2.cursor = some cur → s.world.2.first = some m₀ →
    Covered sinks s.world.1 s.world.2 m₀ cur.publishedSeq

theorem bridge_no_silent_gap
    (h : ConsumerReach cfg sinks pairHazards [.trimmed, .coldRestart] .init s) :
    NoSilentGap sinks s :=
  fun cur m₀ hc hf => (h.inv .refl).2.covered ⟨by simp, by simp⟩ cur m₀ hc hf

def createdMain : RefEvent :=
  ⟨1, .push, .create, mainRef, "0000000000000000000000000000000000000000", oidA⟩

theorem bridge_no_silent_gap_pushed : ∃ s,
    ConsumerReach plainConfig 1 pairHazards [.trimmed, .coldRestart] ConsumerSys.init s ∧
    NoSilentGap 1 s ∧
    s.world.2.cursor = some ⟨1, 0⟩ ∧ s.world.2.delivered = [(0, createdMain)] := by
  obtain ⟨s, hr, hs⟩ := exists_consumerReach (s := ConsumerSys.init) (L := pairHazards)
    (Z := [.trimmed, .coldRestart]) (by decide) plainConfig 1
    (onePush ++ .spawn (.catchUp 0) :: turns 2 22)
    (p := fun s => s.world.2.cursor = some ⟨1, 0⟩ ∧ s.world.2.delivered = [(0, createdMain)])
    (by decide +kernel)
  exact ⟨s, hr, bridge_no_silent_gap hr, of_decide_eq_true hs⟩

/-- Another instance folds the entry into a checkpoint after the catch-up took its manifest. -/
theorem bridge_skips_entry : ∃ cfg sinks s, ConsumerRun cfg sinks s ∧ ¬ NoSilentGap sinks s := by
  obtain ⟨s, hr, hs⟩ := exists_consumerRun plainConfig 1 (onePush ++
    .spawn (.writer (.openRepo 1 none)) :: turns 2 17 ++ .spawn (.catchUp 0) :: turns 3 13 ++
    .spawn (.writer (.checkpoint 1)) :: turns 4 26 ++ turns 3 6)
    (p := fun s => s.world.2.cursor = some ⟨1, 0⟩ ∧ s.world.2.first = some 0 ∧
      s.world.2.delivered = [] ∧ s.world.2.gaps = [] ∧
      s.world.1.log.any (fun e => e.seq = 1 ∧ entryEvents e = [createdMain]) = true)
    (by decide +kernel)
  obtain ⟨hc, hf, hd, hg, hlog⟩ := of_decide_eq_true hs
  refine ⟨plainConfig, 1, s, hr, fun hno => ?_⟩
  obtain ⟨e, he, hev⟩ := List.any_eq_true.mp hlog
  obtain ⟨hseq, hev⟩ := of_decide_eq_true hev
  rcases hno _ _ hc hf e he (Nat.zero_le _) (Nat.le_of_eq hseq) createdMain (by simp [hev])
    with hall | ⟨g, hmem, -⟩
  · have := hall 0 Nat.one_pos
    rw [hd] at this
    cases this
  · rw [hg] at hmem
    cases hmem

end Gaps

section Answers

theorem historical_answers_exact
    (h : ConsumerReach cfg sinks (pairHazards ++ exactHazards) [.trimmed] .init s) :
    ∀ a ∈ s.world.2.answers, a.Exact s.world.1 :=
  (h.inv (.of_subset (List.subset_append_left _ _))).2.answers (List.subset_append_right _ _)
    List.mem_cons_self

theorem historical_answers_exact_pushed : ∃ s : ConsumerSys,
    ConsumerReach plainConfig 1 (pairHazards ++ exactHazards) [.trimmed] ConsumerSys.init s ∧
    (∀ a ∈ s.world.2.answers, a.Exact s.world.1) ∧
    s.world.2.answers.map (fun a => (a.cut, a.seq, a.snap (.ref mainRef))) =
      [(.seq 1, 1, some oidA)] := by
  obtain ⟨s, hr, hs⟩ := exists_consumerReach (s := ConsumerSys.init)
    (L := pairHazards ++ exactHazards) (Z := [.trimmed]) (by decide) plainConfig 1
    (onePush ++ .spawn (.historical 0 (.seq 1)) :: turns 2 9)
    (p := fun s => s.world.2.answers.map (fun a => (a.cut, a.seq, a.snap (.ref mainRef))) =
      [(.seq 1, 1, some oidA)]) (by decide +kernel)
  exact ⟨s, hr, historical_answers_exact hr, of_decide_eq_true hs⟩

/-- Another instance folds the log into a checkpoint between the manifest and the log read. -/
theorem historical_answer_partial : ∃ cfg sinks s, ConsumerRun cfg sinks s ∧
    ¬ ∀ a ∈ s.world.2.answers, a.Exact s.world.1 := by
  obtain ⟨s, hr, hs⟩ := exists_consumerRun plainConfig 1 (onePush ++
    .spawn (.writer (.openRepo 1 none)) :: turns 2 17 ++
    .spawn (.historical 0 (.seq 1)) :: turns 3 4 ++
    .spawn (.writer (.checkpoint 1)) :: turns 4 26 ++ turns 3 3)
    (p := fun s => (s.world.2.answers.any fun a => a.cut = .seq 1 ∧ a.began = 1 ∧
      a.snap (.ref mainRef) = none) = true ∧
      foldUpto s.world.1.log 1 (.ref mainRef) = some oidA) (by decide +kernel)
  obtain ⟨hany, hfold⟩ := of_decide_eq_true hs
  refine ⟨plainConfig, 1, s, hr, fun hall => ?_⟩
  obtain ⟨a, ha, hp⟩ := List.any_eq_true.mp hany
  obtain ⟨hcut, hb, hnone⟩ := of_decide_eq_true hp
  have hex := hall a ha
  rw [Answer.Exact, hcut] at hex
  obtain ⟨n, hle, -, hor, heq⟩ := hex
  obtain rfl : n = 1 := by omega
  have := congrFun heq (.ref mainRef)
  rw [hfold] at this
  change a.snap (.ref mainRef) = some oidA at this
  rw [hnone] at this
  cases this

end Answers

end Walgit
