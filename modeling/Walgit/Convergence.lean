import Walgit.Lib.Extension
import Walgit.Safety
import Walgit.Trace

/-!
# Syncs converge

What a refs-level sync that answers ok leaves in the handle, noted while it
still holds the mutex: the refs are the fold of the log up to the head of the
handle's manifest, which is also the applied seq, whatever the local state was
before. A local commit that fails half way is repaired by the next sync; what
is not repaired is one that fails over refs already at its manifest.
-/

namespace Walgit

open Interleaving Replay

section Model

structure SyncRecord where
  manifest : Manifest
  refs : RefState
  appliedSeq : ℕ

inductive NoteOp
  | note (h : ℕ)

@[reducible]
def NoteOp.Res : NoteOp → Type
  | .note _ => Unit

abbrev NotedTask := Prog (Op ⊕ NoteOp) (Both Op.Res NoteOp.Res)

def noted {α : Type} (p : Task α) : NotedTask α := Prog.lift NoteOp.Res p

def noteIf (h : ℕ) (ok : Bool) : NotedTask Unit :=
  if ok then Prog.extra Op.Res (.note h) else pure ()

/-- `sync_refs_phase` with a note of each apply or check that succeeds. -/
def observedSync (h : ℕ) : NotedTask (Except WalError Unit) := do
  if ← noted (freshEnough h) then pure (.ok ())
  else
    noted (call (.lock h))
    if ← noted (freshEnough h) then
      noted (call (.unlock h))
      pure (.ok ())
    else
      let verified ← noted (call (.verified h))
      let r ← noted (syncLockedInner h (!verified))
      noteIf h (isOk r)
      noted (call (.unlock h))
      pure r

theorem observedSync_erase (h : ℕ) :
    (observedSync h).erase (fun | .note _ => ()) = syncRefsPhase h := by
  have hret : ∀ {α : Type} (a : α), (pure a : NotedTask α).erase (fun | .note _ => ()) = pure a :=
    fun _ => rfl
  have hnote : ∀ b, (noteIf h b).erase (fun | .note _ => ()) = pure () := fun b => by
    cases b <;> rfl
  unfold observedSync syncRefsPhase noted
  simp only [Prog.erase_bind, Prog.erase_lift]
  refine congrArg _ (funext fun fresh => ?_)
  cases fresh with
  | true => rfl
  | false =>
    simp only [Bool.false_eq_true, if_false, Prog.erase_bind, Prog.erase_lift]
    refine congrArg _ (funext fun _ => congrArg _ (funext fun fresh => ?_))
    cases fresh with
    | true =>
      simp only [if_true, Prog.erase_bind, Prog.erase_lift]
      rfl
    | false =>
      simp only [Bool.false_eq_true, if_false, Prog.erase_bind, Prog.erase_lift, hnote]
      rfl

inductive NotedJob
  | writer (job : Job)
  | sync (h : ℕ)

def NotedJob.run (cfg : Config) : NotedJob → NotedTask Unit
  | .writer job => noted (job.run cfg)
  | .sync h => do
    noted (call (.enter h))
    let _ ← observedSync h

def notedExec (t : ℕ) (o : Op ⊕ NoteOp) (c : Choice) (σ : World × List SyncRecord) :
    Option (Both Op.Res NoteOp.Res o × (World × List SyncRecord)) :=
  match o with
  | .inl o => (exec t o c σ.1).map fun r => (r.1, r.2, σ.2)
  | .inr (.note h) => (σ.1.handles h).map fun hd =>
    ((), σ.1, ⟨hd.manifest, hd.refs, hd.state.appliedSeq⟩ :: σ.2)

abbrev NotedSys := Pool (Op ⊕ NoteOp) (Both Op.Res NoteOp.Res) (World × List SyncRecord)

def NotedSys.init : NotedSys := ⟨(.init, []), []⟩

def NotedOk (L : List Hazard) (_t : ℕ) (o : Op ⊕ NoteOp) (c : Choice)
    (σ : World × List SyncRecord) : Prop :=
  match o with
  | .inl o => Avoids L o c σ.1
  | .inr _ => True

end Model

section Invariant

variable {L : List Hazard} {t h : ℕ} {σ σ' : World} {cfg : Config}

/-- The fold of the log up to the head of a committed manifest, and its applied seq. -/
structure SyncRecord.Converged (σ : World) (r : SyncRecord) : Prop where
  committed : Has r.manifest σ
  refs : r.refs = foldUpto σ.log r.manifest.headSeq
  applied : r.appliedSeq = r.manifest.headSeq

theorem SyncRecord.Converged.extends {r : SyncRecord} (hi : Inv L σ) (hr : r.Converged σ)
    (he : Extends σ σ') : r.Converged σ' where
  committed := he.has hr.committed
  refs := by
    rw [he.foldUpto (hr.committed.headSeq_le hi)]
    exact hr.refs
  applied := hr.applied

def ConvergeLevel (L : List Hazard) : Prop :=
  refsHazards ⊆ L ∧ Hazard.inexactSnapshot ∈ L ∧ Hazard.lockUnsettled ∈ L

def notes (L : List Hazard) : Extension (discipline L) NoteOp.Res (List SyncRecord) where
  exec _ o _ σ x := match o with
    | .note h => (σ.handles h).map fun hd =>
      ((), ⟨hd.manifest, hd.refs, hd.state.appliedSeq⟩ :: x)
  ok _ _ _ _ _ := True
  inv σ x := ConvergeLevel L → ∀ r ∈ x, r.Converged σ
  guar _ _ _ _ := True
  keep _ _ _ _ _ _ _ hi hi' hg _ _ hx hL r hr := (hx hL r hr).extends hi (Guar.extends hi hi' hg)

abbrev NotedSpec (L : List Hazard) (t : ℕ) {α : Type} (p : NotedTask α)
    (P : World × List SyncRecord → Prop) (Q : α → World × List SyncRecord → Prop) : Prop :=
  (notes L).discipline.Triple t p P Q

theorem spec_noted {α : Type} {p : Task α} {P : World → Prop} {Q : α → World → Prop}
    (h : Spec L t p P Q) : NotedSpec L t (noted p) (fun σ => P σ.1) fun a σ => Q a σ.1 :=
  ((Extension.lift_triple (N := fun _ => True) Extension.Frame.const h).pre
    fun _ _ hp => ⟨hp, trivial⟩).post fun _ _ _ hq => hq.1

theorem Synced.converged {hd : Handle} (hL : ConvergeLevel L) (hinv : HandleInv L σ hd)
    (hs : Synced L σ hd) :
    SyncRecord.Converged σ ⟨hd.manifest, hd.refs, hd.state.appliedSeq⟩ := by
  obtain ⟨c, hc, hm, -⟩ := hinv.pair
  exact ⟨⟨c, hc, hm⟩, hs.refs (.inr ⟨hL.1, hL.2.1⟩), hs.applied hL.2.2⟩

theorem spec_noteIf {r : Except WalError Unit} {R : World → Prop} (hR : Calm L t R) :
    NotedSpec L t (noteIf h (isOk r)) (fun σ => Under L t h R (Ended L r) σ.1)
      fun _ σ => Under L t h R (Ended L r) σ.1 := by
  unfold noteIf
  split
  · rename_i hok
    refine Extension.extra_triple (o := NoteOp.note h)
      (fun _ => Extension.stable_fst (stable_under hR frozen_ended)) ?_
    rintro σ x c u x' hi hx ⟨hr, hd, hh, hm, hX⟩ - he
    obtain ⟨hd₀, hh₀, he⟩ := Option.map_eq_some_iff.mp he
    rw [hh] at hh₀
    cases hh₀
    cases he
    refine ⟨fun hL r' hr' => ?_, trivial, hr, hd, hh, hm, hX⟩
    rcases List.mem_cons.mp hr' with rfl | hr'
    · exact ((hX hL.1).2 hok).converged hL (hi.handles h hd hh)
    · exact hx hL r' hr'
  · exact Discipline.Triple.ret fun _ _ hx => hx

theorem spec_observedSync (hp : PairLevel L) :
    NotedSpec L t (observedSync h) (fun σ => Fresh t σ.1) fun _ _ => True := by
  have hready : Keeping L t (Under L t h (Fresh t) fun σ hd => Ready L σ hd ∧ Even L σ hd) :=
    stable_under calm_fresh (frozen_and frozen_ready frozen_even)
  unfold observedSync
  refine Discipline.Triple.bind (spec_noted (spec_freshEnough calm_fresh.stable)) fun fresh => ?_
  split
  · exact Discipline.Triple.ret fun _ _ _ => trivial
  refine Discipline.Triple.bind (spec_noted (spec_lock calm_fresh)) fun _ => ?_
  refine Discipline.Triple.bind (spec_noted (spec_freshEnough hready)) fun fresh => ?_
  split
  · refine Discipline.Triple.bind ((spec_noted (spec_unlock (h := h) calm_fresh)).pre
      fun σ _ hx => ?_) fun _ => Discipline.Triple.ret fun _ _ _ => trivial
    exact ⟨hx.1, hx.2.imp fun _ _ _ hX => hX.1⟩
  refine Discipline.Triple.bind (spec_noted (Spec.skip rfl hready)) fun verified => ?_
  refine Discipline.Triple.bind (spec_noted (spec_syncLockedInner hp calm_fresh)) fun r => ?_
  refine Discipline.Triple.bind (spec_noteIf calm_fresh) fun _ => ?_
  exact Discipline.Triple.bind (spec_noted (spec_unlockEnded calm_fresh)) fun _ =>
    Discipline.Triple.ret fun _ _ _ => trivial

theorem spec_notedJob (hp : PairLevel L) (job : NotedJob) :
    NotedSpec L t (job.run cfg) (fun σ => Fresh t σ.1) fun _ _ => True := by
  cases job with
  | writer job => exact spec_noted (spec_run hp job)
  | sync h =>
    refine Discipline.Triple.bind (spec_noted (spec_updateIf (h := h) (f := id) (o := .enter h)
      (fun _ => trivial) calm_fresh ?_ fun hd => ⟨⟨rfl, rfl, rfl, rfl⟩, rfl, rfl⟩)) fun _ => ?_
    · intro c σ r σ' hex
      obtain ⟨hd, hh, -, rfl⟩ := updateIf_eq hex
      exact ⟨hd, hh, rfl⟩
    · exact Discipline.Triple.bind (spec_observedSync hp) fun _ =>
        Discipline.Triple.ret fun _ _ _ => trivial

end Invariant

section Runs

variable {cfg : Config} {s : NotedSys}

def syncHazards : List Hazard := pairHazards ++ refsHazards ++ [.inexactSnapshot, .lockUnsettled]

def NotedRun (cfg : Config) (s : NotedSys) : Prop :=
  Reach notedExec (NotedJob.run cfg) (fun _ _ _ _ => True) NotedSys.init s

/-- The states of runs all of whose calls avoid `L`. -/
def NotedReachable (cfg : Config) (L : List Hazard) (s : NotedSys) : Prop :=
  Reach notedExec (NotedJob.run cfg) (NotedOk L) NotedSys.init s

theorem notedExec_eq {L : List Hazard} : notedExec = (notes L).discipline.exec := by
  funext t o c σ
  rcases o with o | o
  · rfl
  · cases o with
    | note h =>
      change (σ.1.handles h).map _ = ((σ.1.handles h).map _).map _
      rw [Option.map_map]
      rfl

theorem notedOk_eq {L : List Hazard} : NotedOk L = (notes L).discipline.ok := by
  funext t o c σ
  cases o <;> rfl

theorem converged_of_reachable (h : NotedReachable cfg syncHazards s) :
    ∀ r ∈ s.world.2, r.Converged s.world.1 := by
  unfold NotedReachable at h
  rw [notedExec_eq (L := syncHazards), notedOk_eq] at h
  have hp : PairLevel syncHazards :=
    .of_subset fun _ hz => List.mem_append_left _ (List.mem_append_left _ hz)
  have hstart : (notes syncHazards).discipline.Sound NotedSys.init :=
    Discipline.sound_init ⟨inv_init, fun _ r hr => by cases hr⟩ fun _ => fresh_init
  have hs := hstart.reach (fun _ => Extension.stable_fst calm_fresh.stable)
    (fun job _ => spec_notedJob hp job) h
  refine hs.inv.2 ⟨fun z hz => ?_, by decide, by decide⟩
  exact List.mem_append_left _ (List.mem_append_right _ hz)

/-- The noted sync is `sync_refs_phase`, and what it notes has converged. -/
theorem sync_converges (h : NotedReachable cfg syncHazards s) :
    (∀ j, (observedSync j).erase (fun | .note _ => ()) = syncRefsPhase j) ∧
      ∀ r ∈ s.world.2, r.Converged s.world.1 :=
  ⟨observedSync_erase, converged_of_reachable h⟩

/-- Tests a call for the races of `syncHazards`; a local commit may fail. -/
def notedTest (_t : ℕ) (o : Op ⊕ NoteOp) (c : Choice) (σ : World × List SyncRecord) : Bool :=
  match o with
  | .inl (.applyRefTxn ..) => true
  | .inl (.refs ..) => false
  | .inl o => o.clean c σ.1
  | .inr _ => true

theorem avoids_applyRefTxn {h done : ℕ} {txn : RefTransaction} {c : Choice} {σ : World} :
    Avoids syncHazards (.applyRefTxn h txn done) c σ := by
  intro z hz hit
  cases z <;> first | exact absurd hz (by decide) | simp [Hits] at hit

theorem notedOk_of_test (t : ℕ) (o : Op ⊕ NoteOp) (c : Choice) (σ : World × List SyncRecord)
    (h : notedTest t o c σ = true) : NotedOk syncHazards t o c σ := by
  rcases o with o | o
  · by_cases hre : ∃ j seen, o = .refs j seen
    · obtain ⟨j, seen, rfl⟩ := hre
      cases h
    by_cases hap : ∃ j txn done, o = .applyRefTxn j txn done
    · obtain ⟨j, txn, done, rfl⟩ := hap
      exact avoids_applyRefTxn
    have hclean : o.clean c σ.1 = true := by
      cases o with
      | applyRefTxn j txn done => exact absurd ⟨j, txn, done, rfl⟩ hap
      | refs j seen => exact absurd ⟨j, seen, rfl⟩ hre
      | _ => exact h
    intro z _ hit
    by_cases hz : z = .inexactSnapshot
    · subst hz
      obtain ⟨j, seen, rfl, -⟩ := hit
      exact hre ⟨j, seen, rfl⟩
    · exact avoids_of_clean (L := [z]) (by simpa [eq_comm] using hz) hclean z
        List.mem_cons_self hit
  · trivial

abbrev NotedStep := Event NotedJob Choice

def notedSteps (t n : ℕ) : List NotedStep := List.replicate n (.run t noFault)

/-- Two pushes to one branch in one batch, put by task 1. -/
def twoPushes : List NotedStep :=
  .spawn (.writer (.sync 0)) :: notedSteps 0 19 ++
    .spawn (.writer (.publish 0 [pushRef mainRef "" oidA, pushRef mainRef oidA oidB])) ::
      notedSteps 1 9

def failedCall (t : ℕ) : NotedStep := .run t ⟨.err, 0, false⟩

/-- The local commit fails after the first of the two; the next sync replays both. -/
theorem sync_converges_after_failure : ∃ s, NotedReachable plainConfig syncHazards s ∧
    (∀ r ∈ s.world.2, r.Converged s.world.1) ∧
    s.world.2.map (fun r => (r.appliedSeq, r.refs (.ref mainRef))) = [(2, some oidB)] := by
  have hs : ((Pool.testedRuns notedExec (NotedJob.run plainConfig) notedTest NotedSys.init
      (twoPushes ++ notedSteps 1 2 ++ failedCall 1 :: notedSteps 1 2 ++
        .spawn (.sync 0) :: notedSteps 2 27)).any fun s =>
      s.world.2.map (fun r => (r.appliedSeq, r.refs (.ref mainRef))) =
        [(2, some oidB)]) = true := by
    decide +kernel
  obtain ⟨s, hr, hs⟩ := exists_of_testedRuns notedExec _ notedOk_of_test hs
  exact ⟨s, hr, (sync_converges hr).2, of_decide_eq_true hs⟩

/-- A sync has applied both pushes before the local commit, which then fails after the first: the
next sync has nothing to replay. -/
theorem sync_keeps_half_commit : ∃ cfg s, NotedRun cfg s ∧
    ¬ ∀ r ∈ s.world.2, r.Converged s.world.1 := by
  have hs : ((Pool.runs notedExec (NotedJob.run plainConfig) NotedSys.init
      (twoPushes ++ .spawn (.sync 0) :: notedSteps 2 27 ++ notedSteps 1 2 ++
        failedCall 1 :: notedSteps 1 2 ++ .spawn (.sync 0) :: notedSteps 3 24)).any fun s =>
      (s.world.2.any fun r => r.manifest.headSeq = 2 ∧ r.refs (.ref mainRef) = some oidA) = true ∧
        foldUpto s.world.1.log 2 (.ref mainRef) = some oidB) = true := by
    decide +kernel
  obtain ⟨s, hr, hs⟩ := exists_of_runs notedExec _ hs
  obtain ⟨hany, hfold⟩ := of_decide_eq_true hs
  refine ⟨plainConfig, s, hr, fun hall => ?_⟩
  obtain ⟨r, hmem, hp⟩ := List.any_eq_true.mp hany
  obtain ⟨hhead, hmain⟩ := of_decide_eq_true hp
  have href := congrFun (hall r hmem).refs (.ref mainRef)
  rw [hmain, hhead, hfold] at href
  exact absurd href (by decide)

end Runs

end Walgit
