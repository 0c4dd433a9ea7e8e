import Walgit.Safety
import Walgit.Trace

/-!
# Monotone reads

Whenever nobody holds a handle's mutex, its manifest is a committed one, its
applied seq is that manifest's head and its refs are the fold up to there; and
the manifest never goes back.
-/

namespace Walgit

open Interleaving Replay

variable {cfg : Config} {s s' : Sys}

/-- A later state of a run all of whose steps avoid `L`. -/
def Later (cfg : Config) (L : List Hazard) : Sys → Sys → Prop :=
  Reach exec (Job.run cfg) fun _ => Avoids L

/-- Manifest, applied seq and refs describe one committed manifest. -/
structure Describes (σ : World) (hd : Handle) : Prop where
  committed : ∃ c ∈ σ.commits, c.manifest = hd.manifest
  applied : hd.state.appliedSeq = hd.manifest.headSeq
  refs : hd.refs = foldUpto σ.log hd.manifest.headSeq

/-- Two moments at which nobody holds the mutex of a handle, the second one later. -/
def MonotoneReads (σ σ' : World) : Prop :=
  ∀ h hd hd', σ.handles h = some hd → σ'.handles h = some hd' →
    hd.syncMutex = none → hd'.syncMutex = none →
      Describes σ hd ∧ Describes σ' hd' ∧
        hd.manifest.revision ≤ hd'.manifest.revision ∧
        hd.state.appliedSeq ≤ hd'.state.appliedSeq

structure Onward (σ σ' : World) : Prop where
  commits : ∀ c ∈ σ.commits, c ∈ σ'.commits
  handles : ∀ h hd, σ.handles h = some hd →
    ∃ hd', σ'.handles h = some hd' ∧ hd.manifest.revision ≤ hd'.manifest.revision

theorem Onward.refl {σ : World} : Onward σ σ :=
  ⟨fun _ hc => hc, fun _ hd hh => ⟨hd, hh, Nat.le_refl _⟩⟩

theorem Onward.trans {σ₁ σ₂ σ₃ : World} (h : Onward σ₁ σ₂) (h' : Onward σ₂ σ₃) :
    Onward σ₁ σ₃ := by
  refine ⟨fun c hc => h'.commits c (h.commits c hc), fun i hd hh => ?_⟩
  obtain ⟨hd₂, hh₂, hle⟩ := h.handles i hd hh
  obtain ⟨hd₃, hh₃, hle'⟩ := h'.handles i hd₂ hh₂
  exact ⟨hd₃, hh₃, hle.trans hle'⟩

theorem Guar.onward {L : List Hazard} {t : ℕ} {σ σ' : World} (hi : Inv L σ) (hi' : Inv L σ')
    (hg : Guar L t σ σ') : Onward σ σ' := by
  refine ⟨(hg.extends hi hi').mem, fun h hd hh => ?_⟩
  obtain ⟨hd', hh', hguar⟩ := hg.handles h hd hh
  exact ⟨hd', hh', hguar.revision⟩

/-- Of the writers only those without the mutex could set the manifest field back. -/
def readHazards : List Hazard :=
  [.tornRead, .tornWrite, .landedTorn, .unlockedBackwards] ++ exactHazards ++
    [.unlockedHead, .unlockUnproven]

theorem exactLevel_read : ExactLevel readHazards :=
  fun _ hz => List.mem_append_left _ (List.mem_append_right _ hz)

theorem pairLevel_read : PairLevel readHazards :=
  ⟨by decide, by decide, by decide, .inr ⟨by decide, exactLevel_read.refs⟩⟩

theorem Inv.describes {σ : World} {h : ℕ} {hd : Handle} (hi : Inv readHazards σ)
    (hh : σ.handles h = some hd) (hfree : hd.syncMutex = none) : Describes σ hd := by
  have hinv := hi.handles h hd hh
  have hset := hinv.settled exactLevel_read hfree (.inr (by decide))
  obtain ⟨c, hc, hm, -⟩ := hinv.pair
  exact ⟨⟨c, hc, hm⟩, hset.same (by decide), hset.manifest⟩

theorem handle_reads_monotone (h : Reachable cfg readHazards s)
    (hlater : Later cfg readHazards s s') : MonotoneReads s.world s'.world := by
  have hi := h.inv pairLevel_read
  have hi' := Reachable.inv pairLevel_read (h.trans hlater)
  have hon : Onward s.world s'.world := h.rel pairLevel_read hlater (fun _ => .refl)
    (fun _ _ _ => Onward.trans) fun _ _ _ => Guar.onward
  intro i hd hd' hh hh' hfree hfree'
  have hdesc := hi.describes hh hfree
  have hdesc' := hi'.describes hh' hfree'
  have hrev : hd.manifest.revision ≤ hd'.manifest.revision := by
    obtain ⟨x, hx, hle⟩ := hon.handles i hd hh
    rw [hh'] at hx
    cases hx
    exact hle
  refine ⟨hdesc, hdesc', hrev, ?_⟩
  obtain ⟨c, hc, hm⟩ := hdesc.committed
  obtain ⟨c', hc', hm'⟩ := hdesc'.committed
  rw [hdesc.applied, hdesc'.applied, ← hm, ← hm']
  rw [← hm, ← hm'] at hrev
  exact hi'.linked.headSeq_le (hon.commits c hc) hc' hrev

theorem handle_reads_monotone_everyday : ∃ s, Reachable plainConfig readHazards s ∧
    (s.world.handles 0).map (fun hd => (hd.syncMutex, hd.manifest.headSeq)) = some (none, 2) ∧
    MonotoneReads World.init s.world := by
  obtain ⟨s, hr, hs⟩ := exists_clean (L := readHazards) (by decide) plainConfig everyday
    (p := fun s => (s.world.handles 0).map (fun hd => (hd.syncMutex, hd.manifest.headSeq)) =
      some (none, 2)) (by decide +kernel)
  exact ⟨s, hr, of_decide_eq_true hs, handle_reads_monotone .refl hr⟩

/-- A push has committed and not yet taken the mutex when a checkpoint syncs to it, commits and
adopts its own manifest. -/
def overtakenPush : List Step :=
  .spawn (push "" oidA) :: steps 0 9 ++ .spawn (.checkpoint 0) :: steps 1 41

/-- The handle then goes back to the push's manifest. -/
theorem handle_reads_go_back : ∃ cfg s s', Run cfg s ∧
    Reach exec (Job.run cfg) (fun _ _ _ _ => True) s s' ∧ ¬ MonotoneReads s.world s'.world := by
  obtain ⟨s, s', hr, hr', hs⟩ := exists_run_later plainConfig overtakenPush (steps 0 11)
    (p := fun s s' =>
      (s.world.handles 0).map (fun hd => (hd.syncMutex, hd.manifest.revision)) = some (none, 3) ∧
      (s'.world.handles 0).map (fun hd => (hd.syncMutex, hd.manifest.revision)) = some (none, 2))
    (by decide +kernel)
  refine ⟨plainConfig, s, s', hr, hr', fun hmono => ?_⟩
  obtain ⟨hthree, htwo⟩ := of_decide_eq_true hs
  obtain ⟨hd, hh, hpair⟩ := Option.map_eq_some_iff.mp hthree
  obtain ⟨hd', hh', hpair'⟩ := Option.map_eq_some_iff.mp htwo
  obtain ⟨hfree, hrev⟩ := Prod.mk.inj hpair
  obtain ⟨hfree', hrev'⟩ := Prod.mk.inj hpair'
  have hle := (hmono 0 hd hd' hh hh' hfree hfree').2.2.1
  omega

end Walgit
