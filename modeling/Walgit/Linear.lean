import Walgit.Safety
import Walgit.Trace

/-!
# Publishing is linearizable

Two sides of one publish. Its old values are those of the log it is appended
to, update by update. It is committed at most once, and when the answer to its
CAS is lost, reading the manifest back decides rightly whether it was.
-/

namespace Walgit

open Interleaving Replay

variable {cfg : Config} {s : Sys}

section OldValues

/-- Every old value is the value of its ref in the fold of what precedes the update: the
entries with smaller numbers and the updates before it in its own entry. -/
structure Linearized (log : List LogEntry) : Prop where
  ordered : log.Pairwise fun a b => a.seq < b.seq
  old : ∀ pre e post, log = pre ++ e :: post → ∀ us u vs, e.updates = us ++ u :: vs →
    u.isSymbolic = false →
      OldMatches (replay (replayEntries LogEntry.writes RefState.init pre)
        (us.flatMap RefUpdate.writes)) u

theorem CasOk.linearized {log : List LogEntry} (h : CasOk RefState.init log)
    (hord : log.Pairwise fun a b => a.seq < b.seq) : Linearized log := by
  refine ⟨hord, fun pre e post hlog us u vs hus hu => ?_⟩
  rw [hlog, casOk_append] at h
  have hupdates := h.2.1
  rw [hus, casOkUpdates_append] at hupdates
  exact hupdates.2.1 hu

def casHazards : List Hazard := pairHazards ++ refsHazards ++ [.staleView, .repeatedRef]

theorem pairLevel_cas : PairLevel casHazards := .of_subset <|
  fun _ hz => List.mem_append_left _ (List.mem_append_left _ hz)

theorem casLevel : CasLevel casHazards :=
  ⟨fun _ hz => List.mem_append_left _ (List.mem_append_right _ hz), by decide, by decide⟩

theorem committed_updates_linearized (h : Reachable cfg casHazards s) :
    Linearized s.world.log := by
  have hi := h.inv pairLevel_cas
  exact (hi.cas casLevel).linearized hi.linked.log_pairwise

theorem committed_updates_linearized_everyday : ∃ s, Reachable plainConfig casHazards s ∧
    s.world.commits.length = 4 ∧ Linearized s.world.log := by
  obtain ⟨s, hr, hs⟩ := everyday_reachable (L := casHazards) (by decide)
  refine ⟨s, hr, ?_, committed_updates_linearized hr⟩
  simpa using congrArg List.length hs

def createdTwice : List RefUpdate := [⟨mainRef, "", oidA, ""⟩, ⟨mainRef, "", oidB, ""⟩]

/-- One transaction that creates a ref twice: both updates are compared with the refs before. -/
def doubleCreate : List Step :=
  .spawn (.publish 0 [⟨none, ⟨createdTwice, true⟩, true, none⟩]) :: steps 0 16

theorem committed_update_not_linearized :
    ∃ cfg s, Run cfg s ∧ ¬ Linearized s.world.log := by
  obtain ⟨s, hr, hs⟩ := exists_run plainConfig doubleCreate
    (p := fun s => s.world.log.map LogEntry.updates = [createdTwice]) (by decide +kernel)
  refine ⟨plainConfig, s, hr, fun hl => ?_⟩
  obtain ⟨e, hlog, he⟩ := List.map_eq_singleton_iff.mp (of_decide_eq_true hs)
  have hold := hl.old [] e [] hlog [⟨mainRef, "", oidA, ""⟩] ⟨mainRef, "", oidB, ""⟩ [] he rfl
  rw [OldMatches, if_pos (by decide)] at hold
  exact absurd hold (by decide)

end OldValues

section Verdict

/-- One batch, one commit; and what its writer was told about an unanswered CAS is so. -/
structure PublishExact (σ : World) : Prop where
  once : ∀ t, ∀ a ∈ σ.commits, ∀ b ∈ σ.commits, a.task = some t → b.task = some t → a = b
  verdict : ∀ v ∈ σ.verdicts, v.found = true ↔ σ.Committed v.slot
  uncommitted : ∀ r ∈ σ.replies, ∀ a ∈ r.answers, ∀ cause, a.2 = .failed cause →
    cause.uncommitted → ∀ c ∈ σ.commits, c.task ≠ some r.task

def landingHazards : List Hazard := pairHazards ++ [.landedTrimmed]

theorem publish_exact (h : Reachable cfg landingHazards s) : PublishExact s.world := by
  have hi := h.inv (.of_subset (List.subset_append_left _ _))
  have hL : Hazard.landedTrimmed ∈ landingHazards := by decide
  refine ⟨fun t a ha b hb hat hbt => ?_, fun v hv => (hi.verdicts v hv).exact hL,
    fun r hr => (hi.replies r hr).uncommitted hL⟩
  have hnodup : (s.world.commits.map Commit.task).Nodup := List.pairwise_map.mpr hi.once
  exact List.inj_on_of_nodup_map hnodup ha hb (hat.trans hbt.symm)

/-- A push whose CAS lands unanswered and is read back at once. -/
def landedPush : List Step :=
  .spawn (.sync 0) :: steps 0 19 ++ .spawn (push "" oidA) :: steps 1 8 ++
    .run 1 ⟨.errApplied, 0, false⟩ :: steps 1 13

theorem publish_exact_landed : ∃ s, Reachable plainConfig landingHazards s ∧
    (s.world.verdicts.map fun v => (v.slot.seq, v.found)) = [(1, true)] ∧
    s.world.replies.length = 1 ∧ PublishExact s.world := by
  obtain ⟨s, hr, hs⟩ := exists_clean (L := landingHazards) (by decide) plainConfig landedPush
    (p := fun s => (s.world.verdicts.map fun v => (v.slot.seq, v.found)) = [(1, true)] ∧
      s.world.replies.length = 1) (by decide +kernel)
  obtain ⟨hverdicts, hreplies⟩ := of_decide_eq_true hs
  exact ⟨s, hr, hverdicts, hreplies, publish_exact hr⟩

/-- The CAS lands unanswered; before the writer reads the manifest back, a checkpoint folds its
segment. -/
def trimmedPush : List Step :=
  .spawn (push "" oidA) :: steps 0 8 ++ .run 0 ⟨.errApplied, 0, false⟩ ::
    .spawn (.checkpoint 0) :: steps 1 37 ++ steps 0 2

theorem publish_verdict_wrong : ∃ cfg s, Run cfg s ∧ ¬ PublishExact s.world := by
  obtain ⟨s, hr, hs⟩ := exists_run plainConfig trimmedPush
    (p := fun s => s.world.commits.any (fun c => c.task = some 0) ∧
      s.world.replies.any fun r => r.task = 0 ∧
        r.answers.any fun a => match a.2 with
          | .failed .notLanded => true
          | _ => false) (by decide +kernel)
  obtain ⟨hcommit, hreply⟩ := of_decide_eq_true hs
  obtain ⟨c, hc, hct⟩ := List.any_eq_true.mp hcommit
  obtain ⟨r, hr', hrt⟩ := List.any_eq_true.mp hreply
  obtain ⟨hrt, hans⟩ := of_decide_eq_true hrt
  obtain ⟨a, ha, hfail⟩ := List.any_eq_true.mp hans
  have hcause : a.2 = .failed .notLanded := by
    split at hfail
    · assumption
    · cases hfail
  refine ⟨plainConfig, s, hr, fun hx => hx.uncommitted r hr' a ha _ hcause trivial c hc ?_⟩
  rw [hrt]
  exact of_decide_eq_true hct

end Verdict

end Walgit
