import Walgit.Safety
import Walgit.Trace

/-!
# Entry times

An entry's time is its sender's explicit one or the writer's clock when the
segment is written. Between that moment and the CAS that commits the segment
nothing is committed, so a segment stamped in order and not behind the log
keeps the log in order of time. Nothing but the floor of one process checks
that it is, and the floor only for explicit times.
-/

namespace Walgit

open Interleaving

variable {cfg : Config} {s : Sys} {σ σ' : World} {t : ℕ}

/-- Times follow seqs, and cutting at a time keeps the entries up to that time. -/
structure TimeOrdered (log : List LogEntry) : Prop where
  ordered : log.Pairwise fun a b => a.seq < b.seq ∧ a.createdAt ≤ b.createdAt
  cut : ∀ time, log.takeWhile (fun e => e.createdAt ≤ time) = log.filter fun e => e.createdAt ≤ time

/-- The entries are stamped in order and none before an entry of the log. -/
def StampedAfter (log entries : List LogEntry) : Prop :=
  (entries.Pairwise fun a b => a.createdAt ≤ b.createdAt) ∧
    ∀ e ∈ log, ∀ e' ∈ entries, e.createdAt ≤ e'.createdAt

instance {log entries : List LogEntry} : Decidable (StampedAfter log entries) :=
  inferInstanceAs (Decidable (_ ∧ _))

/-- The pair is not torn, and a segment is not stamped behind what is committed. -/
def TimesOk (o : Op) (ch : Choice) (σ : World) : Prop :=
  Avoids pairHazards o ch σ ∧
    ∀ seq entries, o = .putSegment seq entries → StampedAfter σ.log entries

theorem takeWhile_of_ordered {log : List LogEntry} {cut : ℕ}
    (h : log.Pairwise fun a b => a.createdAt ≤ b.createdAt) :
    log.takeWhile (fun e => e.createdAt ≤ cut) = log.filter fun e => e.createdAt ≤ cut := by
  induction log with
  | nil => rfl
  | cons e log ih =>
    obtain ⟨hle, hrest⟩ := List.pairwise_cons.mp h
    by_cases he : e.createdAt ≤ cut
    · simp [he, ih hrest]
    · have hnone : log.filter (fun x => x.createdAt ≤ cut) = [] := by
        refine List.filter_eq_nil_iff.mpr fun x hx => ?_
        have := hle x hx
        simp only [decide_eq_true_eq]
        omega
      simp [he, hnone]

theorem mem_logOf {cs : List Commit} {e : LogEntry} :
    e ∈ logOf cs ↔ ∃ c ∈ cs, e ∈ c.entries := by
  induction cs with
  | nil => simp [logOf]
  | cons c cs ih => simp [logOf, ih, or_comm]

/-- Each stored segment is stamped in order, after every commit older than itself; and the log is
in order of time. -/
structure Stamped (σ : World) : Prop where
  segs : ∀ q o, σ.segs q = some o → (o.entries.Pairwise fun a b => a.createdAt ≤ b.createdAt) ∧
    ∀ a ∈ σ.commits, a.version < o.version → ∀ e ∈ a.entries, ∀ e' ∈ o.entries,
      e.createdAt ≤ e'.createdAt
  log : σ.log.Pairwise fun a b => a.createdAt ≤ b.createdAt

theorem Stamped.write {seq : ℕ} {entries : List LogEntry} (h : Stamped σ)
    (hs : StampedAfter σ.log entries) : Stamped (σ.writeSegment t seq entries) := by
  refine ⟨fun q o ho => ?_, h.log⟩
  by_cases hq : q = seq
  · subst hq
    rw [writeSegment_self] at ho
    cases ho
    exact ⟨hs.1, fun a ha _ e he => hs.2 e (mem_logOf.mpr ⟨a, ha, he⟩)⟩
  · rw [writeSegment_of_ne hq] at ho
    exact h.segs q o ho

theorem Stamped.remove {seq : ℕ} (h : Stamped σ) : Stamped (σ.setSegment seq none) := by
  refine ⟨fun q o ho => ?_, h.log⟩
  by_cases hq : q = seq
  · subst hq
    rw [setSegment_self] at ho
    cases ho
  · rw [setSegment_of_ne hq] at ho
    exact h.segs q o ho

/-- The commit's segment is newer than the manifest it was put on, so it was stamped after
everything that is committed. -/
theorem Stamped.commit {L : List Hazard} {base : Manifest} {op : ManifestOp} {slot : Option Slot}
    (h : Stamped σ) (hi : Inv L σ) (hi' : Inv L (σ.commit t base op slot)) :
    Stamped (σ.commit t base op slot) := by
  obtain ⟨older, hc⟩ := hi.commits_eq
  have hl : Linked (⟨σ.next, base, op.apply base, op, slot, some t⟩ :: σ.commits) := hi'.linked
  constructor
  · intro q o ho
    obtain ⟨hord, hold⟩ := h.segs q o ho
    refine ⟨hord, fun a ha hv => ?_⟩
    obtain rfl | ha := List.mem_cons.mp ha
    · have := hi.segVersion q o ho
      exact absurd hv (by change ¬ σ.next < o.version; omega)
    · exact hold a ha hv
  · change (logOf σ.commits ++ slot.elim [] Slot.entries).Pairwise _
    cases slot with
    | none =>
      rw [Option.elim_none, List.append_nil]
      exact h.log
    | some s =>
      obtain ⟨t', -, ho⟩ := hi'.stored _ List.mem_cons_self s rfl
      obtain ⟨hord, hold⟩ := h.segs s.seq _ ho
      refine List.pairwise_append.mpr ⟨h.log, hord, fun e he e' he' => ?_⟩
      obtain ⟨a, ha, hea⟩ := mem_logOf.mp he
      have hcur : σ.current.version < s.version := by
        rw [hc] at hl
        exact hl.1.orderly.claimed _ s rfl rfl
      have hle : a.version ≤ σ.current.version := by
        have hlin := hi.linked
        rw [hc] at hlin ha
        exact (hlin.le_head ha).2.1
      exact hold a ha (hle.trans_lt hcur) e hea e' he'

theorem stamped_step {o : Op} {ch : Choice} {r : o.Res} (hi : Inv pairHazards σ)
    (hi' : Inv pairHazards σ') (hok : TimesOk o ch σ) (hex : exec t o ch σ = some (r, σ'))
    (h : Stamped σ) : Stamped σ' := by
  cases exec_store hex with
  | same hc hs =>
    refine ⟨?_, ?_⟩
    · rw [hc, hs]
      exact h.segs
    · rw [World.log, hc]
      exact h.log
  | commit base op slot _ hσ =>
    subst hσ
    exact h.commit hi hi'
  | write seq entries ho _ hσ =>
    rw [hσ]
    exact h.write (hok.2 seq entries ho)
  | remove seq hσ =>
    rw [hσ]
    exact h.remove

theorem entry_times_ordered (h : RunIf cfg TimesOk s) : TimeOrdered s.world.log := by
  have hi := (h.reachable fun _ _ _ hok => hok.1).inv .refl
  have hst : Stamped s.world := by
    refine h.keeps (L := pairHazards) .refl (fun _ _ _ hok => hok.1) ?_
      fun t o ch σ r σ' hi hi' _ hok hex => stamped_step hi hi' hok hex
    exact ⟨fun _ _ ho => (nomatch ho), List.Pairwise.nil⟩
  exact ⟨hi.linked.log_pairwise.and hst.log, fun cut => takeWhile_of_ordered hst.log⟩

def stampedAfter (o : Op) (σ : World) : Bool :=
  match o with
  | .putSegment _ entries => StampedAfter σ.log entries
  | _ => true

theorem timesOk_of_test {o : Op} {ch : Choice}
    (h : (o.clean ch σ && stampedAfter o σ) = true) : TimesOk o ch σ := by
  obtain ⟨hc, hs⟩ := Bool.and_eq_true_iff.mp h
  refine ⟨avoids_of_clean (by decide) hc, ?_⟩
  rintro seq entries rfl
  exact of_decide_eq_true hs

/-- Task `t` takes `n` steps on an instance whose clock says `now`. -/
def stepsAt (now t n : ℕ) : List Step := List.replicate n (.run t ⟨.ok, now, false⟩)

/-- A push on one instance, then a second instance opens the repository and pushes. -/
def twoClocks (first second : ℕ) : List Step :=
  .spawn (.sync 0) :: steps 0 19 ++ .spawn (push "" oidA) :: stepsAt first 1 20 ++
    .spawn (.openRepo 1 none) :: steps 2 17 ++
    .spawn (.publish 1 [pushRef mainRef oidA oidB]) :: stepsAt second 3 20

theorem entry_times_ordered_two_clocks : ∃ s, RunIf plainConfig TimesOk s ∧
    s.world.log.map (fun e => (e.seq, e.createdAt)) = [(1, 5), (2, 7)] ∧
    TimeOrdered s.world.log := by
  obtain ⟨s, hr, hs⟩ := exists_runIf (fun o ch σ => o.clean ch σ && stampedAfter o σ)
    (fun _ _ _ => timesOk_of_test) plainConfig (twoClocks 5 7)
    (p := fun s => s.world.log.map (fun e => (e.seq, e.createdAt)) = [(1, 5), (2, 7)])
    (by decide +kernel)
  exact ⟨s, hr, of_decide_eq_true hs, entry_times_ordered hr⟩

/-- The second instance's clock is behind. -/
theorem entry_time_goes_back : ∃ cfg s, Run cfg s ∧ ¬ TimeOrdered s.world.log ∧
    s.world.log.map (fun e => (e.seq, e.createdAt)) = [(1, 5), (2, 3)] := by
  obtain ⟨s, hr, hs⟩ := exists_run plainConfig (twoClocks 5 3)
    (p := fun s => s.world.log.map (fun e => (e.seq, e.createdAt)) = [(1, 5), (2, 3)])
    (by decide +kernel)
  have hlog := of_decide_eq_true hs
  refine ⟨plainConfig, s, hr, fun hord => ?_, hlog⟩
  have hp : (s.world.log.map fun e => (e.seq, e.createdAt)).Pairwise fun a b =>
      a.1 < b.1 ∧ a.2 ≤ b.2 := List.pairwise_map.mpr hord.ordered
  rw [hlog] at hp
  simp at hp

end Walgit
