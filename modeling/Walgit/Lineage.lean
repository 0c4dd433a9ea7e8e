import Walgit.Safety
import Walgit.Trace

/-!
# Lineage of manifests and segments

With the pair of manifest and version never torn, each committed manifest is
built on the content that was stored right before it, and the segments it lists
stay in the store as their committer wrote them. A pair read or written in two
steps, with another writer in between, breaks both.
-/

namespace Walgit

open Interleaving

variable {cfg : Config} {L : List Hazard} {s : Sys}

section Derivation

/-- Newest first: each manifest is one operation on the manifest stored right before it, and
that is what its writer started from. -/
def Derived (cs : List Commit) : Prop :=
  cs.IsChain fun c p => c.base = p.manifest ∧ c.op ≠ .create ∧ c.manifest = c.op.apply p.manifest

instance {cs : List Commit} : Decidable (Derived cs) :=
  inferInstanceAs (Decidable (cs.IsChain _))

theorem Linked.derived {cs : List Commit} (h : Linked cs) : Derived cs := by
  induction cs with
  | nil => exact .nil
  | cons c cs ih =>
    cases cs with
    | nil => exact .singleton c
    | cons p older =>
      exact .cons_cons ⟨h.1.base, h.1.notCreate, h.1.manifest⟩ (ih h.2)

/-- Some task is about to put a manifest built on `base`, conditioned on `version`. -/
def Sys.Puts (s : Sys) (version : ℕ) (base : Manifest) : Prop :=
  ∃ (t : ℕ) (op : ManifestOp) (slot : Option Slot) (k : Except PutError ℕ → Task Unit),
    s.tasks[t]? = some (.call (.putManifest (some version) base op slot) k)

theorem avoids_pair_put {c : Choice} {σ : World} {known : Option ℕ} {base : Manifest}
    {op : ManifestOp} {slot : Option Slot} :
    Avoids pairHazards (.putManifest known base op slot) c σ := by
  intro z hz hit
  simp only [pairHazards, List.mem_cons, List.not_mem_nil, or_false] at hz
  obtain rfl | rfl | rfl | rfl := hz
  · obtain ⟨h, seen, ho, -⟩ := hit
    cases ho
  · obtain ⟨h, own, v, ho, -⟩ := hit
    cases ho
  · obtain ⟨h, m, locked, ho, -⟩ := hit
    cases ho
  · obtain ⟨fresh, ho, -⟩ := hit
    cases ho

/-- A put that would succeed now is built on the content that is stored now: were it let
through, the manifest it commits would be derived. -/
theorem Reachable.put_base (h : Reachable cfg pairHazards s) {base : Manifest}
    (hput : s.Puts s.world.current.version base) : base = s.world.current.manifest := by
  obtain ⟨t, op, slot, k, ht⟩ := hput
  have hex : exec t (.putManifest (some s.world.current.version) base op slot) noFault s.world =
      some (.ok s.world.next, s.world.commit t base op slot) := by
    simp [exec, World.putManifest, noFault]
  have hstep : s.step exec (Job.run cfg) (.run t noFault) =
      some ⟨s.world.commit t base op slot, s.tasks.set t (k (.ok s.world.next))⟩ := by
    simp only [Pool.step, ht]
    rw [hex]
    rfl
  have hnext : Reachable cfg pairHazards
      ⟨s.world.commit t base op slot, s.tasks.set t (k (.ok s.world.next))⟩ := by
    refine h.tail ⟨.run t noFault, fun o k' ho => ?_, hstep⟩
    rw [ht] at ho
    cases ho
    exact avoids_pair_put
  obtain ⟨older, hold⟩ := (h.inv .refl).commits_eq
  have hlinked := (hnext.inv .refl).linked
  change Linked (_ :: s.world.commits) at hlinked
  rw [hold] at hlinked
  exact hlinked.1.base

theorem committed_manifest_derived (h : Reachable cfg pairHazards s) :
    Derived s.world.commits ∧
      ∀ base, s.Puts s.world.current.version base → base = s.world.current.manifest :=
  ⟨(h.inv .refl).linked.derived, fun _ hput => h.put_base hput⟩

theorem committed_manifest_derived_everyday : ∃ s, Reachable plainConfig pairHazards s ∧
    s.world.commits.length = 4 ∧ Derived s.world.commits := by
  obtain ⟨s, hr, hs⟩ := everyday_reachable (L := pairHazards) (by decide)
  refine ⟨s, hr, ?_, (committed_manifest_derived hr).1⟩
  simpa using congrArg List.length hs

/-- A checkpoint reads the manifest, a push commits, and the checkpoint reads the version. -/
def tornCheckpoint : List Step :=
  .spawn (push "" oidA) :: steps 0 20 ++ .spawn (.checkpoint 0) :: steps 1 32 ++
    .spawn (push oidA oidB) :: steps 2 20 ++ steps 1 2

/-- The second push was acknowledged; the newest manifest knows nothing of it. -/
theorem committed_manifest_lost : ∃ cfg s, Run cfg s ∧ ¬ Derived s.world.commits ∧
    s.world.commits.map (fun c => c.manifest.headSeq) = [1, 2, 1, 0] := by
  obtain ⟨s, hr, hs⟩ := exists_run plainConfig tornCheckpoint
    (p := fun s => ¬ Derived s.world.commits ∧
      s.world.commits.map (fun c => c.manifest.headSeq) = [1, 2, 1, 0]) (by decide +kernel)
  exact ⟨plainConfig, s, hr, of_decide_eq_true hs⟩

end Derivation

section Segments

structure SegmentsKept (σ : World) : Prop where
  stored : ∀ c ∈ σ.commits, ∀ seg ∈ c.manifest.logSegments,
    ∃ a ∈ σ.commits, ∃ slot t, a.slot = some slot ∧ a.task = some t ∧ slot.ref = seg ∧
      σ.segs seg.key = some ⟨slot.version, slot.entries, t⟩
  nonempty : ∀ slot ∈ slotsOf σ.commits, slot.seq ≤ slot.last
  increasing : (slotsOf σ.commits).Pairwise fun a b => a.last < b.seq

theorem Linked.listed_mem {cs : List Commit} (h : Linked cs) {c : Commit} (hc : c ∈ cs)
    {seg : LogSegmentRef} (hseg : seg ∈ c.manifest.logSegments) :
    ∃ a ∈ cs, ∃ slot, a.slot = some slot ∧ slot.ref = seg := by
  obtain ⟨older, hsuf, hl, -⟩ := h.split hc
  obtain ⟨slot, hslot, href⟩ := hl.listed hseg
  obtain ⟨a, ha, has⟩ := mem_slotsOf.mp hslot
  exact ⟨a, hsuf.subset ha, slot, has, href⟩

theorem committed_segments_kept (h : Reachable cfg pairHazards s) : SegmentsKept s.world := by
  have hi := h.inv .refl
  refine ⟨fun c hc seg hseg => ?_, fun slot hslot => ?_, hi.linked.slotsOf_pairwise⟩
  · obtain ⟨a, ha, slot, has, rfl⟩ := hi.linked.listed_mem hc hseg
    obtain ⟨t, hat, hstored⟩ := hi.stored a ha slot has
    exact ⟨a, ha, slot, t, has, hat, rfl, hstored⟩
  · exact (hi.linked.slotsOf_dense hslot).seq_le_last

theorem committed_segments_kept_everyday : ∃ s, Reachable plainConfig pairHazards s ∧
    s.world.commits.length = 4 ∧ SegmentsKept s.world := by
  obtain ⟨s, hr, hs⟩ := everyday_reachable (L := pairHazards) (by decide)
  refine ⟨s, hr, ?_, committed_segments_kept hr⟩
  simpa using congrArg List.length hs

def repack : Job := .compact 0 ⟨"pack", false, false, false⟩ [] 1

/-- A compaction reads the manifest; another one claims seq 2 and dies; a push burns 2, commits 3
and sweeps 2; the first compaction reads the push's version, claims 2 and commits it; the next
one takes 3 for an orphan. -/
def tornCompaction : List Step :=
  .spawn (push "" oidA) :: steps 0 20 ++ .spawn repack :: steps 1 3 ++ .spawn repack :: steps 2 7 ++
    .spawn (push oidA oidB) :: steps 3 29 ++ steps 1 10 ++ .spawn repack :: steps 4 22

theorem committed_segment_destroyed : ∃ cfg s, Run cfg s ∧ ¬ SegmentsKept s.world ∧
    (slotsOf s.world.commits).map Slot.seq = [1, 3, 2, 4] ∧ s.world.segs 3 = none := by
  obtain ⟨s, hr, hs⟩ := exists_run plainConfig tornCompaction
    (p := fun s => (slotsOf s.world.commits).map Slot.seq = [1, 3, 2, 4] ∧
      ¬ ((slotsOf s.world.commits).Pairwise fun a b => a.last < b.seq) ∧
      s.world.segs 3 = none) (by decide +kernel)
  obtain ⟨hseqs, hnot, hgone⟩ := of_decide_eq_true hs
  exact ⟨plainConfig, s, hr, fun hk => hnot hk.increasing, hseqs, hgone⟩

end Segments

end Walgit
