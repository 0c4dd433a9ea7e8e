import Walgit.Safety
import Walgit.Trace

/-!
# Well-formed manifests

The shape that every committed manifest has: disjoint segments in order between
the checkpoint and the head, and packs in order without a repeated checksum.
The segments are right whenever the chain of manifests is; the packs are right
unless a push publishes a pack that is already listed.
-/

namespace Walgit

open Interleaving

variable {cfg : Config} {s : Sys} {c p : Commit} {cs older : List Commit}

structure Manifest.WellFormed (m : Manifest) : Prop where
  disjoint : m.logSegments.Pairwise fun a b => a.lastSeq < b.firstSeq
  ranges : ∀ seg ∈ m.logSegments, m.checkpointSeq < seg.firstSeq ∧
    seg.firstSeq ≤ seg.lastSeq ∧ seg.lastSeq ≤ m.headSeq
  covered : (∃ seg, m.logSegments.getLast? = some seg ∧ seg.lastSeq = m.headSeq) ∨
    m.checkpointSeq = m.headSeq
  minSeq : ∀ cp, m.checkpoint = some cp → m.minSeq = cp.seq + 1
  packs : m.packs.Pairwise fun a b => a.seq ≤ b.seq
  distinct : (m.packs.map PackRef.checksum).Nodup

/-- Newest first: every manifest is well formed, and each is one revision past the one before
it, at its head or further. -/
structure WellFormed (cs : List Commit) : Prop where
  manifests : ∀ c ∈ cs, c.manifest.WellFormed
  onward : cs.IsChain fun c p =>
    c.manifest.revision = p.manifest.revision + 1 ∧ p.manifest.headSeq ≤ c.manifest.headSeq

/-- A push that puts a pack twice into the list it starts from. -/
def RepeatsPack (o : Op) : Prop :=
  ∃ known base packs seg slot, o = .putManifest known base (.push packs seg) slot ∧
    ((∃ p ∈ packs, p.checksum ∈ base.packs.map PackRef.checksum) ∨
      ¬ (packs.map PackRef.checksum).Nodup)

section Segments

theorem Linked.boundary (h : Linked cs) {a : Commit} (ha : a ∈ cs) {slot : Slot}
    (hs : slot ∈ slotsOf cs) :
    slot.last ≤ a.manifest.headSeq ∨ a.manifest.headSeq < slot.seq := by
  induction cs with
  | nil => cases ha
  | cons c cs ih =>
    obtain ⟨b, hb, hbs⟩ := mem_slotsOf.mp hs
    cases cs with
    | nil =>
      obtain rfl : c = .created := h
      rw [List.mem_singleton.mp hb] at hbs
      cases hbs
    | cons p older =>
      have hlast := (h.slot_dense hb hbs).2
      obtain rfl | ha' := List.mem_cons.mp ha
      · exact .inl (hlast.le.trans (h.le_head hb).1)
      · obtain rfl | hb' := List.mem_cons.mp hb
        · exact .inr ((h.2.le_head ha').1.trans_lt (h.1.slot slot hbs).1)
        · exact ih h.2 ha' (mem_slotsOf.mpr ⟨b, hb', hbs⟩)

theorem refs_pairwise (h : Linked cs) :
    ((slotsOf cs).map Slot.ref).Pairwise fun a b => a.lastSeq < b.firstSeq :=
  List.pairwise_map.mpr h.slotsOf_pairwise

theorem sortSegments_sublist {segs : List LogSegmentRef} (h : Linked cs)
    (hsub : segs.Sublist ((slotsOf cs).map Slot.ref)) : sortSegments segs = segs := by
  refine List.Pairwise.insertionSort_eq ?_
  refine ((refs_pairwise h).sublist hsub).imp_of_mem fun {a b} ha _ hab => ?_
  obtain ⟨slot, hslot, rfl⟩ := List.mem_map.mp (hsub.subset ha)
  have hle : slot.seq ≤ slot.last := (h.slotsOf_dense hslot).seq_le_last
  exact (Nat.le_of_lt (lt_of_le_of_lt hle hab))

theorem Linked.segments (h : Linked (c :: cs)) :
    c.manifest.logSegments.Sublist ((slotsOf (c :: cs)).map Slot.ref) := by
  induction cs generalizing c with
  | nil =>
    obtain rfl : c = .created := h
    exact List.nil_sublist _
  | cons p older ih =>
    have ih := ih h.2
    cases hs : c.slot with
    | some slot =>
      have hsub : (p.manifest.logSegments ++ [slot.ref]).Sublist
          ((slotsOf (c :: p :: older)).map Slot.ref) := by
        rw [slotsOf_cons_some hs, List.map_append]
        exact ih.append (List.Sublist.refl _)
      rw [h.1.logSegments_some hs, sortSegments_sublist h hsub]
      exact hsub
    | none =>
      rw [slotsOf_cons_none hs]
      rcases h.1.logSegments_none hs with ⟨cp, -, -, heq⟩ | ⟨-, heq⟩
      · rw [heq]
        exact List.filter_sublist.trans ih
      · rw [heq]
        exact ih

theorem Linked.last_segment (h : Linked (c :: p :: older)) {slot : Slot} (hs : c.slot = some slot) :
    c.manifest.logSegments = p.manifest.logSegments ++ [slot.ref] := by
  rw [h.1.logSegments_some hs]
  refine sortSegments_sublist h ?_
  rw [slotsOf_cons_some hs, List.map_append]
  exact (Linked.segments h.2).append (List.Sublist.refl _)

theorem Linked.past_checkpoint (h : Linked (c :: cs)) {seg : LogSegmentRef}
    (hseg : seg ∈ c.manifest.logSegments) : c.manifest.checkpointSeq < seg.lastSeq := by
  induction cs generalizing c with
  | nil =>
    obtain rfl : c = .created := h
    cases hseg
  | cons p older ih =>
    cases hs : c.slot with
    | some slot =>
      rw [h.last_segment hs] at hseg
      rw [h.1.checkpointSeq hs]
      rcases List.mem_append.mp hseg with hseg | hseg
      · exact ih h.2 hseg
      · rw [List.mem_singleton.mp hseg]
        have hcp := h.2.checkpointSeq_le
        have hslot := h.1.slot slot hs
        have hlast := hslot.2.seq_le_last
        change p.manifest.checkpointSeq < slot.last
        omega
    | none =>
      rcases h.1.logSegments_none hs with ⟨cp, -, hcp, heq⟩ | ⟨hcp, heq⟩
      · rw [heq] at hseg
        rw [Manifest.checkpointSeq, hcp]
        exact of_decide_eq_true (List.mem_filter.mp hseg).2
      · rw [heq] at hseg
        rw [Manifest.checkpointSeq, hcp]
        exact ih h.2 hseg

theorem Linked.slot_pos (h : Linked cs) {slot : Slot} (hs : slot ∈ slotsOf cs) : 0 < slot.seq := by
  obtain ⟨b, hb, hbs⟩ := mem_slotsOf.mp hs
  rcases h.follows hb with rfl | ⟨p, older, -, hf⟩
  · cases hbs
  · exact Nat.zero_lt_of_lt (hf.slot slot hbs).1

theorem Linked.ranges (h : Linked (c :: cs)) {seg : LogSegmentRef}
    (hseg : seg ∈ c.manifest.logSegments) : c.manifest.checkpointSeq < seg.firstSeq ∧
      seg.firstSeq ≤ seg.lastSeq ∧ seg.lastSeq ≤ c.manifest.headSeq := by
  have hpast := h.past_checkpoint hseg
  obtain ⟨slot, hslot, rfl⟩ := List.mem_map.mp (h.segments.subset hseg)
  obtain ⟨b, hb, hbs⟩ := mem_slotsOf.mp hslot
  refine ⟨?_, (h.slotsOf_dense hslot).seq_le_last, ?_⟩
  · cases hcp : c.manifest.checkpoint with
    | none =>
      rw [Manifest.checkpointSeq, hcp]
      exact h.slot_pos hslot
    | some cp =>
      rw [Manifest.checkpointSeq, hcp] at hpast ⊢
      obtain ⟨a, ha, hhead⟩ := h.checkpoint_boundary hcp
      rcases h.boundary ha hslot with hle | hlt
      · rw [hhead] at hle
        exact absurd hpast (Nat.not_lt_of_le hle)
      · rwa [hhead] at hlt
  · change slot.last ≤ c.manifest.headSeq
    rw [(h.slot_dense hb hbs).2]
    exact (h.le_head hb).1

theorem getLast_filter {α : Type} {l : List α} {q : α → Bool} {a : α} (hl : l.getLast? = some a)
    (ha : q a = true) : (l.filter q).getLast? = some a := by
  obtain ⟨ys, rfl⟩ := List.getLast?_eq_some_iff.mp hl
  simp [List.filter_append, ha]

theorem Linked.covered (h : Linked (c :: cs)) :
    (∃ seg, c.manifest.logSegments.getLast? = some seg ∧ seg.lastSeq = c.manifest.headSeq) ∨
      c.manifest.checkpointSeq = c.manifest.headSeq := by
  induction cs generalizing c with
  | nil =>
    obtain rfl : c = .created := h
    exact .inr rfl
  | cons p older ih =>
    have hhead := h.1.headSeq
    cases hs : c.slot with
    | some slot =>
      rw [hs] at hhead
      refine .inl ⟨slot.ref, ?_, hhead.symm⟩
      rw [h.last_segment hs, List.getLast?_append]
      rfl
    | none =>
      rw [hs] at hhead
      rcases h.1.logSegments_none hs with ⟨cp, hop, hcp, heq⟩ | ⟨hcp, heq⟩
      · -- the last segment is folded only by a checkpoint at the head
        have hseq : c.manifest.checkpointSeq = cp.seq := by rw [Manifest.checkpointSeq, hcp]; rfl
        have hle := h.checkpointSeq_le
        rw [heq, hseq, hhead]
        rw [hseq, hhead] at hle
        change cp.seq ≤ p.manifest.headSeq at hle
        change (∃ seg : LogSegmentRef, _ ∧ seg.lastSeq = p.manifest.headSeq) ∨
          cp.seq = p.manifest.headSeq
        rcases ih h.2 with ⟨seg, hlast, hend⟩ | hfull
        · rcases hle.lt_or_eq with hlt | heq
          · exact .inl ⟨seg, getLast_filter hlast (decide_eq_true (hend ▸ hlt)), hend⟩
          · exact .inr heq
        · -- a checkpoint over one at the head is not taken
          cases hold : p.manifest.checkpoint with
          | none =>
            rw [Manifest.checkpointSeq, hold] at hfull
            exact .inr (by simp only [Option.elim_none] at hfull; omega)
          | some old =>
            have hdue := h.1.orderly.due cp old hop hold
            rw [Manifest.checkpointSeq, hold] at hfull
            exact absurd hfull (Nat.ne_of_lt hdue)
      · rw [heq, hhead, Manifest.checkpointSeq, hcp]
        exact ih h.2

end Segments

section Packs

theorem annotatePack_checksums {checksum : String} {rev bitmap graph : Bool}
    {packs : List PackRef} : (annotatePack checksum rev bitmap graph packs).map PackRef.checksum =
      packs.map PackRef.checksum := by
  induction packs with
  | nil => rfl
  | cons p ps ih =>
    unfold annotatePack
    split
    · rfl
    · rw [List.map_cons, List.map_cons, ih]

theorem annotatePack_seqs (checksum : String) (rev bitmap graph : Bool) {packs : List PackRef} :
    (annotatePack checksum rev bitmap graph packs).map PackRef.seq = packs.map PackRef.seq := by
  induction packs with
  | nil => rfl
  | cons p ps ih =>
    unfold annotatePack
    split
    · rfl
    · rw [List.map_cons, List.map_cons, ih]

theorem pairwise_sortPacks {packs : List PackRef} :
    (sortPacks packs).Pairwise fun a b => a.seq ≤ b.seq := by
  have : Std.Total fun a b : PackRef => a.seq ≤ b.seq := ⟨fun a b => Nat.le_total a.seq b.seq⟩
  have : IsTrans PackRef fun a b => a.seq ≤ b.seq := ⟨fun _ _ _ => Nat.le_trans⟩
  exact List.pairwise_insertionSort _ packs

theorem nodup_sortPacks {packs : List PackRef} (h : (packs.map PackRef.checksum).Nodup) :
    ((sortPacks packs).map PackRef.checksum).Nodup :=
  ((List.perm_insertionSort _ packs).map PackRef.checksum).nodup_iff.mpr h

theorem nodup_compactPacks {pack : PackRef} {supersedes : List String} {packs : List PackRef}
    (h : (packs.map PackRef.checksum).Nodup) :
    ((compactPacks pack supersedes packs).map PackRef.checksum).Nodup := by
  unfold compactPacks
  rw [List.map_append, List.nodup_append]
  refine ⟨h.sublist (List.filter_sublist.map _), by simp, ?_⟩
  intro a ha b hb
  obtain ⟨p, hp, rfl⟩ := List.mem_map.mp ha
  obtain rfl : b = pack.checksum := by simpa using hb
  have := (List.mem_filter.mp hp).2
  simp_all

/-- Every push of the history put new packs into the list it started from. -/
def PacksFresh (cs : List Commit) : Prop :=
  ∀ c ∈ cs, ∀ packs seg, c.op = .push packs seg →
    (∀ p ∈ packs, p.checksum ∉ c.base.packs.map PackRef.checksum) ∧
      (packs.map PackRef.checksum).Nodup

theorem Linked.packs (h : Linked (c :: cs)) :
    c.manifest.packs.Pairwise fun a b => a.seq ≤ b.seq := by
  induction cs generalizing c with
  | nil =>
    obtain rfl : c = .created := h
    exact .nil
  | cons p older ih =>
    have ih := ih h.2
    rw [h.1.manifest]
    cases hop : c.op with
    | create => exact absurd hop h.1.notCreate
    | push packs seg => exact pairwise_sortPacks
    | compact pack supersedes seg => exact pairwise_sortPacks
    | settings doc seg => exact ih
    | checkpoint cp => exact ih
    | annotate checksum rev bitmap graph =>
      have hseqs : (p.manifest.packs.map PackRef.seq).Pairwise (· ≤ ·) := List.pairwise_map.mpr ih
      rw [← annotatePack_seqs checksum rev bitmap graph] at hseqs
      exact List.pairwise_map.mp hseqs

theorem Linked.distinct (h : Linked (c :: cs)) (hfresh : PacksFresh (c :: cs)) :
    (c.manifest.packs.map PackRef.checksum).Nodup := by
  induction cs generalizing c with
  | nil =>
    obtain rfl : c = .created := h
    exact .nil
  | cons p older ih =>
    have ih := ih h.2 fun a ha => hfresh a (List.mem_cons_of_mem c ha)
    have hbase := h.1.base
    rw [h.1.manifest]
    cases hop : c.op with
    | create => exact absurd hop h.1.notCreate
    | push packs seg =>
      obtain ⟨hnew, hnodup⟩ := hfresh c List.mem_cons_self packs seg hop
      refine nodup_sortPacks ?_
      rw [List.map_append, List.nodup_append]
      refine ⟨ih, hnodup, ?_⟩
      rintro a ha b hb rfl
      obtain ⟨q, hq, rfl⟩ := List.mem_map.mp hb
      exact hnew q hq (hbase ▸ ha)
    | compact pack supersedes seg => exact nodup_sortPacks (nodup_compactPacks ih)
    | settings doc seg => exact ih
    | checkpoint cp => exact ih
    | annotate checksum rev bitmap graph =>
      change ((annotatePack checksum rev bitmap graph p.manifest.packs).map _).Nodup
      rw [annotatePack_checksums]
      exact ih

end Packs

theorem Linked.wellFormed (h : Linked (c :: cs)) (hfresh : PacksFresh (c :: cs)) :
    c.manifest.WellFormed where
  disjoint := (refs_pairwise h).sublist h.segments
  ranges _ hseg := h.ranges hseg
  covered := h.covered
  minSeq cp hcp := by
    rw [h.minSeq, hcp]
    rfl
  packs := h.packs
  distinct := h.distinct hfresh

theorem Linked.onward (h : Linked cs) : cs.IsChain fun c p =>
    c.manifest.revision = p.manifest.revision + 1 ∧ p.manifest.headSeq ≤ c.manifest.headSeq := by
  induction cs with
  | nil => exact .nil
  | cons c cs ih =>
    cases cs with
    | nil => exact .singleton c
    | cons p older => exact .cons_cons ⟨h.1.revision, h.1.headSeq_le⟩ (ih h.2)

theorem packsFresh_step {t : ℕ} {o : Op} {ch : Choice} {σ σ' : World} {r : o.Res}
    (hno : ¬ RepeatsPack o) (hex : exec t o ch σ = some (r, σ')) (hf : PacksFresh σ.commits) :
    PacksFresh σ'.commits := by
  cases exec_store hex with
  | same hc => rwa [hc]
  | write seq entries _ _ hσ => rwa [hσ]
  | remove seq hσ => rwa [hσ]
  | commit base op slot ho hσ =>
    rw [hσ]
    intro a ha packs seg hop
    obtain rfl | ha := List.mem_cons.mp ha
    · have hop : op = .push packs seg := hop
      refine ⟨fun q hq hmem => hno ?_, ?_⟩
      · exact ⟨_, base, packs, seg, slot, hop ▸ ho, .inl ⟨q, hq, hmem⟩⟩
      · by_contra hdup
        exact hno ⟨_, base, packs, seg, slot, hop ▸ ho, .inr hdup⟩
    · exact hf a ha packs seg hop

/-- The pair is not torn and no push repeats a pack. -/
def ManifestsOk (o : Op) (ch : Choice) (σ : World) : Prop :=
  Avoids pairHazards o ch σ ∧ ¬ RepeatsPack o

theorem committed_manifests_wellFormed (h : RunIf cfg ManifestsOk s) :
    WellFormed s.world.commits := by
  have hl : Linked s.world.commits :=
    ((h.reachable fun _ _ _ hok => hok.1).inv .refl).linked
  have hf : PacksFresh s.world.commits := by
    refine h.keeps (L := pairHazards) (J := fun σ => PacksFresh σ.commits) .refl
      (fun _ _ _ hok => hok.1) ?_ fun t o ch σ r σ' _ _ _ hok hex => packsFresh_step hok.2 hex
    intro a ha packs seg hop
    rw [List.mem_singleton.mp ha] at hop
    cases hop
  refine ⟨fun a ha => ?_, hl.onward⟩
  obtain ⟨older, hsuf, hla, -⟩ := hl.split ha
  exact hla.wellFormed fun b hb => hf b (hsuf.subset hb)

def Op.repeatsPack : Op → Bool
  | .putManifest _ base (.push packs _) _ =>
    (packs.any fun p => p.checksum ∈ base.packs.map PackRef.checksum) ||
      !decide (packs.map PackRef.checksum).Nodup
  | _ => false

theorem manifestsOk_of_test {o : Op} {ch : Choice} {σ : World}
    (h : (o.clean ch σ && !o.repeatsPack) = true) : ManifestsOk o ch σ := by
  obtain ⟨hc, hr⟩ := Bool.and_eq_true_iff.mp h
  refine ⟨avoids_of_clean (by decide) hc, ?_⟩
  rintro ⟨known, base, packs, seg, slot, rfl, hrep⟩
  simp [Op.repeatsPack] at hr
  rcases hrep with ⟨p, hp, hmem⟩ | hdup
  · obtain ⟨q, hq, heq⟩ := List.mem_map.mp hmem
    exact hr.1 p hp q hq heq
  · exact hdup hr.2

/-- A push of one ref with a pack, by a sender that has synced. -/
def pushPack (pack name old new : String) : Job :=
  .publish 0 [{ pushRef name old new with pack := some pack }]

theorem committed_manifests_wellFormed_packed : ∃ s, RunIf plainConfig ManifestsOk s ∧
    s.world.current.manifest.packs.map PackRef.checksum = ["pack-a", "pack-b"] ∧
    WellFormed s.world.commits := by
  obtain ⟨s, hr, hs⟩ := exists_runIf
    (fun o ch σ => o.clean ch σ && !o.repeatsPack) (fun _ _ _ => manifestsOk_of_test) plainConfig
    (.spawn (.sync 0) :: steps 0 19 ++ .spawn (pushPack "pack-a" mainRef "" oidA) :: steps 1 21 ++
      .spawn (pushPack "pack-b" devRef "" oidB) :: steps 2 21)
    (p := fun s => s.world.current.manifest.packs.map PackRef.checksum = ["pack-a", "pack-b"])
    (by decide +kernel)
  exact ⟨s, hr, of_decide_eq_true hs, committed_manifests_wellFormed hr⟩

/-- Two pushes, one after the other, of the same pack. -/
theorem pack_listed_twice : ∃ cfg s, Run cfg s ∧ ¬ WellFormed s.world.commits ∧
    s.world.current.manifest.packs = [⟨"pack-a", 1, 0, false, false, false⟩,
      ⟨"pack-a", 2, 0, false, false, false⟩] := by
  obtain ⟨s, hr, hs⟩ := exists_run plainConfig
    (.spawn (pushPack "pack-a" mainRef "" oidA) :: steps 0 21 ++
      .spawn (pushPack "pack-a" devRef "" oidA) :: steps 1 21)
    (p := fun s => s.world.current ∈ s.world.commits ∧
      s.world.current.manifest.packs = [⟨"pack-a", 1, 0, false, false, false⟩,
        ⟨"pack-a", 2, 0, false, false, false⟩]) (by decide +kernel)
  obtain ⟨hmem, hpacks⟩ := of_decide_eq_true hs
  refine ⟨plainConfig, s, hr, fun hwf => ?_, hpacks⟩
  have hnodup := (hwf.manifests _ hmem).distinct
  rw [hpacks] at hnodup
  simp at hnodup

end Walgit
