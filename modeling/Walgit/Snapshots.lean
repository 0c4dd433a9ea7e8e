import Walgit.Safety
import Walgit.Trace

/-!
# Checkpoints keep the history

A committed manifest gives back the whole history from its checkpoint's refs and
its listed segments, and the checkpoint objects of a seq are the refs and the
live packs at that seq. Both rest on the refs being read while they are those
of the manifest, and on no checkpoint being committed over a newer one.
-/

namespace Walgit

open Interleaving Replay

variable {cfg : Config} {s : Sys}

def snapshotHazards : List Hazard := pairHazards ++ exactHazards

theorem pairLevel_snapshot : PairLevel snapshotHazards :=
  .of_subset (List.subset_append_left _ _)

theorem exactLevel_snapshot : ExactLevel snapshotHazards := List.subset_append_right _ _

section Listing

variable {cs older : List Commit} {a : Commit}

theorem Linked.unfolded_seq (h : Linked (a :: older)) {slot : Slot}
    (hs : slot ∈ slotsOf (a :: older)) (hlast : a.manifest.checkpointSeq < slot.last) :
    a.manifest.checkpointSeq < slot.seq := by
  obtain ⟨x, hx, hxs⟩ := mem_slotsOf.mp hs
  unfold Manifest.checkpointSeq at hlast ⊢
  cases hcp : a.manifest.checkpoint with
  | none =>
    rcases h.follows hx with rfl | ⟨p, rest, -, hf⟩
    · cases hxs
    · exact Nat.zero_lt_of_lt (hf.slot slot hxs).1
  | some cp =>
    obtain ⟨b, hb, hbhead⟩ := h.checkpoint_boundary hcp
    rw [hcp, Option.elim_some] at hlast
    rw [Option.elim_some, ← hbhead]
    have hxhead := (h.slot_dense hx hxs).2
    rcases h.trichotomy hx hb with rfl | hn | hn
    · omega
    · exact hn.slot slot hxs
    · have := hn.head
      omega

theorem Linked.listed_entries {E : ℕ → List LogEntry} (h : Linked cs) (hf : Folding cs)
    (ha : a ∈ cs) (hE : ∀ slot ∈ slotsOf cs, E slot.seq = slot.entries) :
    (a.manifest.logSegments.map LogSegmentRef.key).flatMap E =
      between LogEntry.seq (logOf cs) a.manifest.checkpointSeq a.manifest.headSeq := by
  obtain ⟨older, hsuf, hl, -⟩ := h.split ha
  have hlisted : ∀ seg ∈ a.manifest.logSegments, ∃ slot ∈ slotsOf (a :: older),
      slot.ref = seg ∧ a.manifest.checkpointSeq < slot.seq ∧ slot.seq ≤ slot.last ∧
        slot.last ≤ a.manifest.headSeq := by
    intro seg hseg
    rw [hl.logSegments_eq (hf.sublist hsuf.sublist)] at hseg
    obtain ⟨slot, hslot, rfl⟩ := List.mem_map.mp hseg
    obtain ⟨hslot, hlast⟩ := List.mem_filter.mp hslot
    obtain ⟨x, hx, hxs⟩ := mem_slotsOf.mp hslot
    refine ⟨slot, hslot, rfl, hl.unfolded_seq hslot (of_decide_eq_true hlast),
      (hl.slotsOf_dense hslot).seq_le_last, ?_⟩
    rw [(hl.slot_dense hx hxs).2]
    exact (hl.le_head hx).1
  rw [← h.fetched hf ha hE (Nat.le_refl _)]
  have hsegs : (a.manifest.logSegments.filter fun s => decide
      (a.manifest.checkpointSeq < s.lastSeq ∧ s.firstSeq ≤ a.manifest.headSeq)) =
        a.manifest.logSegments := by
    refine List.filter_eq_self.mpr fun seg hseg => decide_eq_true ?_
    obtain ⟨slot, -, rfl, hlt, hle, hhead⟩ := hlisted seg hseg
    exact ⟨hlt.trans_le hle, hle.trans hhead⟩
  rw [hsegs]
  refine (List.filter_eq_self.mpr fun e he => decide_eq_true ?_).symm
  obtain ⟨key, hkey, he⟩ := List.mem_flatMap.mp he
  obtain ⟨seg, hseg, rfl⟩ := List.mem_map.mp hkey
  obtain ⟨slot, hslot, rfl, hlt, -, hhead⟩ := hlisted seg hseg
  obtain ⟨x, hx, hxs⟩ := mem_slotsOf.mp hslot
  have hmem : slot ∈ slotsOf cs := mem_slotsOf.mpr ⟨x, hsuf.subset hx, hxs⟩
  have hd := (hl.slotsOf_dense hslot).mem (hE slot hmem ▸ he)
  exact ⟨hlt.trans_le hd.1, hd.2.trans hhead⟩

end Listing

section History

/-- The refs stored for a manifest's checkpoint, those of a new repository without one. -/
def World.snapshotOf (σ : World) (m : Manifest) : Option RefState :=
  m.checkpoint.elim (some .init) fun cp => σ.cpRefs cp.seq

/-- What a reader of the manifest restores: the snapshot and the listed segments' entries. -/
def World.restored (σ : World) (m : Manifest) : Option RefState :=
  (σ.snapshotOf m).map fun snap =>
    replayEntries LogEntry.writes snap ((m.logSegments.map LogSegmentRef.key).flatMap σ.entriesAt)

structure HistoryKept (σ : World) : Prop where
  restored : ∀ c ∈ σ.commits, σ.restored c.manifest = some (foldUpto σ.log c.manifest.headSeq)
  forward : σ.commits.IsChain fun c p =>
    p.manifest.checkpointSeq ≤ c.manifest.checkpointSeq ∧ p.manifest.minSeq ≤ c.manifest.minSeq

variable {L : List Hazard} {σ : World} {c : Commit}

theorem Inv.snapshotOf (hi : Inv L σ) (hX : ExactLevel L) (hc : c ∈ σ.commits) :
    σ.snapshotOf c.manifest = some (foldUpto σ.log c.manifest.checkpointSeq) := by
  unfold World.snapshotOf Manifest.checkpointSeq
  cases hcp : c.manifest.checkpoint with
  | none => rw [Option.elim_none, Option.elim_none, hi.foldUpto_zero]
  | some cp =>
    obtain ⟨snap, hsnap⟩ := Option.isSome_iff_exists.mp (hi.snapStored c hc cp hcp)
    rw [Option.elim_some, Option.elim_some, hsnap,
      (hi.snaps hX.refs cp.seq snap hsnap).exact (.inl hX)]

theorem Inv.restored (hi : Inv L σ) (hX : ExactLevel L) (hc : c ∈ σ.commits) :
    σ.restored c.manifest = some (foldUpto σ.log c.manifest.headSeq) := by
  obtain ⟨older, -, hl, -⟩ := hi.linked.split hc
  have hentries := hi.linked.listed_entries (hi.folding hX.refs) hc fun slot hslot =>
    hi.entriesAt (mem_slotsOf.mp hslot)
  rw [World.restored, hi.snapshotOf hX hc, Option.map_some, hentries]
  exact congrArg some (upto_split hi.linked.log_pairwise hl.checkpointSeq_le).symm

theorem Linked.minSeq_le {cs : List Commit} {a b : Commit} (h : Linked cs) (ha : a ∈ cs)
    (hb : b ∈ cs) (hle : a.manifest.checkpointSeq ≤ b.manifest.checkpointSeq)
    (hsome : a.manifest.checkpoint.isSome → b.manifest.checkpoint.isSome) :
    a.manifest.minSeq ≤ b.manifest.minSeq := by
  obtain ⟨as, -, hla, -⟩ := h.split ha
  obtain ⟨bs, -, hlb, -⟩ := h.split hb
  rw [hla.minSeq, hlb.minSeq]
  unfold Manifest.checkpointSeq at hle
  cases hac : a.manifest.checkpoint with
  | none => exact Nat.zero_le _
  | some cp =>
    obtain ⟨cp', hbc⟩ := Option.isSome_iff_exists.mp (hsome (by rw [hac]; rfl))
    simpa [hac, hbc] using hle

theorem Follows.checkpoint_isSome {p : Commit} {older : List Commit} (h : Follows c p older)
    (hp : p.manifest.checkpoint.isSome) : c.manifest.checkpoint.isSome := by
  by_cases hop : ∃ cp, c.op = .checkpoint cp
  · obtain ⟨cp, hop⟩ := hop
    rw [h.manifest, hop]
    rfl
  · push Not at hop
    rwa [h.manifest, (apply_checkpointSeq h.notCreate hop).1]

theorem Linked.forward {cs : List Commit} (h : Linked cs) (hf : Folding cs) :
    cs.IsChain fun c p => p.manifest.checkpointSeq ≤ c.manifest.checkpointSeq ∧
      p.manifest.minSeq ≤ c.manifest.minSeq := by
  induction cs with
  | nil => exact .nil
  | cons c cs ih =>
    cases cs with
    | nil => exact .singleton c
    | cons p older =>
      obtain ⟨hle, hf'⟩ := List.pairwise_cons.mp hf
      have hcp := hle p List.mem_cons_self
      refine .cons_cons ⟨hcp, ?_⟩ (ih h.2 hf')
      exact h.minSeq_le (List.mem_cons_of_mem c List.mem_cons_self) List.mem_cons_self hcp
        h.1.checkpoint_isSome

theorem checkpoints_keep_history (h : Reachable cfg snapshotHazards s) : HistoryKept s.world := by
  have hi := h.inv pairLevel_snapshot
  exact ⟨fun c hc => hi.restored exactLevel_snapshot hc,
    hi.linked.forward (hi.folding exactLevel_snapshot.refs)⟩

theorem checkpoints_keep_history_everyday : ∃ s, Reachable plainConfig snapshotHazards s ∧
    (s.world.commits.map fun c => c.manifest.checkpointSeq) = [1, 1, 0, 0] ∧
    HistoryKept s.world := by
  obtain ⟨s, hr, hs⟩ := everyday_reachable (L := snapshotHazards) (by decide)
  have hcps := congrArg (List.map Prod.snd) hs
  rw [List.map_map] at hcps
  exact ⟨s, hr, hcps, checkpoints_keep_history hr⟩

/-- A checkpointer stores its snapshot of seq 1 and stops before its CAS; a push of `dev`, a
checkpoint of seq 2 and one more push are committed; then the first checkpointer goes on. -/
def crossedCheckpoints : List Step :=
  .spawn (push "" oidA) :: steps 0 20 ++ .spawn (.checkpoint 0) :: steps 1 31 ++
    .spawn (.publish 0 [pushRef devRef "" oidB]) :: steps 2 20 ++
    .spawn (.checkpoint 0) :: steps 3 26 ++ .spawn (push oidA oidC) :: steps 4 20 ++ steps 1 3

theorem checkpoint_loses_history : ∃ cfg s, Run cfg s ∧ ¬ HistoryKept s.world ∧
    (s.world.restored s.world.current.manifest).map (fun refs => refs (.ref devRef)) =
      some none ∧
    foldUpto s.world.log s.world.current.manifest.headSeq (.ref devRef) = some oidB := by
  obtain ⟨s, hr, hs⟩ := exists_run plainConfig crossedCheckpoints
    (p := fun s => s.world.current ∈ s.world.commits ∧
      (s.world.restored s.world.current.manifest).map (fun refs => refs (.ref devRef)) =
        some none ∧
      foldUpto s.world.log s.world.current.manifest.headSeq (.ref devRef) = some oidB)
    (by decide +kernel)
  obtain ⟨hmem, hrestored, hfold⟩ := of_decide_eq_true hs
  refine ⟨plainConfig, s, hr, fun hk => ?_, hrestored, hfold⟩
  rw [hk.restored _ hmem, Option.map_some, hfold] at hrestored
  cases hrestored

end History

section Objects

/-- A pack without its sidecar flags, which `annotate_pack` sets afterwards. -/
def PackRef.bare (p : PackRef) : PackRef :=
  { p with hasRev := false, hasBitmap := false, hasCommitGraph := false }

/-- A PUSH adds its pack; a COMPACT puts its pack in the place of those it supersedes. -/
def liveAfter (packs : List PackRef) (e : LogEntry) : List PackRef :=
  match e.kind with
  | .push => packs ++ e.pack.toList
  | .compact => e.pack.elim packs fun p => compactPacks p e.supersedes packs
  | _ => packs

def livePacks (log : List LogEntry) (q : ℕ) : List PackRef :=
  (log.filter fun e => e.seq ≤ q).foldl liveAfter []

def bares (packs : List PackRef) : List PackRef := packs.map PackRef.bare

structure CheckpointsExact (σ : World) : Prop where
  refs : ∀ seq snap, σ.cpRefs seq = some snap → snap = foldUpto σ.log seq
  packs : ∀ seq cp, σ.cps seq = some cp →
    cp.seq = seq ∧ (bares cp.packs).Perm (bares (livePacks σ.log seq))

variable {packs packs' : List PackRef} {es : List LogEntry}

theorem bares_annotatePack {checksum : String} {rev bitmap commitGraph : Bool} :
    bares (annotatePack checksum rev bitmap commitGraph packs) = bares packs := by
  induction packs with
  | nil => rfl
  | cons p ps ih =>
    unfold annotatePack
    split
    · rfl
    · exact congrArg (p.bare :: ·) ih

theorem bares_append : bares (packs ++ packs') = bares packs ++ bares packs' := List.map_append

theorem bares_sortPacks : (bares (sortPacks packs)).Perm (bares packs) :=
  (List.perm_insertionSort _ packs).map _

theorem bares_compactPacks {pack : PackRef} {supersedes : List String} :
    bares (compactPacks pack supersedes packs) =
      ((bares packs).filter fun p => p.checksum ∉ supersedes ∧ p.checksum ≠ pack.checksum) ++
        [pack.bare] := by
  unfold bares compactPacks
  rw [List.map_append, List.filter_map]
  rfl

theorem foldl_push (hk : ∀ e ∈ es, e.kind = .push) :
    es.foldl liveAfter packs = packs ++ es.filterMap LogEntry.pack := by
  induction es generalizing packs with
  | nil => exact (List.append_nil packs).symm
  | cons e es ih =>
    have hlive : liveAfter packs e = packs ++ e.pack.toList := by
      unfold liveAfter
      rw [hk e List.mem_cons_self]
    rw [List.foldl_cons, hlive, ih fun x hx => hk x (List.mem_cons_of_mem e hx),
      List.append_assoc]
    cases hp : e.pack <;> simp [hp]

theorem foldl_settings (hk : ∀ e ∈ es, e.kind = .settings) : es.foldl liveAfter packs = packs := by
  induction es generalizing packs with
  | nil => rfl
  | cons e es ih =>
    have hlive : liveAfter packs e = packs := by
      unfold liveAfter
      rw [hk e List.mem_cons_self]
    rw [List.foldl_cons, hlive, ih fun x hx => hk x (List.mem_cons_of_mem e hx)]

theorem Follows.live {c p : Commit} {older : List Commit} (h : Follows c p older)
    (hp : (bares p.manifest.packs).Perm (bares packs)) :
    (bares c.manifest.packs).Perm (bares (c.entries.foldl liveAfter packs)) := by
  have hlogs := h.logs
  rw [h.manifest]
  cases hop : c.op with
  | create => exact absurd hop h.notCreate
  | push new seg =>
    rw [hop] at hlogs
    obtain ⟨rfl, hk⟩ := hlogs
    rw [foldl_push hk, bares_append]
    refine bares_sortPacks.trans ?_
    rw [bares_append]
    exact hp.append_right _
  | compact pack supersedes seg =>
    rw [hop] at hlogs
    obtain ⟨e, he, hk, hpack, rfl⟩ := hlogs
    have hlive : c.entries.foldl liveAfter packs = compactPacks pack e.supersedes packs := by
      rw [he, List.foldl_cons, List.foldl_nil]
      unfold liveAfter
      rw [hk, hpack]
      rfl
    rw [hlive, bares_compactPacks]
    refine bares_sortPacks.trans ?_
    rw [bares_compactPacks]
    exact (hp.filter _).append_right _
  | settings doc seg =>
    rw [hop] at hlogs
    rw [foldl_settings hlogs]
    exact hp
  | checkpoint cp =>
    rw [hop] at hlogs
    rw [show c.entries = [] from hlogs]
    exact hp
  | annotate checksum rev bitmap commitGraph =>
    rw [hop] at hlogs
    rw [show c.entries = [] from hlogs]
    change (bares (annotatePack checksum rev bitmap commitGraph p.manifest.packs)).Perm _
    rw [bares_annotatePack]
    exact hp

theorem Linked.live {c : Commit} {cs : List Commit} (h : Linked (c :: cs)) :
    (bares c.manifest.packs).Perm (bares ((logOf (c :: cs)).foldl liveAfter [])) := by
  induction cs generalizing c with
  | nil =>
    obtain rfl : c = .created := h
    exact .refl _
  | cons p older ih =>
    rw [logOf, List.foldl_append]
    exact h.1.live (ih h.2)

theorem Linked.livePacks {cs : List Commit} {a : Commit} (h : Linked cs) (ha : a ∈ cs) :
    (bares a.manifest.packs).Perm (bares (livePacks (logOf cs) a.manifest.headSeq)) := by
  obtain ⟨older, -, hl, new, hlog, hnew⟩ := h.split ha
  have hold : ((logOf (a :: older)).filter fun e => decide (e.seq ≤ a.manifest.headSeq)) =
      logOf (a :: older) :=
    List.filter_eq_self.mpr fun e he => decide_eq_true (hl.mem_log he).2
  have hnil : (new.filter fun e => decide (e.seq ≤ a.manifest.headSeq)) = [] := by
    refine List.filter_eq_nil_iff.mpr fun e he => ?_
    have := hnew e he
    simp only [decide_eq_true_eq]
    omega
  rw [Walgit.livePacks, hlog, List.filter_append, hold, hnil, List.append_nil]
  exact hl.live

theorem checkpoint_objects_exact (h : Reachable cfg snapshotHazards s) :
    CheckpointsExact s.world := by
  have hi := h.inv pairLevel_snapshot
  refine ⟨fun seq snap hsnap => ?_, fun seq cp hcp => ?_⟩
  · exact (hi.snaps exactLevel_snapshot.refs seq snap hsnap).exact (.inl exactLevel_snapshot)
  · obtain ⟨c, hc, rfl, rfl⟩ := hi.cps seq cp hcp
    exact ⟨rfl, hi.linked.livePacks hc⟩

theorem checkpoint_objects_exact_everyday : ∃ s, Reachable plainConfig snapshotHazards s ∧
    (s.world.cpRefs 1).isSome ∧ (s.world.cps 1).isSome ∧ CheckpointsExact s.world := by
  obtain ⟨s, hr, hs⟩ := exists_clean (L := snapshotHazards) (by decide) plainConfig everyday
    (p := fun s => (s.world.cpRefs 1).isSome ∧ (s.world.cps 1).isSome) (by decide +kernel)
  obtain ⟨hrefs, hcps⟩ := of_decide_eq_true hs
  exact ⟨s, hr, hrefs, hcps, checkpoint_objects_exact hr⟩

/-- A checkpointer passes its tests at seq 1, a push is committed and applied on the same
handle, and only then are the refs read. -/
def lateSnapshot : List Step :=
  .spawn (push "" oidA) :: steps 0 20 ++ .spawn (.checkpoint 0) :: steps 1 28 ++
    .spawn (push oidA oidB) :: steps 2 20 ++ steps 1 2

theorem checkpoint_snapshot_ahead : ∃ cfg s, Run cfg s ∧ ¬ CheckpointsExact s.world ∧
    (s.world.cpRefs 1).map (fun refs => refs (.ref mainRef)) = some (some oidB) ∧
    foldUpto s.world.log 1 (.ref mainRef) = some oidA := by
  obtain ⟨s, hr, hs⟩ := exists_run plainConfig lateSnapshot
    (p := fun s => (s.world.cpRefs 1).map (fun refs => refs (.ref mainRef)) = some (some oidB) ∧
      foldUpto s.world.log 1 (.ref mainRef) = some oidA) (by decide +kernel)
  obtain ⟨hstored, hfold⟩ := of_decide_eq_true hs
  refine ⟨plainConfig, s, hr, fun hx => ?_, hstored, hfold⟩
  obtain ⟨snap, hsnap, hmain⟩ := Option.map_eq_some_iff.mp hstored
  rw [hx.refs 1 snap hsnap, hfold] at hmain
  exact absurd hmain (by decide)

end Objects

end Walgit
