import Walgit.SyncSpec

/-!
# Slots and the manifest CAS

A claimed slot is its task's until it is dropped or committed. The conditional
put either leaves the world as it was or commits, and an ambiguous answer leaves
both open; `cas_landed` then reads which it was off the stored manifest.
-/

namespace Walgit

open Interleaving Replay

variable {L : List Hazard} {t h : ℕ} {m : Manifest} {R : World → Prop} {σ σ' : World}

section Claim

/-- A stored segment is this task's, and newer than the version the task knows. -/
def Put (t : ℕ) (known : Option ℕ) (seq : ℕ) (es : List LogEntry) :
    Except PutError ℕ → World → Prop
  | .ok version => fun σ => Mine t ⟨seq, version, es⟩ σ ∧ ∀ v, known = some v → v < version
  | .error _ => fun _ => True

theorem mine_writeSegment {seq : ℕ} {es : List LogEntry} (hi : Inv L σ)
    (hq : σ.segs seq = none) : Mine t ⟨seq, σ.next, es⟩ (σ.writeSegment t seq es) := by
  refine ⟨⟨Nat.lt_succ_self _, fun q o ho hv => ?_⟩, .inl writeSegment_self, ?_⟩
  · by_cases hqs : q = seq
    · subst hqs
      rw [writeSegment_self] at ho
      cases ho
      rfl
    · rw [writeSegment_of_ne hqs] at ho
      exact absurd hv (Nat.ne_of_lt (hi.segVersion q o ho))
  · rintro s hs rfl
    obtain ⟨t', ho⟩ := hi.stored_of hs
    rw [hq] at ho
    cases ho

theorem spec_putSegment {known : Option ℕ} {seq : ℕ} {es : List LogEntry} (hR : Calm L t R)
    (hk : ∀ σ, R σ → PairOf m known σ) :
    Spec L t (call (.putSegment seq es)) R fun r σ => R σ ∧ Put t known seq es r σ := by
  refine (Spec.quiet (o := .putSegment seq es) (fun _ _ => trivial) (Q := Put t known seq es) hR
    (P := fun _ => True) ?_ ?_).pre fun σ _ hr => ⟨hr, trivial⟩
  · rintro (e | v)
    · exact Discipline.Stable.const
    · exact stable_mine.and Discipline.Stable.const
  intro σ c r σ' hi hr _ hok hex
  have hres : σ.putSegment c t seq es = (r, σ') := Option.some.inj hex
  have hsame : Quiet L t σ σ := .of_keeps hi .refl .refl rfl rfl
  unfold World.putSegment at hres
  split at hres
  · cases hres
    exact ⟨hsame, trivial⟩
  · split at hres
    · rename_i hnone
      have hq := Option.isNone_iff_eq_none.mp hnone
      have hnew : Quiet L t σ (σ.writeSegment t seq es) :=
        .of_keeps hi (.writeSegment hi hq) (.writeSegment hq) rfl rfl
      split at hres
      · cases hres
        refine ⟨hnew, mine_writeSegment hi hq, fun v hv => ?_⟩
        obtain ⟨a, ha, -, hle⟩ := hk σ hr
        exact (hle v hv).trans_lt (hi.commitVersion a ha)
      · cases hres
        exact ⟨hnew, trivial⟩
    · cases hres
      exact ⟨hsame, trivial⟩

theorem spec_probeOrphan {seq left : ℕ} {P : World → Prop} (hP : Keeping L t P) :
    Spec L t (probeOrphan seq left) P fun _ => P := by
  induction left with
  | zero =>
    unfold probeOrphan
    refine Spec.andThen (Spec.skip rfl hP) (fun _ _ _ hx => hx) fun fresh => ?_
    split
    · exact Spec.ret fun _ _ hx => hx
    · refine Spec.andThen (Spec.skip rfl hP) (fun _ _ _ hx => hx) fun o => ?_
      cases o <;> exact Spec.ret fun _ _ hx => hx
  | succ left ih =>
    unfold probeOrphan
    refine Spec.andThen (Spec.skip rfl hP) (fun _ _ _ hx => hx) fun fresh => ?_
    split
    · exact Spec.ret fun _ _ hx => hx
    · refine Spec.andThen (Spec.skip rfl hP) (fun _ _ _ hx => hx) fun o => ?_
      cases o with
      | none => exact Spec.ret fun _ _ hx => hx
      | some version => exact ih

theorem spec_halt {α : Type} {P : World → Prop} {Q : α → World → Prop} :
    Spec L t (halt : Task α) P Q := by
  exact ⟨fun _ _ _ => trivial, fun _ _ r => r.elim⟩

/-- What a claim past `head` has: its own slot, and burned seqs between the two. -/
structure ClaimOk (head : ℕ) (known : Option ℕ) (encode : ℕ → ℕ → List LogEntry) (s : LogSlot) :
    Prop where
  past : head < s.slot.seq
  after : ∀ v, known = some v → v < s.slot.version
  entries : ∃ now, s.slot.entries = encode now s.slot.seq
  burned : ∀ b ∈ s.burned, head < b.1 ∧ b.1 < s.slot.seq

def Claimed (t head : ℕ) (known : Option ℕ) (encode : ℕ → ℕ → List LogEntry) :
    Except WalError ClaimOutcome → World → Prop
  | .ok (.claimed s) => fun σ => Mine t s.slot σ ∧ ClaimOk head known encode s
  | _ => fun _ => True

theorem spec_claimLogSlot (head : ℕ) {known : Option ℕ} {encode : ℕ → ℕ → List LogEntry}
    {rounds seq : ℕ} {burned : List (ℕ × ℕ)} (hR : Calm L t R)
    (hk : ∀ σ, R σ → PairOf m known σ) (hseq : head < seq)
    (hb : ∀ b ∈ burned, head < b.1 ∧ b.1 < seq) :
    Spec L t (claimLogSlot encode rounds seq burned) R
      fun r σ => R σ ∧ Claimed t head known encode r σ := by
  induction rounds generalizing seq burned with
  | zero => exact spec_halt
  | succ rounds ih =>
    unfold claimLogSlot
    refine Spec.bind (Spec.skip rfl hR.stable) fun now => ?_
    refine Spec.bind (spec_putSegment hR hk) fun r => ?_
    rcases r with (_ | _) | version
    · refine Spec.andThen ((spec_probeOrphan hR.stable).pre fun _ _ hx => hx.1)
        (fun _ _ _ hx => ⟨hx, trivial⟩) fun probe => ?_
      cases probe with
      | committed => exact Spec.ret fun _ _ hx => ⟨hx, trivial⟩
      | free => exact ih hseq hb
      | orphan version =>
        simp only
        split
        · exact Spec.ret fun _ _ hx => ⟨hx, trivial⟩
        · refine ih (by omega) fun b hmem => ?_
          rcases List.mem_append.mp hmem with hmem | hmem
          · have := hb b hmem
            omega
          · rw [List.mem_singleton.mp hmem]
            exact ⟨hseq, Nat.lt_succ_self _⟩
    · exact Spec.ret fun _ _ hx => ⟨hx.1, trivial⟩
    · exact Spec.ret fun _ _ hx => ⟨hx.1, hx.2.1, hseq, hx.2.2, ⟨now, rfl⟩, hb⟩

end Claim

section Delete

variable {seq version : ℕ}

theorem deleteSegment_cases (σ : World) (c : Choice) (seq version : ℕ) :
    σ.deleteSegment c seq version = σ ∨
    ∃ o, σ.segs seq = some o ∧ o.version = version ∧
      σ.deleteSegment c seq version = σ.setSegment seq none := by
  unfold World.deleteSegment
  split
  · rename_i hd
    cases ho : σ.segs seq with
    | none => simp [ho] at hd
    | some o =>
      have hv : o.version = version := by simpa [ho] using hd.2
      exact .inr ⟨o, rfl, hv, rfl⟩
  · exact .inl rfl

theorem spec_deleteSegment {P : World → Prop} (hR : Calm L t R)
    (hfree : ∀ σ, P σ → ∀ o, σ.segs seq = some o → o.version = version →
      (∀ s, σ.Committed s → s.seq = seq → s.version ≠ version) ∧ (o.task = t ∨ seq ≤ σ.head)) :
    Spec L t (call (.deleteSegment seq version)) (fun σ => R σ ∧ P σ) fun _ => R := by
  refine (Spec.quiet (o := .deleteSegment seq version) (fun _ _ => trivial) (Q := fun _ _ => True)
    hR (fun _ => Discipline.Stable.const) ?_).post fun _ _ _ hx => hx.1
  intro σ c r σ' hi hr hp hok hex
  have hres : σ.deleteSegment c seq version = σ' := congrArg Prod.snd (Option.some.inj hex)
  refine ⟨?_, trivial⟩
  rcases deleteSegment_cases σ c seq version with h | h
  · rw [← hres, h]
    exact .of_keeps hi .refl .refl rfl rfl
  · obtain ⟨o, ho, hv, heq⟩ := h
    obtain ⟨hn, hown⟩ := hfree σ hp o ho hv
    rw [← hres, heq]
    refine .of_keeps hi (.removeSegment hi ho ?_) (.removeSegment ho hown) rfl rfl
    rwa [hv]

theorem spec_dropOwnSlot {s : LogSlot} (hR : Calm L t R) :
    Spec L t (dropOwnSlot s) (fun σ => R σ ∧ Mine t s.slot σ) fun _ => R :=
  spec_deleteSegment hR fun _ hm _ ho hv =>
    ⟨fun s' hs' hq => absurd hq (hm.free s' hs'), .inl (hm.own _ _ ho hv)⟩

theorem spec_sweepBurned {burned : List (ℕ × ℕ)} (hR : Calm L t R)
    (hdead : ∀ σ, R σ → ∀ b ∈ burned, Dead b σ) :
    Spec L t (sweepBurned burned) R fun _ => R := by
  induction burned with
  | nil => exact Spec.ret fun _ _ hx => hx
  | cons b burned ih =>
    refine Spec.bind (R := fun _ => R) ?_ fun _ =>
      ih fun σ hr b hb => hdead σ hr b (List.mem_cons_of_mem _ hb)
    refine (spec_deleteSegment (P := Dead b) hR fun σ hd o _ _ => ?_).pre
      fun σ _ hr => ⟨hr, hdead σ hr b List.mem_cons_self⟩
    exact ⟨fun s hs hq => hd.free s hs hq, .inr hd.passed⟩

end Delete

section Cas

variable {op : ManifestOp} {slot : Option Slot} {known : Option ℕ}

/-- The task has committed `op` over `m`, and what follows from that for ever. -/
structure Landed (t : ℕ) (m : Manifest) (op : ManifestOp) (slot : Option Slot) (σ : World) :
    Prop where
  commit : ∃ v, (⟨v, m, op.apply m, op, slot, some t⟩ : Commit) ∈ σ.commits
  tail : ∀ s, slot = some s → Tail (op.apply m) m.headSeq s.entries σ
  own : ∀ s, slot = some s → Own t s σ
  dead : ∀ s, slot = some s → ∀ b : ℕ × ℕ, m.headSeq < b.1 → b.1 < s.seq → Dead b σ

theorem lasting_landed : Lasting L (Landed t m op slot) := by
  intro t' σ σ' hi hi' hg hl
  obtain ⟨v, hc⟩ := hl.commit
  refine ⟨⟨v, (Guar.extends hi hi' hg).mem _ hc⟩, fun s hs => ?_, fun s hs => ?_,
    fun s hs b h1 h2 => ?_⟩
  · exact lasting_tail t' σ σ' hi hi' hg (hl.tail s hs)
  · exact lasting_own t' σ σ' hi hi' hg (hl.own s hs)
  · exact lasting_dead t' σ σ' hi hi' hg (hl.dead s hs b h1 h2)

theorem Landed.has (hl : Landed t m op slot σ) : Has (op.apply m) σ := by
  obtain ⟨v, hc⟩ := hl.commit
  exact ⟨_, hc, rfl⟩

theorem Landed.committed {s : Slot} (hl : Landed t m op (some s) σ) : σ.Committed s := by
  obtain ⟨v, hc⟩ := hl.commit
  exact ⟨_, hc, rfl⟩

theorem Inv.slot_le (hi : Inv L σ) {s : Slot} (hs : σ.Committed s) : s.seq ≤ σ.head := by
  obtain ⟨c, hc, hcs⟩ := hs
  have hd := hi.linked.slot_dense hc hcs
  have := hd.1.seq_le_last
  have := hi.headSeq_le hc
  omega

def SlotMine (t : ℕ) (slot : Option Slot) (σ : World) : Prop := ∀ s, slot = some s → Mine t s σ

theorem stable_slotMine : Keeping L t (SlotMine t slot) :=
  fun t' σ σ' ht hi hi' hg hm s hs => stable_mine t' σ σ' ht hi hi' hg (hm s hs)

theorem landed_commit (hi : Inv L σ) (hc : CommitOk L t σ m op slot)
    (hmine : SlotMine t slot σ) : Landed t m op slot (σ.commit t m op slot) := by
  obtain ⟨older, ho⟩ := hi.commits_eq
  have hf := hc.follows hi ho
  have hhead : σ.head = m.headSeq := by rw [World.head, hc.onTop]
  refine ⟨⟨σ.next, List.mem_cons_self⟩, fun s hs => ⟨⟨_, List.mem_cons_self, rfl⟩, ?_⟩,
    fun s hs => ?_, fun s hs b h1 h2 => ⟨?_, ?_⟩⟩
  · have hold : between LogEntry.seq σ.log m.headSeq (op.apply m).headSeq = [] := by
      refine List.filter_eq_nil_iff.mpr fun e he => ?_
      have := (hi.mem_log he).2
      simp only [decide_eq_true_eq]
      omega
    have hnew : between LogEntry.seq s.entries m.headSeq (op.apply m).headSeq = s.entries := by
      refine List.filter_eq_self.mpr fun e he => decide_eq_true ?_
      have := hf.entries (e := e) (by rw [Commit.entries, hs]; exact he)
      rw [← hc.onTop] at this
      exact this
    change s.entries = between _ (σ.log ++ slot.elim [] Slot.entries) _ _
    rw [between, List.filter_append]
    change _ = between _ _ _ _ ++ between _ _ _ _
    rw [hold, hs, List.nil_append]
    exact hnew.symm
  · have hm := hmine s hs
    exact ⟨Nat.lt_succ_of_lt hm.version, hm.own⟩
  · have hle := (hf.slot s hs).2.seq_le_last
    have hlast : (op.apply m).headSeq = s.last := by
      have := hf.headSeq
      rw [hs] at this
      exact this
    change b.1 ≤ (op.apply m).headSeq
    omega
  · rintro s' ⟨c, hmem, hcs⟩ hq
    rcases List.mem_cons.mp hmem with rfl | hmem
    · have : s = s' := Option.some.inj (hs.symm.trans hcs)
      subst this
      omega
    · have := hi.slot_le ⟨c, hmem, hcs⟩
      omega

def PutPost (t : ℕ) (m : Manifest) (op : ManifestOp) (slot : Option Slot) :
    Except PutError ℕ → World → Prop
  | .ok v => fun σ => Landed t m op slot σ ∧ PairOf (op.apply m) (some v) σ
  | .error .preconditionFailed => fun σ => Fresh t σ ∧ SlotMine t slot σ
  | .error .other => fun σ => (Fresh t σ ∧ SlotMine t slot σ) ∨ Landed t m op slot σ

theorem stable_putPost (r : Except PutError ℕ) : Keeping L t (PutPost t m op slot r) := by
  have hbefore : Keeping L t fun σ => Fresh t σ ∧ SlotMine t slot σ :=
    calm_fresh.stable.and stable_slotMine
  rcases r with (_ | _) | v
  · exact hbefore
  · exact hbefore.or lasting_landed.calm.stable
  · exact (lasting_landed.and lasting_pairOf).calm.stable

theorem spec_putManifest (hR : Lasting L R) (hop : op ≠ .create)
    (hseg : op.segment = slot.map Slot.ref) (hlogs : op.Logs (slot.elim [] Slot.entries))
    (hslot : ∀ s, slot = some s → m.headSeq < s.seq ∧ s.Dense)
    (hord : Orderly known m op slot) (hv : ∀ σ, R σ → PairOf m known σ)
    (hcp : ∀ σ, R σ → ∀ cp, op = .checkpoint cp →
      (∃ a ∈ σ.commits, a.manifest.headSeq = cp.seq) ∧ (σ.cpRefs cp.seq).isSome)
    (hcas : ∀ σ, Inv L σ → R σ → σ.head = m.headSeq → CasLevel L → ∀ s, slot = some s →
      (∀ e ∈ s.entries, ¬ e.setsHead ∧ ¬ e.repeatsRef) →
      CasOk (foldUpto σ.log m.headSeq) s.entries) :
    Spec L t (call (.putManifest known m op slot))
      (fun σ => R σ ∧ Fresh t σ ∧ SlotMine t slot σ)
      fun r σ => R σ ∧ PutPost t m op slot r σ := by
  refine Discipline.Triple.perform (fun r => hR.calm.stable.and (stable_putPost r))
    (fun _ _ _ => trivial) ?_
  rintro σ c r σ' hi ⟨hr, hfresh, hmine⟩ hok hex
  have hres : σ.putManifest c t known m op slot = (r, σ') := Option.some.inj hex
  have hok : Avoids L (.putManifest known m op slot) c σ := hok
  unfold World.putManifest at hres
  split at hres
  · cases hres
    exact ⟨hi, .refl, hr, .inl ⟨hfresh, hmine⟩⟩
  · split at hres
    · rename_i hk
      have hcur : m = σ.current.manifest := PairOf.current hi (hk ▸ hv σ hr) rfl
      have hhead : σ.head = m.headSeq := by rw [World.head, ← hcur]
      have hplain : ∀ z ∈ L, z = .headUpdate → ∀ s, slot = some s → ∀ e ∈ s.entries,
          ¬ e.setsHead := by
        rintro z hz rfl s rfl e he hset
        exact hok _ hz ⟨known, m, op, s, rfl, e, he, hset⟩
      have hc : CommitOk L t σ m op slot := by
        refine ⟨hcur, hfresh, hop, hseg, hlogs, fun s hs => ?_, hcp σ hr, fun hL cp hcp => ?_,
          fun hL s hs e he => hplain _ (hL (by decide)) rfl s hs e he, fun hL s hs => ?_, hk ▸ hord⟩
        · rw [hhead]
          refine ⟨(hslot s hs).1, (hslot s hs).2, ?_⟩
          refine (hmine s hs).stored.resolve_right fun hle => ?_
          have := (hslot s hs).1
          omega
        · refine Nat.le_of_not_lt fun hlt => hok .checkpointBehind (hL (by decide)) ?_
          exact ⟨known, m, cp, slot, by rw [hcp], hlt⟩
        · rw [hhead]
          refine hcas σ hi hr hhead hL s hs fun e he => ?_
          refine ⟨hplain _ (hL.1 (by decide)) rfl s hs e he, fun hrep => ?_⟩
          exact hok _ hL.2.2 ⟨known, m, op, s, by rw [hs], e, he, hrep⟩
      have hi' := hi.commit hc
      have hg : Guar L t σ (σ.commit t m op slot) := .commit hc
      have hl := landed_commit hi hc hmine
      have hr' := hR t σ _ hi hi' hg hr
      split at hres
      · cases hres
        refine ⟨hi', hg, hr', hl, _, List.mem_cons_self, rfl, fun v hv => ?_⟩
        exact Nat.le_of_eq (Option.some.inj hv).symm
      · cases hres
        exact ⟨hi', hg, hr', .inr hl⟩
    · cases hres
      exact ⟨hi, .refl, hr, hfresh, hmine⟩

end Cas

section Landing

variable {op : ManifestOp} {s : Slot}

def NoCommit (t : ℕ) (σ : World) : Prop := ∀ c ∈ σ.commits, c.task ≠ some t

theorem stable_noCommit : Keeping L t (NoCommit t) := by
  intro t' σ σ' ht _ _ hg hn c hc
  rcases hg.commits with h | ⟨c', h, htask, -⟩
  · exact hn c (h ▸ hc)
  · rw [h] at hc
    obtain rfl | hc := List.mem_cons.mp hc
    · rw [htask]
      exact fun he => ht (Option.some.inj he)
    · exact hn c hc

theorem listedIn_iff {m : Manifest} : s.listedIn m = true ↔
    ∃ seg ∈ m.logSegments, seg.key = s.seq ∧ seg.firstSeq = s.seq := by
  simp [Slot.listedIn]

theorem Inv.committed_of_listed (hi : Inv L σ) (hl : s.listedIn σ.current.manifest = true) :
    ∃ s', σ.Committed s' ∧ s'.seq = s.seq := by
  obtain ⟨seg, hseg, hk, -⟩ := listedIn_iff.mp hl
  obtain ⟨older, ho⟩ := hi.commits_eq
  have hlink := hi.linked
  rw [ho] at hlink
  obtain ⟨s', hs', rfl⟩ := hlink.listed hseg
  rw [← ho] at hs'
  exact ⟨s', mem_slotsOf.mp hs', hk⟩

theorem Inv.listed_of_committed (hi : Inv L σ) (hs : σ.Committed s)
    (hcp : ∀ a ∈ σ.commits, a.manifest.checkpointSeq < s.last) :
    s.listedIn σ.current.manifest = true := by
  obtain ⟨older, ho⟩ := hi.commits_eq
  have hlink := hi.linked
  have hmem := mem_slotsOf.mpr hs
  rw [ho] at hlink hmem hcp
  exact listedIn_iff.mpr ⟨s.ref, hlink.listed_of_unfolded hmem hcp, rfl, rfl⟩

/-- The writer does not know whether its put was applied. -/
def Ambiguous (t : ℕ) (m : Manifest) (op : ManifestOp) (s : Slot) (σ : World) : Prop :=
  (Fresh t σ ∧ Mine t s σ) ∨ Landed t m op (some s) σ

theorem Ambiguous.own (h : Ambiguous t m op s σ) : Own t s σ :=
  h.elim (fun h => h.2.toOwn) fun h => h.own s rfl

theorem Ambiguous.landed_of_found (hi : Inv L σ) (h : Ambiguous t m op s σ)
    (hf : s.listedIn σ.current.manifest = true) : Landed t m op (some s) σ := by
  refine h.resolve_left fun hb => ?_
  obtain ⟨s', hs', hq⟩ := hi.committed_of_listed hf
  exact hb.2.free s' hs' hq

theorem Ambiguous.noCommit (h : Ambiguous t m op s σ) (hs : ¬ σ.Committed s) : NoCommit t σ :=
  h.elim (fun h => h.1.commits) fun h => absurd h.committed hs

def LandedPost (L : List Hazard) (t : ℕ) (m : Manifest) (op : ManifestOp) (s : Slot) :
    Except WalError (Option Manifest) → World → Prop
  | .error _ => fun σ => Hazard.landedUnread ∈ L → NoCommit t σ
  | .ok none => fun σ => Hazard.landedTrimmed ∈ L → NoCommit t σ
  | .ok (some fresh) => fun σ => Landed t m op (some s) σ ∧ Has fresh σ ∧
      (RefsLevel L → fresh = op.apply m)

theorem stable_landedPost (r : Except WalError (Option Manifest)) :
    Keeping L t (LandedPost L t m op s r) := by
  rcases r with e | _ | fresh
  · exact fun t' σ σ' ht hi hi' hg hn hL => stable_noCommit t' σ σ' ht hi hi' hg (hn hL)
  · exact fun t' σ σ' ht hi hi' hg hn hL => stable_noCommit t' σ σ' ht hi hi' hg (hn hL)
  · exact (lasting_landed.and (lasting_has.and .const)).calm.stable

theorem verdict_exact {c : Choice} (hi : Inv L σ) (h : Ambiguous t m op s σ)
    (hok : Avoids L (.casLanded s) c σ) (hL : Hazard.landedTrimmed ∈ L) :
    s.listedIn σ.current.manifest = true ↔ σ.Committed s := by
  refine ⟨fun hf => (h.landed_of_found hi hf).committed, fun hs => ?_⟩
  refine hi.listed_of_committed hs fun a ha => Nat.lt_of_not_le fun hle => ?_
  exact hok _ hL ⟨s, rfl, hs, a, ha, hle⟩

theorem spec_casLanded (m : Manifest) (op : ManifestOp) (hR : Lasting L R) :
    Spec L t (call (.casLanded s)) (fun σ => R σ ∧ Ambiguous t m op s σ)
      fun r σ => R σ ∧ LandedPost L t m op s r σ := by
  refine Discipline.Triple.perform (fun r => hR.calm.stable.and (stable_landedPost r))
    (fun _ _ _ => trivial) ?_
  rintro σ c r σ' hi ⟨hr, ha⟩ hok hex
  have hres : σ.casLanded c t s = (r, σ') := Option.some.inj hex
  have hok : Avoids L (.casLanded s) c σ := hok
  unfold World.casLanded at hres
  split at hres
  · cases hres
    have hv : VerdictOk L σ ⟨t, s, s.listedIn σ.current.manifest⟩ :=
      ⟨ha.own.version, ha.own.own, verdict_exact hi ha hok⟩
    have hi' := (Keeps.verdict hv).inv hi
    have hg : Guar L t σ
        { σ with verdicts := ⟨t, s, s.listedIn σ.current.manifest⟩ :: σ.verdicts } :=
      .verdict rfl
    refine ⟨hi', hg, hR t σ _ hi hi' hg hr, ?_⟩
    split
    · rename_i hf
      have hl := ha.landed_of_found hi hf
      refine ⟨lasting_landed t σ _ hi hi' hg hl, ⟨σ.current, hi.current_mem, rfl⟩, fun hL => ?_⟩
      -- the manifest that lists the slot is its own commit's, not a later one
      have hcur : σ.current.slot = some s := by
        by_contra hne
        exact hok .landedAhead (hL (by decide)) ⟨s, rfl, hl.committed, hne⟩
      obtain ⟨v, hc⟩ := hl.commit
      rw [hi.linked.slot_unique hi.current_mem hc hcur rfl rfl]
    · rename_i hf
      refine fun hL => ?_
      have hn : ¬ σ.Committed s := fun hs => hf ((verdict_exact hi ha hok hL).mpr hs)
      exact ha.noCommit hn
  · rename_i hc
    cases hres
    refine ⟨hi, .refl, hr, fun hL => ha.noCommit fun hs => ?_⟩
    exact hok _ hL ⟨fun h => hc h, .inl ⟨s, rfl, hs⟩⟩

def HeadPost (L : List Hazard) (fresh : Manifest) : Except WalError (Option ℕ) → World → Prop
  | .error _ => fun _ => Hazard.landedUnread ∉ L
  | .ok none => fun _ => False
  | .ok (some v) => PairOf fresh (some v)

theorem spec_headManifest {fresh : Manifest} {P : World → Prop} (hp : PairLevel L)
    (hP : Keeping L t P) :
    Spec L t (call (.headManifest fresh)) P fun r σ => P σ ∧ HeadPost L fresh r σ := by
  refine Spec.read (o := .headManifest fresh) rfl hP ?_ ?_
  · rintro (e | _ | v)
    · exact .const
    · exact .const
    · exact lasting_pairOf
  intro σ c r hi _ hok hex
  have hres : c.get (some σ.current.version) = r := congrArg Prod.fst (Option.some.inj hex)
  rcases r with e | o
  · refine fun hL => hok _ hL ⟨fun hc => ?_, .inr ⟨fresh, rfl⟩⟩
    rw [Choice.get, hc] at hres
    cases hres
  · obtain rfl := Choice.get_ok hres
    have hcur : σ.current.manifest = fresh := by
      by_contra hne
      exact hok .landedTorn hp.landedTorn ⟨fresh, rfl, hne⟩
    rw [← hcur]
    exact hi.current_pair

end Landing

end Walgit
