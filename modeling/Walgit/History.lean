import Walgit.World

/-!
# Chains of commits

A history, newest first, is linked when each manifest is its operation applied
to the one before it and each slot lies past the head it was committed over.
From that alone: versions and revisions increase, the committed entries are
numbered increasingly, and a manifest lists only segments that were committed,
among them every one that no checkpoint has folded.
-/

namespace Walgit

open Replay

def Slot.last (s : Slot) : ℕ := s.seq + s.entries.length - 1

def Slot.ref (s : Slot) : LogSegmentRef := ⟨s.seq, s.seq, s.last⟩

/-- The entries are numbered from the slot's seq without a gap. -/
structure Slot.Dense (s : Slot) : Prop where
  ne : s.entries ≠ []
  seqs : s.entries.map LogEntry.seq = List.range' s.seq s.entries.length

/-- The entries say what the operation does to the packs. -/
def ManifestOp.Logs : ManifestOp → List LogEntry → Prop
  | .push packs _, es => packs = es.filterMap LogEntry.pack ∧ ∀ e ∈ es, e.kind = .push
  | .compact pack supersedes _, es =>
    ∃ e, es = [e] ∧ e.kind = .compact ∧ e.pack = some pack ∧ e.supersedes = supersedes
  | .settings _ _, es => ∀ e ∈ es, e.kind = .settings
  | _, es => es = []

/-- What a writer has made sure of when it puts the manifest: its segment was written after the
version it knows, only entries of a ref-writing kind carry a transaction, and a checkpoint is
not taken over one that already covers the head. -/
structure Orderly (known : Option ℕ) (m : Manifest) (op : ManifestOp) (slot : Option Slot) :
    Prop where
  claimed : ∀ v s, known = some v → slot = some s → v < s.version
  txn : ∀ s, slot = some s → ∀ e ∈ s.entries, e.refTxn = e.txn
  due : ∀ cp old, op = .checkpoint cp → m.checkpoint = some old → old.seq < m.headSeq

structure Follows (c p : Commit) (older : List Commit) : Prop where
  base : c.base = p.manifest
  manifest : c.manifest = c.op.apply p.manifest
  notCreate : c.op ≠ .create
  version : p.version < c.version
  segment : c.op.segment = c.slot.map Slot.ref
  logs : c.op.Logs c.entries
  slot : ∀ s, c.slot = some s → p.manifest.headSeq < s.seq ∧ s.Dense
  checkpoint : ∀ cp, c.op = .checkpoint cp → ∃ a ∈ p :: older, a.manifest.headSeq = cp.seq
  orderly : Orderly (some p.version) p.manifest c.op c.slot

def Linked : List Commit → Prop
  | [] => False
  | [c] => c = .created
  | c :: p :: older => Follows c p older ∧ Linked (p :: older)

theorem Slot.Dense.pos {s : Slot} (h : s.Dense) : 0 < s.entries.length :=
  List.length_pos_iff.mpr h.ne

theorem Slot.Dense.mem {s : Slot} (h : s.Dense) {e : LogEntry} (he : e ∈ s.entries) :
    s.seq ≤ e.seq ∧ e.seq ≤ s.last := by
  have hm : e.seq ∈ List.range' s.seq s.entries.length := by
    rw [← h.seqs]
    exact List.mem_map_of_mem he
  have := List.mem_range'_1.mp hm
  have := h.pos
  unfold Slot.last
  omega

theorem Slot.Dense.pairwise {s : Slot} (h : s.Dense) :
    s.entries.Pairwise fun a b => a.seq < b.seq := by
  have hp : (s.entries.map LogEntry.seq).Pairwise (· < ·) := by
    rw [h.seqs]
    exact List.pairwise_lt_range'
  exact List.pairwise_map.mp hp

theorem Slot.Dense.seq_le_last {s : Slot} (h : s.Dense) : s.seq ≤ s.last := by
  have := h.pos
  unfold Slot.last
  omega

theorem apply_headSeq {m : Manifest} {op : ManifestOp} (h : op ≠ .create) :
    (op.apply m).headSeq = op.segment.elim m.headSeq LogSegmentRef.lastSeq := by
  cases op <;> first | exact absurd rfl h | rfl

theorem apply_revision {m : Manifest} {op : ManifestOp} (h : op ≠ .create) :
    (op.apply m).revision = m.revision + 1 := by
  cases op <;> first | exact absurd rfl h | rfl

namespace Follows

variable {c p : Commit} {older : List Commit}

theorem headSeq (h : Follows c p older) :
    c.manifest.headSeq = c.slot.elim p.manifest.headSeq Slot.last := by
  rw [h.manifest, apply_headSeq h.notCreate, h.segment]
  cases c.slot <;> rfl

theorem headSeq_le (h : Follows c p older) : p.manifest.headSeq ≤ c.manifest.headSeq := by
  rw [h.headSeq]
  cases hs : c.slot with
  | none => exact Nat.le_refl _
  | some s =>
    obtain ⟨hlt, hd⟩ := h.slot s hs
    have := hd.seq_le_last
    simp only [Option.elim_some]
    omega

theorem revision (h : Follows c p older) :
    c.manifest.revision = p.manifest.revision + 1 := by
  rw [h.manifest, apply_revision h.notCreate]

theorem entries (h : Follows c p older) {e : LogEntry} (he : e ∈ c.entries) :
    p.manifest.headSeq < e.seq ∧ e.seq ≤ c.manifest.headSeq := by
  rw [h.headSeq]
  unfold Commit.entries at he
  cases hs : c.slot with
  | none => simp [hs] at he
  | some s =>
    rw [hs, Option.elim_some] at he
    obtain ⟨hlt, hd⟩ := h.slot s hs
    have := hd.mem he
    simp only [Option.elim_some]
    omega

theorem entries_pairwise (h : Follows c p older) :
    c.entries.Pairwise fun a b => a.seq < b.seq := by
  unfold Commit.entries
  cases hs : c.slot with
  | none => exact .nil
  | some s => exact (h.slot s hs).2.pairwise

end Follows

section Chain

variable {c p : Commit} {cs : List Commit}

theorem Linked.ne_nil (h : Linked cs) : cs ≠ [] := by
  rintro rfl
  exact h

theorem Linked.head_mem (h : Linked cs) : cs.headD .created ∈ cs := by
  cases cs with
  | nil => exact h.elim
  | cons c cs => exact List.mem_cons_self

/-- What holds between any two commits of a history, the newer one first. -/
structure Newer (a b : Commit) : Prop where
  version : b.version < a.version
  revision : b.manifest.revision < a.manifest.revision
  head : b.manifest.headSeq ≤ a.manifest.headSeq
  slot : ∀ s, a.slot = some s → b.manifest.headSeq < s.seq

theorem Newer.trans {a b c : Commit} (h : Newer a b) (h' : Newer b c) : Newer a c :=
  ⟨h'.version.trans h.version, h'.revision.trans h.revision, h'.head.trans h.head,
    fun s hs => h'.head.trans_lt (h.slot s hs)⟩

theorem Follows.newer (h : Follows c p cs) : Newer c p :=
  ⟨h.version, by rw [h.revision]; omega, h.headSeq_le, fun s hs => (h.slot s hs).1⟩

theorem Linked.pairwise (h : Linked cs) : cs.Pairwise Newer := by
  induction cs with
  | nil => exact .nil
  | cons c cs ih =>
    cases cs with
    | nil => exact List.pairwise_singleton _ _
    | cons p older =>
      have ih := ih h.2
      refine List.pairwise_cons.mpr ⟨fun a ha => ?_, ih⟩
      obtain rfl | ha := List.mem_cons.mp ha
      · exact h.1.newer
      · exact h.1.newer.trans ((List.pairwise_cons.mp ih).1 a ha)

theorem Linked.trichotomy (h : Linked cs) {a b : Commit} (ha : a ∈ cs) (hb : b ∈ cs) :
    a = b ∨ Newer a b ∨ Newer b a := by
  by_cases hab : a = b
  · exact .inl hab
  · refine .inr (List.Pairwise.forall_of_forall_of_flip
      (R := fun a b => a = b ∨ Newer a b ∨ Newer b a) ?_ ?_ ?_ ha hb |>.resolve_left hab)
    · exact fun x _ => .inl rfl
    · exact h.pairwise.imp fun hn => .inr (.inl hn)
    · exact h.pairwise.imp fun hn => .inr (.inr hn)

theorem Linked.eq_of_revision (h : Linked cs) {a b : Commit} (ha : a ∈ cs) (hb : b ∈ cs)
    (hr : a.manifest.revision = b.manifest.revision) : a = b := by
  rcases h.trichotomy ha hb with hab | hn | hn
  · exact hab
  · exact absurd hr (Nat.ne_of_gt hn.revision)
  · exact absurd hr (Nat.ne_of_lt hn.revision)

theorem Linked.version_le (h : Linked cs) {a b : Commit} (ha : a ∈ cs) (hb : b ∈ cs)
    (hr : a.manifest.revision ≤ b.manifest.revision) : a.version ≤ b.version := by
  rcases h.trichotomy ha hb with rfl | hn | hn
  · exact Nat.le_refl _
  · exact absurd hn.revision (Nat.not_lt.mpr hr)
  · exact Nat.le_of_lt hn.version

theorem Linked.headSeq_le (h : Linked cs) {a b : Commit} (ha : a ∈ cs) (hb : b ∈ cs)
    (hr : a.manifest.revision ≤ b.manifest.revision) :
    a.manifest.headSeq ≤ b.manifest.headSeq := by
  rcases h.trichotomy ha hb with rfl | hn | hn
  · exact Nat.le_refl _
  · exact absurd hn.revision (Nat.not_lt.mpr hr)
  · exact hn.head

theorem Linked.le_head (h : Linked (c :: cs)) {a : Commit} (ha : a ∈ c :: cs) :
    a.manifest.headSeq ≤ c.manifest.headSeq ∧ a.version ≤ c.version ∧
      a.manifest.revision ≤ c.manifest.revision := by
  obtain rfl | ha := List.mem_cons.mp ha
  · exact ⟨Nat.le_refl _, Nat.le_refl _, Nat.le_refl _⟩
  · have hn := (List.pairwise_cons.mp h.pairwise).1 a ha
    exact ⟨hn.head, Nat.le_of_lt hn.version, Nat.le_of_lt hn.revision⟩

theorem Linked.eq_head_of_version (h : Linked (c :: cs)) {a : Commit} (ha : a ∈ c :: cs)
    (hv : c.version ≤ a.version) : a = c := by
  obtain rfl | ha := List.mem_cons.mp ha
  · rfl
  · have := ((List.pairwise_cons.mp h.pairwise).1 a ha).version
    omega

theorem Linked.mem_log (h : Linked (c :: cs)) {e : LogEntry} (he : e ∈ logOf (c :: cs)) :
    0 < e.seq ∧ e.seq ≤ c.manifest.headSeq := by
  induction cs generalizing c with
  | nil =>
    obtain rfl : c = .created := h
    simp [logOf, Commit.entries, Commit.created] at he
  | cons p older ih =>
    rw [logOf] at he
    rcases List.mem_append.mp he with he | he
    · have := ih h.2 he
      have := h.1.headSeq_le
      omega
    · have := h.1.entries he
      omega

theorem Linked.log_pairwise (h : Linked cs) :
    (logOf cs).Pairwise fun a b => a.seq < b.seq := by
  induction cs with
  | nil => exact .nil
  | cons c cs ih =>
    cases cs with
    | nil =>
      obtain rfl : c = .created := h
      exact .nil
    | cons p older =>
      refine List.pairwise_append.mpr ⟨ih h.2, h.1.entries_pairwise, fun a ha b hb => ?_⟩
      have := h.2.mem_log ha
      have := h.1.entries hb
      omega

theorem Linked.follows (h : Linked cs) {a : Commit} (ha : a ∈ cs) :
    a = .created ∨ ∃ p older, (p :: older) <:+ cs ∧ Follows a p older := by
  induction cs with
  | nil => exact h.elim
  | cons c cs ih =>
    cases cs with
    | nil =>
      obtain rfl | ha := List.mem_cons.mp ha
      · exact .inl h
      · cases ha
    | cons p older =>
      obtain rfl | ha := List.mem_cons.mp ha
      · exact .inr ⟨p, older, List.suffix_cons _ _, h.1⟩
      · rcases ih h.2 ha with rfl | ⟨p', older', hsuf, hf⟩
        · exact .inl rfl
        · exact .inr ⟨p', older', hsuf.trans (List.suffix_cons _ _), hf⟩

theorem Linked.slot_dense (h : Linked cs) {a : Commit} (ha : a ∈ cs) {s : Slot}
    (hs : a.slot = some s) : s.Dense ∧ s.last = a.manifest.headSeq := by
  rcases h.follows ha with rfl | ⟨p, older, -, hf⟩
  · cases hs
  · refine ⟨(hf.slot s hs).2, ?_⟩
    rw [hf.headSeq, hs]
    rfl

theorem Linked.slot_unique (h : Linked cs) {a b : Commit} (ha : a ∈ cs) (hb : b ∈ cs)
    {s s' : Slot} (hs : a.slot = some s) (hs' : b.slot = some s') (hq : s.seq = s'.seq) :
    a = b := by
  have hd := h.slot_dense ha hs
  have hd' := h.slot_dense hb hs'
  have hle := hd.1.seq_le_last
  have hle' := hd'.1.seq_le_last
  rcases h.trichotomy ha hb with hab | hn | hn
  · exact hab
  · have := hn.slot s hs
    omega
  · have := hn.slot s' hs'
    omega

theorem Linked.split (h : Linked cs) {a : Commit} (ha : a ∈ cs) :
    ∃ older, (a :: older) <:+ cs ∧ Linked (a :: older) ∧
      ∃ new, logOf cs = logOf (a :: older) ++ new ∧ ∀ e ∈ new, a.manifest.headSeq < e.seq := by
  induction cs with
  | nil => exact h.elim
  | cons c cs ih =>
    obtain rfl | ha := List.mem_cons.mp ha
    · exact ⟨cs, List.suffix_rfl, h, [], (List.append_nil _).symm, fun e he => by cases he⟩
    · cases cs with
      | nil => cases ha
      | cons p rest =>
        obtain ⟨older, hsuf, hl, new, hlog, hnew⟩ := ih h.2 ha
        refine ⟨older, hsuf.trans (List.suffix_cons _ _), hl, new ++ c.entries, ?_, ?_⟩
        · rw [logOf, hlog, List.append_assoc]
        · intro e he
          rcases List.mem_append.mp he with he | he
          · exact hnew e he
          · have := (h.1.entries he).1
            have := (h.2.le_head ha).1
            omega

def slotsOf : List Commit → List Slot
  | [] => []
  | c :: cs => slotsOf cs ++ c.slot.toList

theorem logOf_eq_flatMap : logOf cs = (slotsOf cs).flatMap Slot.entries := by
  induction cs with
  | nil => rfl
  | cons c cs ih =>
    rw [logOf, slotsOf, ih, List.flatMap_append]
    cases hs : c.slot <;> simp [Commit.entries, hs]

theorem mem_slotsOf {s : Slot} : s ∈ slotsOf cs ↔ ∃ c ∈ cs, c.slot = some s := by
  induction cs with
  | nil => simp [slotsOf]
  | cons c cs ih => simp [slotsOf, ih, or_comm]

theorem mem_sortSegments {seg : LogSegmentRef} {segs : List LogSegmentRef} :
    seg ∈ sortSegments segs ↔ seg ∈ segs :=
  List.mem_insertionSort _

theorem apply_checkpointSeq {m : Manifest} {op : ManifestOp} (h : op ≠ .create)
    (hs : ∀ cp, op ≠ .checkpoint cp) : (op.apply m).checkpoint = m.checkpoint ∧
      (op.apply m).minSeq = m.minSeq := by
  cases op with
  | create => exact absurd rfl h
  | push packs seg => exact ⟨rfl, rfl⟩
  | compact pack supersedes seg => exact ⟨rfl, rfl⟩
  | settings doc seg => exact ⟨rfl, rfl⟩
  | checkpoint cp => exact absurd rfl (hs cp)
  | annotate checksum rev bitmap commitGraph => exact ⟨rfl, rfl⟩

theorem Follows.logSegments_some {older : List Commit} (h : Follows c p older) {s : Slot}
    (hs : c.slot = some s) :
    c.manifest.logSegments = sortSegments (p.manifest.logSegments ++ [s.ref]) := by
  have hseg := h.segment
  rw [hs, Option.map_some] at hseg
  rw [h.manifest]
  cases hop : c.op <;> rw [hop] at hseg <;>
    first | cases hseg; rfl | cases hseg

theorem Follows.logSegments_none {older : List Commit} (h : Follows c p older)
    (hs : c.slot = none) :
    (∃ cp, c.op = .checkpoint cp ∧ c.manifest.checkpoint = some cp ∧
      c.manifest.logSegments =
        p.manifest.logSegments.filter fun s => decide (cp.seq < s.lastSeq)) ∨
      (c.manifest.checkpoint = p.manifest.checkpoint ∧
        c.manifest.logSegments = p.manifest.logSegments) := by
  have hseg := h.segment
  rw [hs, Option.map_none] at hseg
  rw [h.manifest]
  cases hop : c.op with
  | create => exact absurd hop h.notCreate
  | push packs seg => rw [hop] at hseg; cases hseg
  | compact pack supersedes seg => rw [hop] at hseg; cases hseg
  | settings doc seg => rw [hop] at hseg; cases hseg
  | checkpoint cp => exact .inl ⟨cp, rfl, rfl, rfl⟩
  | annotate checksum rev bitmap commitGraph => exact .inr ⟨rfl, rfl⟩

theorem slotsOf_cons_none (hs : c.slot = none) : slotsOf (c :: cs) = slotsOf cs := by
  simp [slotsOf, hs]

theorem slotsOf_cons_some {s : Slot} (hs : c.slot = some s) :
    slotsOf (c :: cs) = slotsOf cs ++ [s] := by
  simp [slotsOf, hs]

theorem Linked.listed (h : Linked (c :: cs)) {seg : LogSegmentRef}
    (hseg : seg ∈ c.manifest.logSegments) : ∃ s ∈ slotsOf (c :: cs), s.ref = seg := by
  induction cs generalizing c with
  | nil =>
    obtain rfl : c = .created := h
    cases hseg
  | cons p older ih =>
    cases hs : c.slot with
    | none =>
      rw [slotsOf_cons_none hs]
      rcases h.1.logSegments_none hs with ⟨cp, -, -, heq⟩ | ⟨-, heq⟩
      · rw [heq] at hseg
        exact ih h.2 (List.mem_filter.mp hseg).1
      · exact ih h.2 (heq ▸ hseg)
    | some s =>
      rw [slotsOf_cons_some hs]
      rw [h.1.logSegments_some hs] at hseg
      rcases List.mem_append.mp (mem_sortSegments.mp hseg) with hseg | hseg
      · obtain ⟨s', hs', rfl⟩ := ih h.2 hseg
        exact ⟨s', List.mem_append_left _ hs', rfl⟩
      · exact ⟨s, List.mem_append_right _ List.mem_cons_self, (List.mem_singleton.mp hseg).symm⟩

/-- A committed segment that no checkpoint has reached is still listed. -/
theorem Linked.listed_of_unfolded (h : Linked (c :: cs)) {s : Slot} (hs : s ∈ slotsOf (c :: cs))
    (hcp : ∀ a ∈ c :: cs, a.manifest.checkpointSeq < s.last) :
    s.ref ∈ c.manifest.logSegments := by
  induction cs generalizing c with
  | nil =>
    obtain rfl : c = .created := h
    cases hs
  | cons p older ih =>
    have hold := fun hs => ih h.2 hs fun a ha => hcp a (List.mem_cons_of_mem c ha)
    cases hcs : c.slot with
    | none =>
      rw [slotsOf_cons_none hcs] at hs
      rcases h.1.logSegments_none hcs with ⟨cp, -, hc, heq⟩ | ⟨-, heq⟩
      · have hlt := hcp c List.mem_cons_self
        rw [Manifest.checkpointSeq, hc] at hlt
        rw [heq]
        exact List.mem_filter.mpr ⟨hold hs, decide_eq_true hlt⟩
      · rw [heq]
        exact hold hs
    | some s₀ =>
      rw [slotsOf_cons_some hcs] at hs
      rw [h.1.logSegments_some hcs]
      refine mem_sortSegments.mpr (List.mem_append.mpr ?_)
      rcases List.mem_append.mp hs with hs | hs
      · exact .inl (hold hs)
      · rw [List.mem_singleton.mp hs]
        exact .inr List.mem_cons_self

end Chain

end Walgit
