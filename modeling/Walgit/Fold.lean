import Walgit.History
import Walgit.Verify

/-!
# Local refs against the fold

What the ref-writing calls do, in terms of replay; and that the segments a
committed manifest lists hold exactly the entries past its checkpoint, so that
a snapshot near the checkpoint's seq and a replay of the listed entries give
the fold up to the manifest's head.
-/

namespace Walgit

open Replay

section Refs

theorem entry_writes_eq {e : LogEntry} : e.writes = e.updates.flatMap RefUpdate.writes := by
  unfold LogEntry.writes LogEntry.updates
  cases e.refTxn <;> rfl

theorem noNull_replayEntries {s : RefState} {es : List LogEntry} (h : NoNull s) :
    NoNull (replayEntries LogEntry.writes s es) := by
  induction es generalizing s with
  | nil => exact h
  | cons e es ih =>
    rw [replayEntries, List.flatMap_cons, replay_append, entry_writes_eq]
    exact ih (noNull_replay h)

theorem noNull_foldUpto {log : List LogEntry} {q : ℕ} : NoNull (foldUpto log q) :=
  noNull_replayEntries fun _ _ h => by cases h

theorem update_writes_head {u : RefUpdate} {w : RefKey × Option String} (hw : w ∈ u.writes)
    (hk : w.1 = .head) : w.2.isSome := by
  unfold RefUpdate.writes at hw
  split at hw
  · split at hw
    · rw [List.mem_singleton.mp hw]
      rfl
    · cases hw
  · rw [List.mem_singleton.mp hw] at hk
    cases hk

theorem replay_head_isSome {s : RefState} {ws : List (RefKey × Option String)}
    (hs : (s .head).isSome) (h : ∀ w ∈ ws, w.1 = .head → w.2.isSome) :
    (replay s ws .head).isSome := by
  induction ws generalizing s with
  | nil => exact hs
  | cons w ws ih =>
    refine ih ?_ fun x hx => h x (List.mem_cons_of_mem w hx)
    unfold assign
    split
    · rename_i hk
      exact h w List.mem_cons_self hk.symm
    · exact hs

theorem entries_write_head {es : List LogEntry} {w : RefKey × Option String}
    (hw : w ∈ es.flatMap LogEntry.writes) (hk : w.1 = .head) : w.2.isSome := by
  obtain ⟨e, -, hw⟩ := List.mem_flatMap.mp hw
  rw [entry_writes_eq] at hw
  obtain ⟨u, -, hw⟩ := List.mem_flatMap.mp hw
  exact update_writes_head hw hk

theorem foldUpto_head {log : List LogEntry} {q : ℕ} : (foldUpto log q .head).isSome :=
  replay_head_isSome rfl fun _ hw hk => entries_write_head hw hk

theorem flatMap_refTxn {es : List LogEntry} :
    (es.filterMap LogEntry.refTxn).flatMap RefTransaction.writes = es.flatMap LogEntry.writes := by
  induction es with
  | nil => rfl
  | cons e es ih =>
    rw [List.filterMap_cons, List.flatMap_cons, ← ih]
    unfold LogEntry.writes
    cases e.refTxn <;> rfl

theorem loadRefSnapshot_replay {s : RefState} {ws : List (RefKey × Option String)}
    (h : ∀ w ∈ ws, w.1 = .head → w.2.isSome) :
    loadRefSnapshot s (replay s ws) = replay s ws := by
  funext key
  cases key with
  | ref name => rfl
  | head =>
    change (replay s ws .head).or (s .head) = replay s ws .head
    cases hr : replay s ws .head with
    | some x => rfl
    | none =>
      cases hs : s .head with
      | none => rfl
      | some x =>
        have := replay_head_isSome (s := s) (by rw [hs]; rfl) h
        rw [hr] at this
        cases this

theorem applyRefTxnsOffline_eq {s s' : RefState} {es : List LogEntry}
    (h : applyRefTxnsOffline s (es.filterMap LogEntry.refTxn) = some s') :
    s' = replayEntries LogEntry.writes s es := by
  unfold applyRefTxnsOffline at h
  split at h
  · rw [flatMap_refTxn, loadRefSnapshot_replay fun _ hw hk => entries_write_head hw hk] at h
    exact (Option.some.inj h).symm
  · cases h

theorem oid_writes {s : RefState} {us : List RefUpdate}
    (hh : ∀ u ∈ us, u.isSymbolic = decide (u.name = "HEAD")) :
    ((us.filter fun u => !u.isSymbolic).map fun u =>
      (RefKey.ref (updateRefTarget s u.name), u.value)) =
      (us.flatMap RefUpdate.writes).filter fun w => decide (w.1 ≠ .head) := by
  induction us with
  | nil => rfl
  | cons u us ih =>
    have ih := ih fun x hx => hh x (List.mem_cons_of_mem u hx)
    have hu := hh u List.mem_cons_self
    by_cases hH : u.name = "HEAD"
    · have hsym : u.isSymbolic = true := by simpa [hH] using hu
      simp [hsym, hH, RefUpdate.writes, ih]
    · have hsym : u.isSymbolic = false := by simpa [hH] using hu
      have ht : updateRefTarget s u.name = u.name := if_neg hH
      simp [hsym, ht, RefUpdate.writes, ih]

theorem head_writes {us : List RefUpdate}
    (hh : ∀ u ∈ us, u.isSymbolic = decide (u.name = "HEAD")) :
    ((us.filter RefUpdate.isSymbolic).map fun u => (RefKey.head, some u.newSymbolicTarget)) =
      (us.flatMap RefUpdate.writes).filter fun w => decide (w.1 = .head) := by
  induction us with
  | nil => rfl
  | cons u us ih =>
    have ih := ih fun x hx => hh x (List.mem_cons_of_mem u hx)
    have hu := hh u List.mem_cons_self
    by_cases hH : u.name = "HEAD"
    · have hsym : u.isSymbolic = true := by simpa [hH] using hu
      simp [hsym, hH, RefUpdate.writes, ih]
    · have hsym : u.isSymbolic = false := by simpa [hH] using hu
      simp [hsym, RefUpdate.writes, ih]

/-- Object updates first and `HEAD` last comes to the replay in order: no update of one kind
writes a key of the other. -/
theorem applyRefTxn_eq {s s' : RefState} {txn : RefTransaction}
    (hh : ∀ u ∈ txn.updates, u.isSymbolic = decide (u.name = "HEAD"))
    (h : applyRefTxn s txn = some s') : s' = replay s txn.writes := by
  unfold applyRefTxn at h
  split at h
  · rw [← Option.some.inj h]
    unfold writeHead gitUpdateRef oidUpdates RefTransaction.writes
    rw [oid_writes hh, head_writes hh]
    funext key
    by_cases hk : key = .head
    · subst hk
      rw [replay_filter fun w _ hw => by simpa using hw]
      refine replay_congr fun _ => replay_untouched fun w hw => ?_
      simpa using (List.mem_filter.mp hw).2
    · rw [replay_untouched, replay_filter]
      · intro w _ hw
        simpa [hw] using hk
      · intro w hw hwk
        have : w.1 = .head := by simpa using (List.mem_filter.mp hw).2
        exact hk (hwk.symm.trans this)
  · cases h

theorem gitUpdateRef_eq {s : RefState} {txn : RefTransaction}
    (hh : ∀ u ∈ txn.updates, u.isSymbolic = decide (u.name = "HEAD")) :
    gitUpdateRef s txn = replay s (txn.writes.filter fun w => decide (w.1 ≠ .head)) := by
  unfold gitUpdateRef oidUpdates RefTransaction.writes
  rw [oid_writes hh]

end Refs

section Listing

variable {c : Commit} {cs : List Commit}

def Folding (cs : List Commit) : Prop :=
  cs.Pairwise fun a b => b.manifest.checkpointSeq ≤ a.manifest.checkpointSeq

theorem Follows.checkpointSeq {c p : Commit} {older : List Commit} (h : Follows c p older)
    {s : Slot} (hs : c.slot = some s) : c.manifest.checkpointSeq = p.manifest.checkpointSeq := by
  have hcp : ∀ cp, c.op ≠ .checkpoint cp := by
    intro cp hop
    have := h.segment
    rw [hop, hs] at this
    cases this
  unfold Manifest.checkpointSeq
  rw [h.manifest, (apply_checkpointSeq h.notCreate hcp).1]

theorem Linked.minSeq (h : Linked (c :: cs)) :
    c.manifest.minSeq = c.manifest.checkpoint.elim 0 fun cp => cp.seq + 1 := by
  induction cs generalizing c with
  | nil =>
    obtain rfl : c = .created := h
    rfl
  | cons p older ih =>
    by_cases hcp : ∃ cp, c.op = .checkpoint cp
    · obtain ⟨cp, hop⟩ := hcp
      rw [h.1.manifest, hop]
      rfl
    · push Not at hcp
      rw [h.1.manifest, (apply_checkpointSeq h.1.notCreate hcp).1,
        (apply_checkpointSeq h.1.notCreate hcp).2, ih h.2]

theorem Linked.checkpoint_boundary (h : Linked (c :: cs)) {cp : CheckpointRef}
    (hcp : c.manifest.checkpoint = some cp) : ∃ a ∈ c :: cs, a.manifest.headSeq = cp.seq := by
  induction cs generalizing c with
  | nil =>
    obtain rfl : c = .created := h
    cases hcp
  | cons p older ih =>
    by_cases hop : ∃ cp, c.op = .checkpoint cp
    · obtain ⟨cp', hop⟩ := hop
      obtain ⟨a, ha, hhead⟩ := h.1.checkpoint cp' hop
      rw [h.1.manifest, hop] at hcp
      cases hcp
      exact ⟨a, List.mem_cons_of_mem c ha, hhead⟩
    · push Not at hop
      rw [h.1.manifest, (apply_checkpointSeq h.1.notCreate hop).1] at hcp
      obtain ⟨a, ha, hhead⟩ := ih h.2 hcp
      exact ⟨a, List.mem_cons_of_mem c ha, hhead⟩

theorem Linked.checkpointSeq_le (h : Linked (c :: cs)) :
    c.manifest.checkpointSeq ≤ c.manifest.headSeq := by
  unfold Manifest.checkpointSeq
  cases hcp : c.manifest.checkpoint with
  | none => exact Nat.zero_le _
  | some cp =>
    obtain ⟨a, ha, hhead⟩ := h.checkpoint_boundary hcp
    rw [Option.elim_some, ← hhead]
    exact (h.le_head ha).1

theorem Linked.slotsOf_pairwise (h : Linked cs) :
    (slotsOf cs).Pairwise fun a b => a.last < b.seq := by
  induction cs with
  | nil => exact .nil
  | cons c cs ih =>
    cases cs with
    | nil =>
      obtain rfl : c = .created := h
      exact .nil
    | cons p older =>
      refine List.pairwise_append.mpr ⟨ih h.2, ?_, fun a ha b hb => ?_⟩
      · cases c.slot <;> simp
      · obtain ⟨x, hx, hs⟩ := mem_slotsOf.mp ha
        have h1 := (h.2.slot_dense hx hs).2
        have h2 := (h.2.le_head hx).1
        have h3 := (h.1.slot b (Option.mem_toList.mp hb)).1
        omega

theorem sortSegments_of_pairwise {slots : List Slot}
    (h : slots.Pairwise fun a b => a.last < b.seq) (hd : ∀ s ∈ slots, s.Dense) :
    sortSegments (slots.map Slot.ref) = slots.map Slot.ref := by
  refine List.Pairwise.insertionSort_eq (List.pairwise_map.mpr ?_)
  refine h.imp_of_mem fun {a b} ha _ hab => ?_
  have := (hd a ha).seq_le_last
  change a.seq ≤ b.seq
  omega

theorem Linked.slotsOf_dense (h : Linked cs) {s : Slot} (hs : s ∈ slotsOf cs) : s.Dense := by
  obtain ⟨c, hc, hcs⟩ := mem_slotsOf.mp hs
  exact (h.slot_dense hc hcs).1

theorem Linked.logSegments_eq (h : Linked (c :: cs)) (hf : Folding (c :: cs)) :
    c.manifest.logSegments = ((slotsOf (c :: cs)).filter fun s =>
      decide (c.manifest.checkpointSeq < s.last)).map Slot.ref := by
  induction cs generalizing c with
  | nil =>
    obtain rfl : c = .created := h
    rfl
  | cons p older ih =>
    obtain ⟨hle, hf'⟩ := List.pairwise_cons.mp hf
    have ih := ih h.2 hf'
    have hcp := hle p List.mem_cons_self
    cases hs : c.slot with
    | some s =>
      have hd := h.1.slot s hs
      have hlast : p.manifest.checkpointSeq < s.last := by
        have := hd.2.seq_le_last
        have := h.2.checkpointSeq_le
        omega
      have hsplit : (slotsOf (c :: p :: older)).filter
            (fun s => decide (p.manifest.checkpointSeq < s.last)) =
          (slotsOf (p :: older)).filter
            (fun s => decide (p.manifest.checkpointSeq < s.last)) ++ [s] := by
        rw [slotsOf_cons_some hs, List.filter_append]
        simp [hlast]
      rw [h.1.logSegments_some hs, h.1.checkpointSeq hs, ih, ← List.map_singleton,
        ← List.map_append, ← hsplit]
      refine sortSegments_of_pairwise (h.slotsOf_pairwise.filter _) fun x hx => ?_
      exact h.slotsOf_dense (List.mem_filter.mp hx).1
    | none =>
      rw [slotsOf_cons_none hs]
      rcases h.1.logSegments_none hs with ⟨cp, -, hc, heq⟩ | ⟨hc, heq⟩
      · have hseq : c.manifest.checkpointSeq = cp.seq := by
          rw [Manifest.checkpointSeq, hc]
          rfl
        rw [heq, ih, hseq, List.filter_map, List.filter_filter]
        congr 1
        refine List.filter_congr fun s _ => ?_
        rw [hseq] at hcp
        by_cases hlt : cp.seq < s.last
        · have := hcp.trans_lt hlt
          simp [Slot.ref, hlt, this]
        · simp [Slot.ref, hlt]
      · rw [heq, ih, Manifest.checkpointSeq, Manifest.checkpointSeq, hc]

theorem filter_flatMap_filter {α β : Type} {l : List α} {f : α → List β} {p : α → Bool}
    {q : β → Bool} (h : ∀ x ∈ l, p x = false → ∀ y ∈ f x, q y = false) :
    ((l.filter p).flatMap f).filter q = (l.flatMap f).filter q := by
  induction l with
  | nil => rfl
  | cons x l ih =>
    have ih := ih fun y hy => h y (List.mem_cons_of_mem x hy)
    rw [List.flatMap_cons, List.filter_append, ← ih]
    cases hp : p x with
    | true => rw [List.filter_cons_of_pos hp, List.flatMap_cons, List.filter_append]
    | false =>
      have hnil : (f x).filter q = [] :=
        List.filter_eq_nil_iff.mpr fun y hy => by simp [h x List.mem_cons_self hp y hy]
      rw [List.filter_cons_of_neg (by simp [hp]), hnil, List.nil_append]

theorem between_split {older : List Commit} {new : List LogEntry} {a : Commit} {q : ℕ}
    (hlog : logOf cs = logOf (a :: older) ++ new)
    (hnew : ∀ e ∈ new, a.manifest.headSeq < e.seq) :
    between LogEntry.seq (logOf cs) q a.manifest.headSeq =
      between LogEntry.seq (logOf (a :: older)) q a.manifest.headSeq := by
  have hnil : between LogEntry.seq new q a.manifest.headSeq = [] := by
    refine List.filter_eq_nil_iff.mpr fun e he => ?_
    have := hnew e he
    simp only [decide_eq_true_eq]
    omega
  rw [hlog, between, List.filter_append]
  change between LogEntry.seq (logOf (a :: older)) q a.manifest.headSeq ++
    between LogEntry.seq new q a.manifest.headSeq = _
  rw [hnil, List.append_nil]

section Fetch

variable {a : Commit} {E : ℕ → List LogEntry} {fromSeq : ℕ}

theorem Linked.fetched (h : Linked cs) (hf : Folding cs) (ha : a ∈ cs)
    (hE : ∀ s ∈ slotsOf cs, E s.seq = s.entries) (hcp : a.manifest.checkpointSeq ≤ fromSeq) :
    ((((a.manifest.logSegments.filter fun s =>
        decide (fromSeq < s.lastSeq ∧ s.firstSeq ≤ a.manifest.headSeq)).map
      LogSegmentRef.key).flatMap E).filter fun e =>
        decide (fromSeq < e.seq ∧ e.seq ≤ a.manifest.headSeq)) =
      between LogEntry.seq (logOf cs) fromSeq a.manifest.headSeq := by
  obtain ⟨older, hsuf, hl, new, hlog, hnew⟩ := h.split ha
  have hmem : ∀ s ∈ slotsOf (a :: older), s ∈ slotsOf cs := by
    intro s hs
    obtain ⟨b, hb, hbs⟩ := mem_slotsOf.mp hs
    exact mem_slotsOf.mpr ⟨b, hsuf.subset hb, hbs⟩
  have hEmap : ∀ slots : List Slot, (∀ s ∈ slots, s ∈ slotsOf cs) →
      ((slots.map Slot.ref).map LogSegmentRef.key).flatMap E = slots.flatMap Slot.entries := by
    intro slots hs
    rw [List.map_map, List.flatMap_map]
    exact List.flatMap_congr fun s hm => hE s (hs s hm)
  rw [between_split hlog hnew, between, logOf_eq_flatMap,
    hl.logSegments_eq (hf.sublist hsuf.sublist), List.filter_map, List.filter_filter, hEmap]
  · refine filter_flatMap_filter fun s hs hp e he => ?_
    have hd := (hl.slotsOf_dense hs).mem he
    have hlast := (hl.slotsOf_dense hs).seq_le_last
    refine decide_eq_false fun hq => ?_
    rcases Bool.and_eq_false_iff.mp hp with hp | hp
    · have hp : ¬ (fromSeq < s.last ∧ s.seq ≤ a.manifest.headSeq) := of_decide_eq_false hp
      omega
    · have := of_decide_eq_false hp
      omega
  · exact fun s hs => hmem s (List.mem_filter.mp hs).1

end Fetch

end Listing

end Walgit
