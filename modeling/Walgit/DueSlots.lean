import Mathlib.Data.List.Count
import Walgit.Schedules

/-!
# What a periodic trigger owes

A pass walks the fires since the recorded slot, runs the newest one when the
walk has come to it, and otherwise moves the record on without running. Each
record is a later fire, so a run at a fixed time ends, and only its last record
is a run.
-/

namespace Walgit.Bundles

inductive DueSlot
  | notDue
  | run (slot : ℤ)
  | skip (slot : ℤ)
  deriving DecidableEq, Repr

/-- `COALESCE_SCAN_MAX`. -/
def coalesceScanMax : ℕ := 4096

section Pass

variable (sched : Schedule)

/-- The loop of `due_slot`: the last fire not after `now`, of the next `n`. -/
def dueScan (now : ℤ) : ℕ → ℤ → Option ℤ → Option ℤ
  | 0, _, latest => latest
  | n + 1, cursor, latest =>
    match nextFireAfter sched cursor with
    | none => latest
    | some fire => if now < fire then latest else dueScan now n fire (some fire)

/-- `due_slot`; a record before the epoch counts as the epoch. -/
def dueSlot (lastSlot now : ℤ) : DueSlot :=
  match dueScan sched now coalesceScanMax (max 0 lastSlot) none with
  | none => .notDue
  | some slot =>
    if (nextFireAfter sched (max 0 slot)).any (· ≤ now) then .skip slot else .run slot

def DueSlot.slot? : DueSlot → Option ℤ
  | .notDue => none
  | .run s => some s
  | .skip s => some s

def DueSlot.isRun : DueSlot → Bool
  | .run _ => true
  | _ => false

/-- One evaluation: the record before it, its time, and the verdict. -/
structure Pass where
  last : ℤ
  now : ℤ
  verdict : DueSlot
  deriving DecidableEq, Repr

/-- Passes in turn; the slot of a verdict becomes the record. -/
def passes (last : ℤ) : List ℤ → List Pass
  | [] => []
  | now :: nows =>
    let verdict := dueSlot sched last now
    ⟨last, now, verdict⟩ :: passes (verdict.slot?.getD last) nows

/-- The passes over a stored record; at first sight the time of the pass is recorded. -/
def sweeps (record : Option ℤ) (nows : List ℤ) : List Pass :=
  match record, nows with
  | some last, nows => passes sched last nows
  | none, [] => []
  | none, now :: nows => passes sched now nows

end Pass

section Verdicts

variable {sched : Schedule} {last now cursor s : ℤ} {latest : Option ℤ} {n : ℕ}

def dueFires (sched : Schedule) (last now : ℤ) : Finset ℤ :=
  (window (max 0 last) now).filter fun f => sched.fires f = true

theorem mem_dueFires : s ∈ dueFires sched last now ↔
    max 0 last < s ∧ s ≤ now ∧ sched.fires s = true := by
  simp [dueFires, mem_window, and_assoc]

theorem dueScan_some (hc : 0 ≤ cursor) (h : dueScan sched now n cursor latest = some s) :
    latest = some s ∨ sched.fires s = true ∧ cursor < s ∧ s ≤ now := by
  induction n generalizing cursor latest with
  | zero => exact .inl h
  | succ n ih =>
    rw [dueScan] at h
    cases hnext : nextFireAfter sched cursor with
    | none => exact .inl (by simpa [hnext] using h)
    | some f =>
      obtain ⟨g, hf, hlt, hfires, -⟩ := nextFireAfter_some hnext
      obtain rfl : f = g := by omega
      simp only [hnext] at h
      split_ifs at h with hpast
      · exact .inl h
      · rcases ih (by omega) h with heq | ⟨hs, hfs, hle⟩
        · obtain rfl := Option.some.inj heq
          exact .inr ⟨hfires, hlt, not_lt.mp hpast⟩
        · exact .inr ⟨hs, hlt.trans hfs, hle⟩

theorem dueScan_isSome (h : latest.isSome = true) :
    (dueScan sched now n cursor latest).isSome = true := by
  induction n generalizing cursor latest with
  | zero => exact h
  | succ n ih =>
    rw [dueScan]
    split
    · exact h
    · split_ifs
      · exact h
      · exact ih rfl

theorem dueScan_none (hc : 0 ≤ cursor) (h : dueScan sched now (n + 1) cursor none = none)
    (hs : cursor < s) (hnow : s ≤ now) : sched.fires s = false := by
  rw [dueScan] at h
  cases hnext : nextFireAfter sched cursor with
  | none => exact nextFireAfter_none hnext hs
  | some f =>
    obtain ⟨g, hf, -, -, hleast⟩ := nextFireAfter_some hnext
    simp only [hnext] at h
    split_ifs at h with hpast
    · by_contra hfires
      have hle := hleast s hs (by simpa using hfires)
      omega
    · have hsome : (dueScan sched now n f (some f)).isSome = true := dueScan_isSome rfl
      simp [h] at hsome

def dueLatest (sched : Schedule) (last now : ℤ) : Option ℤ :=
  dueScan sched now coalesceScanMax (max 0 last) none

theorem dueLatest_some (h : dueLatest sched last now = some s) : s ∈ dueFires sched last now := by
  rcases dueScan_some (le_max_left 0 last) h with heq | ⟨hfires, hlt, hle⟩
  · cases heq
  · exact mem_dueFires.mpr ⟨hlt, hle, hfires⟩

theorem dueLatest_none (h : dueLatest sched last now = none) : dueFires sched last now = ∅ := by
  refine Finset.eq_empty_of_forall_notMem fun s hs => ?_
  obtain ⟨hlt, hle, hfires⟩ := mem_dueFires.mp hs
  rw [dueScan_none (le_max_left 0 last) h hlt hle] at hfires
  cases hfires

/-- What a verdict says: nothing is due; or the slot is due, and it is the newest fire, or a due
fire is left after it. -/
theorem dueSlot_spec (sched : Schedule) (last now : ℤ) :
    (dueSlot sched last now = .notDue ∧ dueFires sched last now = ∅) ∨
    (∃ s ∈ dueFires sched last now, dueSlot sched last now = .run s ∧
      dueFires sched s now = ∅) ∨
    ∃ s ∈ dueFires sched last now, dueSlot sched last now = .skip s ∧
      (dueFires sched s now).Nonempty := by
  unfold dueSlot
  rw [← dueLatest]
  cases hlatest : dueLatest sched last now with
  | none => exact .inl ⟨rfl, dueLatest_none hlatest⟩
  | some s =>
    have hs := dueLatest_some hlatest
    refine .inr ?_
    dsimp only
    cases hnext : nextFireAfter sched (max 0 s) with
    | none =>
      refine .inl ⟨s, hs, rfl, Finset.eq_empty_of_forall_notMem fun f hf => ?_⟩
      obtain ⟨hlt, -, hfires⟩ := mem_dueFires.mp hf
      simp [nextFireAfter_none hnext hlt] at hfires
    | some b =>
      obtain ⟨g, hb, hlt, hfires, hleast⟩ := nextFireAfter_some hnext
      obtain rfl : b = g := by omega
      rcases le_or_gt b now with hle | hgt
      · exact .inr ⟨s, hs, by simp [hle], b, mem_dueFires.mpr ⟨hlt, hle, hfires⟩⟩
      · refine .inl ⟨s, hs, by simp [hgt], Finset.eq_empty_of_forall_notMem fun f hf => ?_⟩
        obtain ⟨hsf, hfn, hff⟩ := mem_dueFires.mp hf
        have hle := hleast f hsf hff
        omega

theorem dueSlot_slot (h : (dueSlot sched last now).slot? = some s) :
    s ∈ dueFires sched last now := by
  rcases dueSlot_spec sched last now with ⟨hv, -⟩ | ⟨t, ht, hv, -⟩ | ⟨t, ht, hv, -⟩ <;>
    rw [hv] at h
  · cases h
  · obtain rfl : t = s := Option.some.inj h
    exact ht
  · obtain rfl : t = s := Option.some.inj h
    exact ht

theorem dueSlot_run (h : dueSlot sched last now = .run s) : sched.Newest now s := by
  rcases dueSlot_spec sched last now with ⟨hv, -⟩ | ⟨t, ht, hv, hempty⟩ | ⟨t, ht, hv, -⟩ <;>
    rw [hv] at h
  · cases h
  · obtain rfl : t = s := DueSlot.run.inj h
    obtain ⟨hlt, hle, hfires⟩ := mem_dueFires.mp ht
    refine ⟨hfires, hle, fun f hf hfn => ?_⟩
    by_contra hgt
    have hmem : f ∈ dueFires sched t now := mem_dueFires.mpr ⟨by omega, hfn, hf⟩
    simp [hempty] at hmem
  · cases h

theorem dueFires_ssubset (hs : s ∈ dueFires sched last now) :
    dueFires sched s now ⊂ dueFires sched last now := by
  obtain ⟨hlt, hle, hfires⟩ := mem_dueFires.mp hs
  refine Finset.ssubset_iff_of_subset (fun f hf => ?_) |>.mpr ⟨s, hs, fun hself => ?_⟩
  · obtain ⟨hsf, hfn, hff⟩ := mem_dueFires.mp hf
    exact mem_dueFires.mpr ⟨by omega, hfn, hff⟩
  · have hlt' := (mem_dueFires.mp hself).1
    omega

end Verdicts

section Runs

variable {sched : Schedule} {last now s : ℤ} {nows : List ℤ} {p : Pass} {m n : ℕ}

def recorded (ps : List Pass) : List ℤ := ps.filterMap fun p => p.verdict.slot?

/-- What holds of one pass. -/
structure PassSound (sched : Schedule) (p : Pass) : Prop where
  slot : ∀ s, p.verdict.slot? = some s → sched.fires s = true ∧ p.last < s ∧ s ≤ p.now
  run : ∀ s, p.verdict = .run s → sched.Newest p.now s

theorem passes_sound (h : p ∈ passes sched last nows) : PassSound sched p := by
  induction nows generalizing last with
  | nil => cases h
  | cons now nows ih =>
    rcases List.mem_cons.mp h with rfl | h
    · refine ⟨fun s hs => ?_, fun s hs => dueSlot_run hs⟩
      obtain ⟨hlt, hle, hfires⟩ := mem_dueFires.mp (dueSlot_slot hs)
      exact ⟨hfires, (le_max_right 0 last).trans_lt hlt, hle⟩
    · exact ih h

theorem recorded_increasing : (∀ s ∈ recorded (passes sched last nows), last < s) ∧
    (recorded (passes sched last nows)).Pairwise (· < ·) := by
  induction nows generalizing last with
  | nil => exact ⟨nofun, List.Pairwise.nil⟩
  | cons now nows ih =>
    rw [passes]
    cases hslot : (dueSlot sched last now).slot? with
    | none => simpa [recorded, hslot] using @ih last
    | some s =>
      have hlt : last < s :=
        (le_max_right 0 last).trans_lt (mem_dueFires.mp (dueSlot_slot hslot)).1
      obtain ⟨hgt, hpairs⟩ := @ih s
      have hrec : recorded (⟨last, now, dueSlot sched last now⟩ :: passes sched s nows) =
          s :: recorded (passes sched s nows) := by simp [recorded, hslot]
      simp only [Option.getD_some, hrec]
      exact ⟨List.forall_mem_cons.mpr ⟨hlt, fun t ht => hlt.trans (hgt t ht)⟩,
        List.pairwise_cons.mpr ⟨hgt, hpairs⟩⟩

def passesAt (sched : Schedule) (last now : ℤ) (m : ℕ) : List Pass :=
  passes sched last (List.replicate m now)

theorem passesAt_notDue (h : dueSlot sched last now = .notDue) :
    passesAt sched last now m = List.replicate m ⟨last, now, .notDue⟩ := by
  induction m with
  | zero => rfl
  | succ m ih =>
    rw [passesAt, List.replicate_succ, passes, List.replicate_succ, h]
    exact congrArg _ ih

/-- At one time the passes end: one run at most, of the newest fire, and nothing after it. -/
structure Settles (sched : Schedule) (last now : ℤ) (n : ℕ) : Prop where
  ends : ∀ m, ∀ p ∈ (passesAt sched last now m).drop n, p.verdict = .notDue
  once : ∀ m, (passesAt sched last now m).countP (fun p => p.verdict.isRun) ≤ 1
  newest : ∀ g, sched.Newest now g → max 0 last < g →
    ∃ p ∈ passesAt sched last now n, p.verdict = .run g

theorem passesAt_cons (h : (dueSlot sched last now).slot? = some s) :
    passesAt sched last now (m + 1) =
      ⟨last, now, dueSlot sched last now⟩ :: passesAt sched s now m := by
  rw [passesAt, List.replicate_succ, passes, h]
  rfl

theorem dueSlot_notDue (h : dueFires sched last now = ∅) : dueSlot sched last now = .notDue := by
  rcases dueSlot_spec sched last now with ⟨hv, -⟩ | ⟨t, ht, -⟩ | ⟨t, ht, -⟩
  · exact hv
  · simp [h] at ht
  · simp [h] at ht

theorem settles_notDue (h : dueFires sched last now = ∅) : Settles sched last now 0 := by
  have hpasses : ∀ m, passesAt sched last now m = List.replicate m ⟨last, now, .notDue⟩ :=
    fun m => passesAt_notDue (dueSlot_notDue h)
  refine ⟨fun m p hp => ?_, fun m => ?_, fun g hg hlast => ?_⟩
  · rw [hpasses, List.drop_zero] at hp
    rw [List.eq_of_mem_replicate hp]
  · rw [hpasses, List.countP_replicate]
    simp [DueSlot.isRun]
  · have hmem : g ∈ dueFires sched last now := mem_dueFires.mpr ⟨hlast, hg.2.1, hg.1⟩
    simp [h] at hmem

theorem settles_run (hv : dueSlot sched last now = .run s) (h : dueFires sched s now = ∅) :
    Settles sched last now 1 := by
  have hcons : ∀ m, passesAt sched last now (m + 1) =
      ⟨last, now, .run s⟩ :: List.replicate m ⟨s, now, .notDue⟩ := by
    intro m
    rw [passesAt_cons (s := s) (by rw [hv]; rfl), hv, passesAt_notDue (dueSlot_notDue h)]
  refine ⟨fun m p hp => ?_, fun m => ?_, fun g hg _ => ?_⟩
  · cases m with
    | zero => cases hp
    | succ m =>
      rw [hcons, List.drop_succ_cons, List.drop_zero] at hp
      rw [List.eq_of_mem_replicate hp]
  · cases m with
    | zero => exact Nat.zero_le 1
    | succ m =>
      rw [hcons, List.countP_cons, List.countP_replicate]
      simp [DueSlot.isRun]
  · have hs : sched.Newest now s := dueSlot_run hv
    obtain rfl : g = s := le_antisymm (hs.2.2 g hg.1 hg.2.1) (hg.2.2 s hs.1 hs.2.1)
    exact ⟨⟨last, now, .run g⟩, by rw [hcons]; exact List.mem_cons_self, rfl⟩

theorem settles_skip (hv : dueSlot sched last now = .skip s)
    (hmore : (dueFires sched s now).Nonempty) (h : Settles sched s now n) :
    Settles sched last now (n + 1) := by
  have hcons : ∀ m, passesAt sched last now (m + 1) =
      ⟨last, now, .skip s⟩ :: passesAt sched s now m := by
    intro m
    rw [passesAt_cons (s := s) (by rw [hv]; rfl), hv]
  refine ⟨fun m p hp => ?_, fun m => ?_, fun g hg _ => ?_⟩
  · cases m with
    | zero => cases hp
    | succ m =>
      rw [hcons, List.drop_succ_cons] at hp
      exact h.ends m p hp
  · cases m with
    | zero => exact Nat.zero_le 1
    | succ m =>
      rw [hcons, List.countP_cons]
      simpa [DueSlot.isRun] using h.once m
  · obtain ⟨f, hf⟩ := hmore
    obtain ⟨hsf, hfn, hff⟩ := mem_dueFires.mp hf
    obtain ⟨p, hp, hrun⟩ := h.newest g hg (hsf.trans_le (hg.2.2 f hff hfn))
    exact ⟨p, by rw [hcons]; exact List.mem_cons_of_mem _ hp, hrun⟩

theorem exists_settles (sched : Schedule) (last now : ℤ) : ∃ n, Settles sched last now n := by
  induction hcard : (dueFires sched last now).card using Nat.strong_induction_on generalizing last
    with
  | _ k ih =>
    rcases dueSlot_spec sched last now with ⟨-, h⟩ | ⟨s, -, hv, h⟩ | ⟨s, hs, hv, hmore⟩
    · exact ⟨0, settles_notDue h⟩
    · exact ⟨1, settles_run hv h⟩
    · obtain ⟨n, hn⟩ := ih _ (hcard ▸ Finset.card_lt_card (dueFires_ssubset hs)) s rfl
      exact ⟨n + 1, settles_skip hv hmore hn⟩

/-- Over every sequence of pass times, with a record or without one: the slots recorded increase,
each is a fire since the record before, a run is of the newest fire; and at one time the passes
end, with one run at most. -/
theorem due_slot_runs (sched : Schedule) (record : Option ℤ) (nows : List ℤ) :
    (recorded (sweeps sched record nows)).Pairwise (· < ·) ∧
    (∀ p ∈ sweeps sched record nows, PassSound sched p) ∧
    ∀ last now, ∃ n, Settles sched last now n := by
  refine ⟨?_, ?_, exists_settles sched⟩
  · rcases record with - | last
    · rcases nows with - | ⟨now, nows⟩
      · exact List.Pairwise.nil
      · exact recorded_increasing.2
    · exact recorded_increasing.2
  · rcases record with - | last
    · rcases nows with - | ⟨now, nows⟩
      · nofun
      · exact fun p hp => passes_sound hp
    · exact fun p hp => passes_sound hp

end Runs

end Walgit.Bundles
