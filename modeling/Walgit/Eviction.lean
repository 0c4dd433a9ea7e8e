import Mathlib

/-!
# The target of an eviction

An eviction takes the repositories that nobody used for a while, the oldest
first, until their bytes are within a budget. The budget is one for everything
on disk.
-/

namespace Walgit.Eviction

variable {Id : Type}

/-- A registered repository: the bytes of its directory, its last use, and
whether a sync or a request holds one of its gates. -/
structure Repo (Id : Type) where
  id : Id
  bytes : ℕ
  lastAccess : ℕ
  syncHeld : Bool
  inUse : Bool
  deriving DecidableEq, Repr

def Repo.Held (r : Repo Id) : Prop := r.syncHeld ∨ r.inUse

instance (r : Repo Id) : Decidable r.Held := inferInstanceAs (Decidable (_ ∨ _))

/-- The map of open repositories. -/
structure Registry (Id : Type) where
  repos : List (Repo Id)
  distinct : (repos.map Repo.id).Nodup

/-- What the float arithmetic of `disk_high_watermark` says of the bytes used and
the size of a filesystem. -/
structure Watermark where
  positive : Bool
  exceeded : ℕ → ℕ → Bool
  low : ℕ → ℕ

structure CacheConfig where
  isDisk : Bool
  maxBytes : ℕ
  evictIdleAfter : ℕ
  watermark : Watermark

structure EvictReport where
  evicted : ℕ
  remainingBytes : ℕ
  deriving DecidableEq, Repr

def bytesOf (rs : List (Repo Id)) : ℕ := (rs.map Repo.bytes).sum

/-- The budget; in disk mode there is one only under pressure. -/
def budget (cfg : CacheConfig) (usage : Option (ℕ × ℕ)) (repos : List (Repo Id)) : Option ℕ :=
  if cfg.isDisk then
    match usage with
    | none => none
    | some (used, total) =>
      if 0 < total ∧ cfg.watermark.positive then
        if cfg.watermark.exceeded used total then
          some (bytesOf repos - (used - cfg.watermark.low total))
        else none
      else none
  else some cfg.maxBytes

def Repo.Idle (cfg : CacheConfig) (now : ℕ) (r : Repo Id) : Prop :=
  cfg.evictIdleAfter < now - r.lastAccess

instance (cfg : CacheConfig) (now : ℕ) (r : Repo Id) : Decidable (r.Idle cfg now) :=
  inferInstanceAs (Decidable (_ < _))

/-- The idle repositories, the oldest first. -/
def candidates (cfg : CacheConfig) (now : ℕ) (repos : List (Repo Id)) : List (Repo Id) :=
  (repos.filter fun r => r.Idle cfg now).insertionSort fun a b => a.lastAccess ≤ b.lastAccess

/-- The loop over the candidates: those it evicts, and the total it ends with. -/
def evictLoop (maxBytes : ℕ) : List (Repo Id) → ℕ → List (Repo Id) × ℕ
  | [], total => ([], total)
  | r :: rs, total =>
    if total ≤ maxBytes then ([], total)
    else if r.Held then evictLoop maxBytes rs total
    else
      let (evicted, total) := evictLoop maxBytes rs (total - r.bytes)
      (r :: evicted, total)

/-- What an eviction did: whom it evicted, in order, who remains, and its report. -/
structure Outcome (Id : Type) where
  evicted : List (Repo Id)
  remaining : List (Repo Id)
  report : EvictReport

def without [DecidableEq Id] (repos gone : List (Repo Id)) : List (Repo Id) :=
  repos.filter fun r => r.id ∉ gone.map Repo.id

def evictIdle [DecidableEq Id] (cfg : CacheConfig) (usage : Option (ℕ × ℕ)) (now : ℕ)
    (reg : Registry Id) : Outcome Id :=
  match budget cfg usage reg.repos with
  | none => ⟨[], reg.repos, ⟨0, 0⟩⟩
  | some maxBytes =>
    let idle := candidates cfg now reg.repos
    let (evicted, total) := evictLoop maxBytes idle (bytesOf idle)
    ⟨evicted, without reg.repos evicted, ⟨evicted.length, total⟩⟩

section Loop

variable {maxBytes total : ℕ} {r q : Repo Id} {rs pre post : List (Repo Id)}

@[simp] theorem bytesOf_nil : bytesOf ([] : List (Repo Id)) = 0 := rfl

@[simp] theorem bytesOf_cons : bytesOf (r :: rs) = r.bytes + bytesOf rs := rfl

theorem evictLoop_cons_cases (maxBytes : ℕ) (r : Repo Id) (rs : List (Repo Id)) (total : ℕ) :
    (total ≤ maxBytes ∧ evictLoop maxBytes (r :: rs) total = ([], total)) ∨
      (maxBytes < total ∧ r.Held ∧
        evictLoop maxBytes (r :: rs) total = evictLoop maxBytes rs total) ∨
      (maxBytes < total ∧ ¬ r.Held ∧
        evictLoop maxBytes (r :: rs) total =
          (r :: (evictLoop maxBytes rs (total - r.bytes)).1,
            (evictLoop maxBytes rs (total - r.bytes)).2)) := by
  rw [evictLoop]
  by_cases hdone : total ≤ maxBytes
  · exact .inl ⟨hdone, if_pos hdone⟩
  · rw [if_neg hdone]
    by_cases hheld : r.Held
    · exact .inr (.inl ⟨not_le.mp hdone, hheld, if_pos hheld⟩)
    · exact .inr (.inr ⟨not_le.mp hdone, hheld, if_neg hheld⟩)

theorem evictLoop_sublist : (evictLoop maxBytes rs total).1.Sublist rs := by
  induction rs generalizing total with
  | nil => exact .slnil
  | cons r rs ih =>
    rcases evictLoop_cons_cases maxBytes r rs total with ⟨-, h⟩ | ⟨-, -, h⟩ | ⟨-, -, h⟩
    · rw [h]
      exact List.nil_sublist _
    · rw [h]
      exact ih.cons r
    · rw [h]
      exact ih.cons_cons r

theorem evictLoop_total (maxBytes : ℕ) (h : bytesOf rs ≤ total) :
    (evictLoop maxBytes rs total).2 + bytesOf (evictLoop maxBytes rs total).1 = total := by
  induction rs generalizing total with
  | nil => rfl
  | cons r rs ih =>
    rw [bytesOf_cons] at h
    rcases evictLoop_cons_cases maxBytes r rs total with ⟨-, heq⟩ | ⟨-, -, heq⟩ | ⟨-, -, heq⟩
    · rw [heq]
      rfl
    · rw [heq]
      exact ih (by omega)
    · have hle : bytesOf rs ≤ total - r.bytes := by omega
      have hrest := ih hle
      rw [heq, bytesOf_cons]
      omega

theorem evictLoop_free (h : r ∈ (evictLoop maxBytes rs total).1) : ¬ r.Held := by
  induction rs generalizing total with
  | nil => cases h
  | cons q rs ih =>
    rcases evictLoop_cons_cases maxBytes q rs total with ⟨-, heq⟩ | ⟨-, -, heq⟩ | ⟨-, hfree, heq⟩
    · rw [heq] at h
      cases h
    · rw [heq] at h
      exact ih h
    · rw [heq] at h
      rcases List.mem_cons.mp h with rfl | h
      · exact hfree
      · exact ih h

theorem evictLoop_target :
    (evictLoop maxBytes rs total).2 ≤ maxBytes ∨
      ∀ r ∈ rs, r ∈ (evictLoop maxBytes rs total).1 ∨ r.Held := by
  induction rs generalizing total with
  | nil => exact .inr nofun
  | cons q rs ih =>
    rcases evictLoop_cons_cases maxBytes q rs total with
      ⟨hdone, heq⟩ | ⟨-, hheld, heq⟩ | ⟨-, -, heq⟩
    · rw [heq]
      exact .inl hdone
    · rw [heq]
      exact ih.imp_right fun h => List.forall_mem_cons.mpr ⟨.inr hheld, h⟩
    · rw [heq]
      refine ih.imp_right fun h => List.forall_mem_cons.mpr ⟨.inl List.mem_cons_self, ?_⟩
      exact fun r hr => (h r hr).imp_left (List.mem_cons_of_mem q)

theorem evictLoop_oldest (hsorted : rs.Pairwise fun a b => a.lastAccess ≤ b.lastAccess)
    (hr : r ∈ (evictLoop maxBytes rs total).1) (hq : q ∈ rs) (hlt : q.lastAccess < r.lastAccess) :
    q ∈ (evictLoop maxBytes rs total).1 ∨ q.Held := by
  induction rs generalizing total with
  | nil => cases hq
  | cons a rs ih =>
    obtain ⟨hle, hsorted⟩ := List.pairwise_cons.mp hsorted
    rcases evictLoop_cons_cases maxBytes a rs total with ⟨-, heq⟩ | ⟨-, hheld, heq⟩ | ⟨-, -, heq⟩
    · rw [heq] at hr
      cases hr
    · rw [heq] at hr ⊢
      rcases List.mem_cons.mp hq with rfl | hq
      · exact .inr hheld
      · exact ih hsorted hr hq
    · rw [heq] at hr ⊢
      rcases List.mem_cons.mp hq with rfl | hq'
      · exact .inl List.mem_cons_self
      rcases List.mem_cons.mp hr with rfl | hr
      · exact absurd (hle q hq') (not_le.mpr hlt)
      · exact (ih hsorted hr hq').imp_left (List.mem_cons_of_mem a)

theorem evictLoop_needed (h : (evictLoop maxBytes rs total).1 = pre ++ r :: post) :
    maxBytes < total - bytesOf pre := by
  induction rs generalizing total pre with
  | nil => simp [evictLoop] at h
  | cons q rs ih =>
    rcases evictLoop_cons_cases maxBytes q rs total with
      ⟨-, heq⟩ | ⟨-, -, heq⟩ | ⟨hover, -, heq⟩
    · rw [heq] at h
      simp at h
    · rw [heq] at h
      exact ih h
    · rw [heq] at h
      cases pre with
      | nil => simpa using hover
      | cons a pre =>
        obtain ⟨rfl, hrest⟩ := List.cons.inj h
        have hlt := ih hrest
        rw [bytesOf_cons]
        omega

end Loop

section Bytes

variable {rs gone : List (Repo Id)} {repos : List (Repo Id)} {cfg : CacheConfig} {now : ℕ}
  {r : Repo Id}

theorem bytesOf_perm (h : rs.Perm gone) : bytesOf rs = bytesOf gone := (h.map _).sum_eq

theorem bytesOf_filter (P : Repo Id → Prop) [DecidablePred P] (rs : List (Repo Id)) :
    bytesOf (rs.filter fun r => P r) + bytesOf (rs.filter fun r => ¬ P r) = bytesOf rs := by
  induction rs with
  | nil => rfl
  | cons r rs ih =>
    by_cases hr : P r <;> simp only [hr, List.filter_cons, decide_true, decide_false, not_true,
      not_false_iff, if_true, if_false, bytesOf_cons, Bool.false_eq_true] <;> omega

theorem bytesOf_eq_zero_iff : bytesOf rs = 0 ↔ ∀ r ∈ rs, r.bytes = 0 := by
  induction rs with
  | nil => simp
  | cons r rs ih => simp [ih]

theorem mem_candidates : r ∈ candidates cfg now repos ↔ r ∈ repos ∧ r.Idle cfg now := by
  rw [candidates, List.mem_insertionSort, List.mem_filter, decide_eq_true_iff]

theorem candidates_sorted :
    (candidates cfg now repos).Pairwise fun a b => a.lastAccess ≤ b.lastAccess :=
  List.pairwise_insertionSort _ _

theorem bytesOf_candidates (cfg : CacheConfig) (now : ℕ) (repos : List (Repo Id)) :
    bytesOf (candidates cfg now repos) + bytesOf (repos.filter fun r => ¬ r.Idle cfg now) =
      bytesOf repos := by
  rw [candidates, bytesOf_perm (List.perm_insertionSort _ _),
    bytesOf_filter (fun r => r.Idle cfg now)]

theorem Registry.eq_of_id (reg : Registry Id) {q : Repo Id} (hr : r ∈ reg.repos)
    (hq : q ∈ reg.repos) (h : r.id = q.id) : r = q :=
  List.inj_on_of_nodup_map reg.distinct hr hq h

theorem nodup_candidates (reg : Registry Id) : (candidates cfg now reg.repos).Nodup :=
  (List.perm_insertionSort _ _).nodup_iff.mpr (reg.distinct.of_map.filter _)

theorem evictLoop_candidates (cfg : CacheConfig) (now : ℕ) (reg : Registry Id)
    (maxBytes total : ℕ) :
    (∀ r ∈ (evictLoop maxBytes (candidates cfg now reg.repos) total).1,
      r ∈ reg.repos ∧ r.Idle cfg now) ∧
      (evictLoop maxBytes (candidates cfg now reg.repos) total).1.Nodup :=
  ⟨fun _ hr => mem_candidates.mp (evictLoop_sublist.subset hr),
    (nodup_candidates reg).sublist evictLoop_sublist⟩

variable [DecidableEq Id]

theorem mem_without (reg : Registry Id) (hgone : ∀ q ∈ gone, q ∈ reg.repos) :
    r ∈ without reg.repos gone ↔ r ∈ reg.repos ∧ r ∉ gone := by
  rw [without, List.mem_filter, decide_eq_true_iff]
  refine and_congr_right fun hr => not_congr ⟨fun h => ?_, List.mem_map_of_mem⟩
  obtain ⟨q, hq, heq⟩ := List.mem_map.mp h
  rwa [← reg.eq_of_id (hgone q hq) hr heq]

theorem bytesOf_without (reg : Registry Id) (hgone : ∀ q ∈ gone, q ∈ reg.repos)
    (hnodup : gone.Nodup) :
    bytesOf (without reg.repos gone) + bytesOf gone = bytesOf reg.repos := by
  have hmem : ∀ r, r ∈ reg.repos.filter (fun r => r.id ∈ gone.map Repo.id) ↔ r ∈ gone := by
    intro r
    have hwithout := mem_without (r := r) reg hgone
    rw [without, List.mem_filter, decide_eq_true_iff] at hwithout
    rw [List.mem_filter, decide_eq_true_iff]
    constructor
    · rintro ⟨hr, hid⟩
      by_contra hnot
      exact (hwithout.mpr ⟨hr, hnot⟩).2 hid
    · exact fun h => ⟨hgone r h, List.mem_map_of_mem h⟩
  have hperm : (reg.repos.filter fun r => r.id ∈ gone.map Repo.id).Perm gone :=
    (List.perm_ext_iff_of_nodup (reg.distinct.of_map.filter _) hnodup).mpr hmem
  rw [Nat.add_comm, without, ← bytesOf_perm hperm, bytesOf_filter fun r => r.id ∈ gone.map Repo.id]

end Bytes

section Target

variable [DecidableEq Id] {cfg : CacheConfig} {usage : Option (ℕ × ℕ)} {now maxBytes : ℕ}
  {reg : Registry Id} {r : Repo Id}

/-- The eviction meets its target: what remains is within the budget or idle
repositories remain only because they are held; the oldest go first, and none
goes once the target is met; the bytes reported are those that remain. -/
structure MeetsTarget (cfg : CacheConfig) (usage : Option (ℕ × ℕ)) (now : ℕ) (reg : Registry Id)
    (out : Outcome Id) : Prop where
  target : ∀ maxBytes ∈ budget cfg usage reg.repos, bytesOf out.remaining ≤ maxBytes ∨
    ∀ r ∈ out.remaining, r.Idle cfg now → r.Held
  idle : ∀ r ∈ out.evicted, r ∈ reg.repos ∧ r.Idle cfg now ∧ ¬ r.Held
  inOrder : out.evicted.Pairwise fun a b => a.lastAccess ≤ b.lastAccess
  oldest : ∀ r ∈ out.evicted, ∀ q ∈ out.remaining, q.Idle cfg now →
    q.lastAccess < r.lastAccess → q.Held
  needed : ∀ pre r post, out.evicted = pre ++ r :: post → ∀ maxBytes ∈ budget cfg usage reg.repos,
    maxBytes < bytesOf (without reg.repos pre)
  remaining : out.remaining = without reg.repos out.evicted
  reported : out.report = ⟨out.evicted.length, bytesOf out.remaining⟩

theorem evictIdle_of_budget (h : budget cfg usage reg.repos = some maxBytes) :
    evictIdle cfg usage now reg =
      let idle := candidates cfg now reg.repos
      let evicted := (evictLoop maxBytes idle (bytesOf idle)).1
      ⟨evicted, without reg.repos evicted,
        ⟨evicted.length, (evictLoop maxBytes idle (bytesOf idle)).2⟩⟩ := by
  rw [evictIdle, h]

theorem evictIdle_of_no_budget (now : ℕ) (h : budget cfg usage reg.repos = none) :
    evictIdle cfg usage now reg = ⟨[], reg.repos, ⟨0, 0⟩⟩ := by
  rw [evictIdle, h]

theorem without_nil (repos : List (Repo Id)) : without repos [] = repos := by
  simp [without]

theorem bytesOf_remaining (now : ℕ) (h : budget cfg usage reg.repos = some maxBytes) :
    bytesOf (evictIdle cfg usage now reg).remaining =
      (evictIdle cfg usage now reg).report.remainingBytes +
        bytesOf (reg.repos.filter fun r => ¬ r.Idle cfg now) := by
  rw [evictIdle_of_budget h]
  obtain ⟨hmem, hnodup⟩ := evictLoop_candidates cfg now reg maxBytes
    (bytesOf (candidates cfg now reg.repos))
  have hwithout := bytesOf_without reg (fun r hr => (hmem r hr).1) hnodup
  have htotal := evictLoop_total maxBytes (le_refl (bytesOf (candidates cfg now reg.repos)))
  have hsplit := bytesOf_candidates cfg now reg.repos
  simp only
  omega

/-- Whatever the budget, the oldest idle repositories go first, and none without need. -/
theorem meets_of_budget (h : budget cfg usage reg.repos = some maxBytes)
    (htarget : bytesOf (evictIdle cfg usage now reg).remaining ≤ maxBytes ∨
      ∀ r ∈ (evictIdle cfg usage now reg).remaining, r.Idle cfg now → r.Held)
    (hreported : (evictIdle cfg usage now reg).report.remainingBytes =
      bytesOf (evictIdle cfg usage now reg).remaining) :
    MeetsTarget cfg usage now reg (evictIdle cfg usage now reg) := by
  rw [evictIdle_of_budget h] at htarget hreported ⊢
  obtain ⟨hmem, hnodup⟩ := evictLoop_candidates cfg now reg maxBytes
    (bytesOf (candidates cfg now reg.repos))
  refine ⟨fun _ hm => ?_, fun r hr => ?_, ?_, fun r hr q hq hidle hlt => ?_,
    fun pre r post hsplit _ hm => ?_, rfl, ?_⟩
  · cases h.symm.trans hm
    exact htarget
  · exact ⟨(hmem r hr).1, (hmem r hr).2, evictLoop_free hr⟩
  · exact candidates_sorted.sublist evictLoop_sublist
  · obtain ⟨hrepo, hnot⟩ := (mem_without reg fun r hr => (hmem r hr).1).mp hq
    have hcandidate := mem_candidates.mpr ⟨hrepo, hidle⟩
    exact (evictLoop_oldest candidates_sorted hr hcandidate hlt).resolve_left hnot
  · cases h.symm.trans hm
    simp only at hsplit
    have hneeded := evictLoop_needed hsplit
    have hpre : pre.Sublist (pre ++ r :: post) := List.sublist_append_left _ _
    rw [hsplit] at hmem hnodup
    have hwithout := bytesOf_without reg (fun q hq => (hmem q (hpre.subset hq)).1)
      (hnodup.sublist hpre)
    have hall := bytesOf_candidates cfg now reg.repos
    omega
  · exact congrArg _ hreported

/-- The target is met exactly when the repositories that the run does not count
hold nothing: those in use recently and, without pressure, all. -/
theorem evictIdle_meets_iff (cfg : CacheConfig) (usage : Option (ℕ × ℕ)) (now : ℕ)
    (reg : Registry Id) :
    MeetsTarget cfg usage now reg (evictIdle cfg usage now reg) ↔
      ∀ r ∈ reg.repos, budget cfg usage reg.repos = none ∨ ¬ r.Idle cfg now → r.bytes = 0 := by
  rcases hb : budget cfg usage reg.repos with _ | maxBytes
  · have hout := evictIdle_of_no_budget now hb
    simp only [true_or, forall_const, ← bytesOf_eq_zero_iff]
    rw [hout]
    constructor
    · intro h
      exact (congrArg EvictReport.remainingBytes h.reported).symm
    · intro h
      refine ⟨fun _ hm => ?_, nofun, .nil, nofun, by simp, (without_nil _).symm, ?_⟩
      · cases hb.symm.trans hm
      · exact congrArg _ h.symm
  · have hzero : (∀ r ∈ reg.repos, some maxBytes = none ∨ ¬ r.Idle cfg now → r.bytes = 0) ↔
        bytesOf (reg.repos.filter fun r => ¬ r.Idle cfg now) = 0 := by
      simp [bytesOf_eq_zero_iff, List.mem_filter]
    have hbytes := bytesOf_remaining now hb
    rw [hzero]
    constructor
    · intro h
      have hreported := congrArg EvictReport.remainingBytes h.reported
      simp only at hreported
      omega
    · intro h
      rw [h, Nat.add_zero] at hbytes
      refine meets_of_budget hb ?_ hbytes.symm
      rw [hbytes, evictIdle_of_budget hb]
      refine evictLoop_target.imp_right fun hheld r hr hidle => ?_
      obtain ⟨hmem, -⟩ := evictLoop_candidates cfg now reg maxBytes
        (bytesOf (candidates cfg now reg.repos))
      obtain ⟨hrepo, hnot⟩ := (mem_without reg fun r hr => (hmem r hr).1).mp hr
      exact (hheld r (mem_candidates.mpr ⟨hrepo, hidle⟩)).resolve_left hnot

/-- A repository of ten bytes in use just now, and an idle one of five. -/
def activeAndIdle : Registry ℕ where
  repos := [⟨0, 10, 100, false, false⟩, ⟨1, 5, 0, false, false⟩]
  distinct := by decide

def twelveBytes : CacheConfig := ⟨false, 12, 10, ⟨false, fun _ _ => false, fun _ => 0⟩⟩

/-- Fifteen bytes stay under a budget of twelve, and five of them are reported. -/
theorem active_bytes_uncounted :
    (evictIdle twelveBytes none 100 activeAndIdle).remaining = activeAndIdle.repos ∧
      (evictIdle twelveBytes none 100 activeAndIdle).report = ⟨0, 5⟩ ∧
      ¬ MeetsTarget twelveBytes none 100 activeAndIdle
        (evictIdle twelveBytes none 100 activeAndIdle) := by
  refine ⟨by decide, by decide, fun h => ?_⟩
  rcases h.target 12 rfl with hbytes | hheld
  · revert hbytes
    decide
  · revert hheld
    decide

end Target

end Walgit.Eviction
