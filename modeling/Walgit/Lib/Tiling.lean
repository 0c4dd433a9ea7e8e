import Mathlib

/-!
# Ranges that tile

Ranges of positions that follow each other without a gap. The slices of a list
along such ranges are the list, and a file that the slices are written into at
their places becomes the list, in whatever order they are written.
-/

namespace Walgit.Tiling

variable {α : Type} {lo mid hi i p : ℕ} {r s : ℕ × ℕ} {rs rs' : List (ℕ × ℕ)} {xs : List α}

/-- Consecutive ranges, none of them empty, from one position to another. -/
inductive Tiles : ℕ → List (ℕ × ℕ) → ℕ → Prop
  | nil (n : ℕ) : Tiles n [] n
  | cons {lo mid hi : ℕ} {rs : List (ℕ × ℕ)} (h : lo < mid) (ht : Tiles mid rs hi) :
    Tiles lo ((lo, mid) :: rs) hi

def slice (xs : List α) (r : ℕ × ℕ) : List α := (xs.drop r.1).take (r.2 - r.1)

theorem Tiles.le (h : Tiles lo rs hi) : lo ≤ hi := by
  induction h with
  | nil n => exact Nat.le_refl n
  | cons h _ ih => exact h.le.trans ih

theorem Tiles.of_mem (h : Tiles lo rs hi) (hr : r ∈ rs) : lo ≤ r.1 ∧ r.1 < r.2 ∧ r.2 ≤ hi := by
  induction h with
  | nil n => cases hr
  | cons h ht ih =>
    rcases List.mem_cons.mp hr with rfl | hr
    · exact ⟨Nat.le_refl _, h, ht.le⟩
    · obtain ⟨h₁, h₂, h₃⟩ := ih hr
      exact ⟨h.le.trans h₁, h₂, h₃⟩

theorem Tiles.disjoint (h : Tiles lo rs hi) : rs.Pairwise fun r s => r.2 ≤ s.1 := by
  induction h with
  | nil n => exact .nil
  | cons _ ht ih => exact .cons (fun s hs => (ht.of_mem hs).1) ih

theorem Tiles.cover (h : Tiles lo rs hi) (hlo : lo ≤ i) (hhi : i < hi) :
    ∃ r ∈ rs, r.1 ≤ i ∧ i < r.2 := by
  induction h with
  | nil n => exact absurd hhi (Nat.not_lt.mpr hlo)
  | @cons lo mid hi rs _ _ ih =>
    by_cases hmid : i < mid
    · exact ⟨(lo, mid), List.mem_cons_self, hlo, hmid⟩
    · obtain ⟨r, hr, hri⟩ := ih (Nat.not_lt.mp hmid) hhi
      exact ⟨r, List.mem_cons_of_mem _ hr, hri⟩

theorem Tiles.lt_of_mem_dropLast (h : Tiles lo rs hi) (hr : r ∈ rs.dropLast) : r.2 < hi := by
  induction h with
  | nil => cases hr
  | @cons lo mid hi rs _ ht ih =>
    cases rs with
    | nil => cases hr
    | cons s ss =>
      rw [List.dropLast_cons_cons] at hr
      rcases List.mem_cons.mp hr with rfl | hr
      · have hs := ht.of_mem List.mem_cons_self
        exact (hs.1.trans_lt hs.2.1).trans_le hs.2.2
      · exact ih hr

theorem drop_slice (h : lo ≤ mid) : slice xs (lo, mid) ++ xs.drop mid = xs.drop lo := by
  rw [slice]
  conv_rhs => rw [← List.take_append_drop (mid - lo) (xs.drop lo)]
  rw [List.drop_drop, Nat.add_sub_cancel' h]

theorem slice_append (h : lo ≤ mid) (h' : mid ≤ hi) :
    slice xs (lo, mid) ++ slice xs (mid, hi) = slice xs (lo, hi) := by
  rw [slice, slice, slice]
  dsimp only
  rw [← Nat.sub_add_sub_cancel h' h, Nat.add_comm (hi - mid), List.take_add, List.drop_drop,
    Nat.add_sub_cancel' h]

theorem slice_slice {a b : ℕ} (h : mid + b ≤ hi) :
    slice (slice xs (mid, hi)) (a, b) = slice xs (mid + a, mid + b) := by
  rw [slice, slice, slice]
  dsimp only
  rw [List.drop_take, List.drop_drop, List.take_take, Nat.add_sub_add_left, Nat.min_eq_left]
  omega

theorem Tiles.flatMap_slice (h : Tiles lo rs hi) :
    rs.flatMap (slice xs) ++ xs.drop hi = xs.drop lo := by
  induction h with
  | nil n => rfl
  | cons h _ ih => rw [List.flatMap_cons, List.append_assoc, ih, drop_slice h.le]

theorem Tiles.flatMap_slice_all (h : Tiles 0 rs xs.length) : rs.flatMap (slice xs) = xs := by
  have hall : rs.flatMap (slice xs) ++ xs.drop xs.length = xs.drop 0 := h.flatMap_slice
  rwa [List.drop_length, List.append_nil] at hall

section Step

/-- The ranges of `p` positions, the last of what is left. -/
def stepRanges (size p : ℕ) : List (ℕ × ℕ) :=
  (List.range ((size + p - 1) / p)).map fun i => (i * p, min (i * p + p) size)

theorem lt_div_ceil (hp : 0 < p) : i < (hi + p - 1) / p ↔ i * p < hi := by
  rw [Nat.lt_div_iff_mul_lt hp]
  omega

theorem tiles_stepRanges (hp : 0 < p) : Tiles 0 (stepRanges hi p) hi := by
  have hfrom : ∀ m k, k + m = (hi + p - 1) / p →
      Tiles (min (k * p) hi)
        ((List.range' k m).map fun i => (i * p, min (i * p + p) hi)) hi := by
    intro m
    induction m with
    | zero =>
      intro k hk
      have hge : hi ≤ k * p := Nat.not_lt.mp fun h => by
        have := (lt_div_ceil hp).mpr h
        omega
      rw [Nat.min_eq_right hge]
      exact .nil hi
    | succ m ih =>
      intro k hk
      have hlt : k * p < hi := (lt_div_ceil hp).mp (by omega)
      have hnext := ih (k + 1) (by omega)
      rw [Nat.succ_mul] at hnext
      rw [List.range'_succ, List.map_cons, Nat.min_eq_left hlt.le]
      exact .cons (by omega) hnext
  have hzero := hfrom _ 0 (Nat.zero_add _)
  rwa [Nat.zero_mul, Nat.zero_min, ← List.range_eq_range'] at hzero

theorem length_stepRanges : (stepRanges hi p).length = (hi + p - 1) / p := by
  rw [stepRanges, List.length_map, List.length_range]

end Step

section Writes

/-- A write into a file at a position, inside what the file has room for. -/
def writeAt (file : List α) (start : ℕ) (data : List α) : List α :=
  file.take start ++ data ++ file.drop (start + data.length)

theorem length_writeAt {file data : List α} (h : lo + data.length ≤ file.length) :
    (writeAt file lo data).length = file.length := by
  rw [writeAt, List.length_append, List.length_append, List.length_take, List.length_drop]
  omega

theorem getElem?_writeAt {file data : List α} (h : lo + data.length ≤ file.length) :
    (writeAt file lo data)[i]? =
      if lo ≤ i ∧ i < lo + data.length then data[i - lo]? else file[i]? := by
  have hlen : (file.take lo).length = lo := List.length_take_of_le (by omega)
  rw [writeAt, List.append_assoc]
  by_cases hlo : i < lo
  · rw [List.getElem?_append_left (by omega), List.getElem?_take_of_lt hlo,
      if_neg fun hin => by omega]
  · rw [List.getElem?_append_right (by omega), hlen]
    by_cases hhi : i < lo + data.length
    · rw [List.getElem?_append_left (by omega), if_pos ⟨by omega, hhi⟩]
    · rw [List.getElem?_append_right (by omega), List.getElem?_drop,
        if_neg fun hin => hhi hin.2]
      congr 1
      omega

theorem getElem?_slice (h : r.1 ≤ i) (hi : i < r.2) : (slice xs r)[i - r.1]? = xs[i]? := by
  rw [slice, List.getElem?_take_of_lt (by omega), List.getElem?_drop, Nat.add_sub_cancel' h]

theorem length_slice (h : r.2 ≤ xs.length) : (slice xs r).length = r.2 - r.1 := by
  rw [slice, List.length_take_of_le]
  rw [List.length_drop]
  omega

def writeSlices (xs : List α) (rs : List (ℕ × ℕ)) (file : List α) : List α :=
  rs.foldl (fun f r => writeAt f r.1 (slice xs r)) file

theorem getElem?_writeSlices {file : List α} (hlen : file.length = xs.length)
    (h : ∀ r ∈ rs, r.1 < r.2 ∧ r.2 ≤ xs.length) :
    (writeSlices xs rs file).length = xs.length ∧ ∀ i, (writeSlices xs rs file)[i]? =
      if ∃ r ∈ rs, r.1 ≤ i ∧ i < r.2 then xs[i]? else file[i]? := by
  induction rs generalizing file with
  | nil => exact ⟨hlen, fun i => (if_neg fun ⟨_, hr, _⟩ => List.not_mem_nil hr).symm⟩
  | cons r rs ih =>
    rw [List.forall_mem_cons] at h
    obtain ⟨⟨hlt, hle⟩, hrest⟩ := h
    have hslice := length_slice hle
    have hroom : r.1 + (slice xs r).length ≤ file.length := by omega
    obtain ⟨hwlen, hwget⟩ := ih ((length_writeAt hroom).trans hlen) hrest
    refine ⟨hwlen, fun i => (hwget i).trans ?_⟩
    rw [getElem?_writeAt hroom, hslice, Nat.add_sub_cancel' hlt.le]
    by_cases hin : r.1 ≤ i ∧ i < r.2
    · have hex : ∃ s ∈ r :: rs, s.1 ≤ i ∧ i < s.2 := ⟨r, List.mem_cons_self, hin⟩
      rw [if_pos hin, if_pos hex, getElem?_slice hin.1 hin.2, ite_self]
    · rw [if_neg hin]
      refine if_congr ?_ rfl rfl
      simp only [List.mem_cons, exists_eq_or_imp, or_iff_right hin]

/-- Slices that tile a list make the list, in whatever order they are written. -/
theorem Tiles.writeSlices_eq {file : List α} (h : Tiles 0 rs xs.length) (hperm : rs'.Perm rs)
    (hlen : file.length = xs.length) : writeSlices xs rs' file = xs := by
  have hmem : ∀ r ∈ rs', r.1 < r.2 ∧ r.2 ≤ xs.length := fun r hr =>
    (h.of_mem (hperm.mem_iff.mp hr)).2
  obtain ⟨hwlen, hwget⟩ := getElem?_writeSlices hlen hmem
  refine List.ext_getElem? fun i => ?_
  rw [hwget i]
  by_cases hi : i < xs.length
  · obtain ⟨r, hr, hri⟩ := h.cover (Nat.zero_le i) hi
    exact if_pos ⟨r, hperm.mem_iff.mpr hr, hri⟩
  · rw [List.getElem?_eq_none (by omega), List.getElem?_eq_none (by omega), ite_self]

end Writes

end Walgit.Tiling
