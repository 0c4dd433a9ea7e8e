import Mathlib.Data.List.Flatten
import Mathlib.Data.List.GetD
import Walgit.Lib.Fallible
import Walgit.Lib.Tiling

/-!
# Composition by multipart upload

The concatenation of the sources is cut into parts. A run inside one source is
copied by the store; what is too small for a part of its own is read together
with the beginning of what follows, and uploaded.
-/

namespace Walgit.Compose

open Tiling

def minPart : ℕ := 5 * 1024 * 1024

def copyPart : ℕ := 1024 * 1024 * 1024

/-- What the store accepts as one part. -/
def maxPart : ℕ := 5 * 1024 * 1024 * 1024

/-- A range of one source. -/
structure SourceRange where
  source : ℕ
  start : ℕ
  len : ℕ
  deriving DecidableEq, Repr

inductive Part
  | copy (r : SourceRange)
  | upload (rs : List SourceRange)
  deriving DecidableEq, Repr

inductive ComposeError
  | noSource
  | lostSegment
  | lostGather
  deriving DecidableEq, Repr

def ComposeError.message : ComposeError → String
  | .noSource => "compose needs at least one source"
  | .lostSegment => "compose: internal scan lost the segment for the current offset"
  | .lostGather => "compose: internal scan lost the segment for the gather offset"

section Code

def offsetOf (sizes : List ℕ) (i : ℕ) : ℕ := (sizes.take i).sum

def endOf (sizes : List ℕ) (i : ℕ) : ℕ := offsetOf sizes i + sizes.getD i 0

/-- The source that a position is in. -/
def segmentAt (sizes : List ℕ) (pos : ℕ) : Option ℕ :=
  (List.range sizes.length).find? fun i => pos < endOf sizes i

theorem segmentAt_lt {sizes : List ℕ} {pos i : ℕ} (h : segmentAt sizes pos = some i) :
    pos < endOf sizes i :=
  of_decide_eq_true (List.find?_some (p := fun i => decide (pos < endOf sizes i)) h)

/-- Reads across the sources until this much is there. -/
def gather (sizes : List ℕ) (p want : ℕ) : Except ComposeError (List SourceRange) :=
  if hw : 0 < want then
    match h : segmentAt sizes p with
    | none => .error .lostGather
    | some j =>
      let take := min (endOf sizes j - p) want
      have : want - take < want := by
        have := segmentAt_lt h
        omega
      (gather sizes (p + take) (want - take)).map (⟨j, p - offsetOf sizes j, take⟩ :: ·)
  else .ok []
termination_by want

def gathered (rs : List SourceRange) : ℕ := (rs.map SourceRange.len).sum

theorem gather_next {sizes : List ℕ} {p want j : ℕ} (hw : 0 < want)
    (hj : segmentAt sizes p = some j) : gather sizes p want =
      (gather sizes (p + min (endOf sizes j - p) want)
        (want - min (endOf sizes j - p) want)).map
          (⟨j, p - offsetOf sizes j, min (endOf sizes j - p) want⟩ :: ·) := by
  rw [gather, dif_pos hw]
  split <;> simp_all

theorem gather_lost {sizes : List ℕ} {p want : ℕ} (hw : 0 < want)
    (hnone : segmentAt sizes p = none) : gather sizes p want = .error .lostGather := by
  rw [gather, dif_pos hw]
  split <;> simp_all

theorem gathered_gather {sizes : List ℕ} {p want : ℕ} {rs : List SourceRange}
    (h : gather sizes p want = .ok rs) : gathered rs = want := by
  induction want using Nat.strong_induction_on generalizing p rs with
  | _ want ih =>
    by_cases hw : 0 < want
    · cases hj : segmentAt sizes p with
      | none =>
        rw [gather_lost hw hj] at h
        cases h
      | some j =>
        have hlt := segmentAt_lt hj
        rw [gather_next hw hj] at h
        obtain ⟨more, hmore, rfl⟩ := map_eq_ok h
        have hsum := ih _ (by omega) hmore
        rw [gathered, List.map_cons, List.sum_cons, ← gathered, hsum]
        dsimp only
        omega
    · rw [gather, dif_neg hw] at h
      cases h
      rw [gathered, List.map_nil, List.sum_nil]
      omega

def partsFrom (sizes : List ℕ) (pos : ℕ) : Except ComposeError (List Part) :=
  if hp : pos < sizes.sum then
    match h : segmentAt sizes pos with
    | none => .error .lostSegment
    | some i =>
      have hlt := segmentAt_lt h
      let run := endOf sizes i - pos
      if minPart ≤ run ∨ endOf sizes i = sizes.sum then
        let len := min run copyPart
        have : sizes.sum - (pos + len) < sizes.sum - pos := by
          have : 0 < copyPart := by decide
          omega
        (partsFrom sizes (pos + len)).map (.copy ⟨i, pos - offsetOf sizes i, len⟩ :: ·)
      else
        match hg : gather sizes pos (min minPart (sizes.sum - pos)) with
        | .error e => .error e
        | .ok rs =>
          have : sizes.sum - (pos + gathered rs) < sizes.sum - pos := by
            have := gathered_gather hg
            have : 0 < minPart := by decide
            omega
          (partsFrom sizes (pos + gathered rs)).map (.upload rs :: ·)
  else .ok []
termination_by sizes.sum - pos

def compose (sizes : List ℕ) : Except ComposeError (List (ℕ × Part)) :=
  if sizes = [] then .error .noSource
  else (partsFrom sizes 0).map fun parts => parts.zipIdx 1 |>.map Prod.swap

end Code

section Content

variable {α : Type}

def SourceRange.bytes (sources : List (List α)) (r : SourceRange) : List α :=
  ((sources.getD r.source []).drop r.start).take r.len

def Part.ranges : Part → List SourceRange
  | .copy r => [r]
  | .upload rs => rs

def Part.bytes (sources : List (List α)) (p : Part) : List α :=
  p.ranges.flatMap (SourceRange.bytes sources)

/-- The range is not empty and inside its source. -/
def SourceRange.Inside (sizes : List ℕ) (r : SourceRange) : Prop :=
  0 < r.len ∧ r.start + r.len ≤ sizes.getD r.source 0

variable {sizes : List ℕ} {sources : List (List α)} {pos i n : ℕ}

theorem offsetOf_succ (h : i < sizes.length) : offsetOf sizes (i + 1) = endOf sizes i := by
  rw [offsetOf, List.take_succ_eq_append_getElem h, List.sum_append, List.sum_singleton, endOf,
    offsetOf, List.getD_eq_getElem _ _ h]

theorem endOf_le : endOf sizes i ≤ sizes.sum := by
  have hsum : ∀ k, offsetOf sizes k + (sizes.drop k).sum = sizes.sum := fun k => by
    rw [offsetOf, ← List.sum_append, List.take_append_drop]
  by_cases h : i < sizes.length
  · have hk := hsum (i + 1)
    rw [offsetOf_succ h] at hk
    omega
  · have hk := hsum i
    rw [endOf, List.getD_eq_default _ _ (Nat.not_lt.mp h)]
    omega

theorem segmentAt_spec (h : segmentAt sizes pos = some i) :
    i < sizes.length ∧ offsetOf sizes i ≤ pos ∧ pos < endOf sizes i := by
  have hlt := segmentAt_lt h
  rw [segmentAt, List.find?_range_eq_some] at h
  obtain ⟨-, hi, hbefore⟩ := h
  rw [List.mem_range] at hi
  refine ⟨hi, ?_, hlt⟩
  cases i with
  | zero => exact Nat.zero_le pos
  | succ j =>
    have hj := hbefore j (Nat.lt_succ_self j)
    rw [Bool.not_eq_true', decide_eq_false_iff_not, Nat.not_lt] at hj
    rw [offsetOf_succ (Nat.lt_of_succ_lt hi)]
    exact hj

theorem segmentAt_isSome (h : pos < sizes.sum) : ∃ i, segmentAt sizes pos = some i := by
  rw [← Option.isSome_iff_exists, segmentAt, List.find?_isSome]
  have hne : sizes ≠ [] := fun hnil => by
    rw [hnil] at h
    exact absurd h (Nat.not_lt_zero _)
  have hlen := List.length_pos_iff.mpr hne
  refine ⟨sizes.length - 1, List.mem_range.mpr (by omega), decide_eq_true ?_⟩
  have hend := @offsetOf_succ sizes (sizes.length - 1) (by omega)
  rw [Nat.sub_add_cancel hlen, offsetOf, List.take_length] at hend
  omega

theorem bytes_segment (h : segmentAt (sources.map List.length) pos = some i)
    (hn : n ≤ endOf (sources.map List.length) i - pos) :
    SourceRange.bytes sources ⟨i, pos - offsetOf (sources.map List.length) i, n⟩ =
      (sources.flatten.drop pos).take n := by
  obtain ⟨hi, hle, hlt⟩ := segmentAt_spec h
  rw [List.length_map] at hi
  have hoffset : offsetOf (sources.map List.length) i = (sources.take i).flatten.length := by
    rw [offsetOf, List.length_flatten, List.map_take]
  have hsize : (sources.map List.length).getD i 0 = sources[i].length := by
    rw [List.getD_eq_getElem _ _ (by rwa [List.length_map]), List.getElem_map]
  have hsplit : sources.flatten =
      (sources.take i).flatten ++ (sources[i] ++ (sources.drop (i + 1)).flatten) := by
    conv_lhs => rw [← List.take_append_drop i sources, List.drop_eq_getElem_cons hi]
    rw [List.flatten_append, List.flatten_cons]
  rw [endOf, hsize, hoffset] at hn
  rw [hoffset] at hle
  rw [SourceRange.bytes, hsplit, List.drop_append, List.drop_of_length_le hle, List.nil_append,
    hoffset, List.getD_eq_getElem _ _ hi, List.drop_append, List.take_append_of_le_length]
  rw [List.length_drop]
  omega

theorem inside_segment (h : segmentAt sizes pos = some i) (h0 : 0 < n)
    (hn : n ≤ endOf sizes i - pos) :
    SourceRange.Inside sizes ⟨i, pos - offsetOf sizes i, n⟩ := by
  obtain ⟨-, hle, hlt⟩ := segmentAt_spec h
  refine ⟨h0, ?_⟩
  rw [endOf] at hn hlt
  dsimp only
  omega

theorem gather_spec {p want : ℕ} (h : p + want ≤ (sources.map List.length).sum) :
    ∃ rs, gather (sources.map List.length) p want = .ok rs ∧
      rs.flatMap (SourceRange.bytes sources) = (sources.flatten.drop p).take want ∧
      ∀ r ∈ rs, r.Inside (sources.map List.length) := by
  induction want using Nat.strong_induction_on generalizing p with
  | _ want ih =>
    by_cases hw : 0 < want
    · obtain ⟨j, hj⟩ := @segmentAt_isSome (sources.map List.length) p (by omega)
      have hlt := segmentAt_lt hj
      obtain ⟨more, hmore, hbytes, hinside⟩ := @ih
        (want - min (endOf (sources.map List.length) j - p) want) (by omega)
        (p + min (endOf (sources.map List.length) j - p) want) (by omega)
      refine ⟨_, by rw [gather_next hw hj, hmore]; rfl, ?_, ?_⟩
      · rw [List.flatMap_cons, hbytes, bytes_segment hj (Nat.min_le_left _ _), ← List.drop_drop,
          ← List.take_add, Nat.add_sub_cancel' (Nat.min_le_right _ _)]
      · exact List.forall_mem_cons.mpr
          ⟨inside_segment hj (by omega) (Nat.min_le_left _ _), hinside⟩
    · have hzero : want = 0 := by omega
      refine ⟨[], by rw [gather, dif_neg hw], ?_, fun r hr => by cases hr⟩
      rw [hzero, List.take_zero]
      rfl

section Plan

theorem partsFrom_end (h : ¬ pos < sizes.sum) : partsFrom sizes pos = .ok [] := by
  rw [partsFrom, dif_neg h]

theorem partsFrom_copy (hp : pos < sizes.sum) (hi : segmentAt sizes pos = some i)
    (hcopy : minPart ≤ endOf sizes i - pos ∨ endOf sizes i = sizes.sum) :
    partsFrom sizes pos = (partsFrom sizes (pos + min (endOf sizes i - pos) copyPart)).map
      (.copy ⟨i, pos - offsetOf sizes i, min (endOf sizes i - pos) copyPart⟩ :: ·) := by
  rw [partsFrom, dif_pos hp]
  split <;> simp_all

theorem partsFrom_upload {rs : List SourceRange} (hp : pos < sizes.sum)
    (hi : segmentAt sizes pos = some i)
    (hcopy : ¬ (minPart ≤ endOf sizes i - pos ∨ endOf sizes i = sizes.sum))
    (hg : gather sizes pos (min minPart (sizes.sum - pos)) = .ok rs) :
    partsFrom sizes pos = (partsFrom sizes (pos + gathered rs)).map (.upload rs :: ·) := by
  rw [partsFrom, dif_pos hp]
  split
  · simp_all
  · next j hj =>
    cases hi.symm.trans hj
    rw [if_neg hcopy]
    split <;> simp_all

/-- The parts from a position on and the ranges of the concatenation that they are. -/
structure Laid (sources : List (List α)) (pos : ℕ) (parts : List Part) (rs : List (ℕ × ℕ)) :
    Prop where
  tiles : Tiles pos rs (sources.map List.length).sum
  bytes : parts.map (Part.bytes sources) = rs.map (slice sources.flatten)
  inside : ∀ p ∈ parts, ∀ r ∈ p.ranges, r.Inside (sources.map List.length)
  small : ∀ r ∈ rs, r.2 - r.1 ≤ copyPart
  large : ∀ r ∈ rs, minPart ≤ r.2 - r.1 ∨ r.2 = (sources.map List.length).sum

theorem Laid.cons {parts : List Part} {rs : List (ℕ × ℕ)} {p : Part}
    (h : Laid sources (pos + n) parts rs) (h0 : 0 < n)
    (hbytes : p.bytes sources = (sources.flatten.drop pos).take n)
    (hinside : ∀ r ∈ p.ranges, r.Inside (sources.map List.length)) (hsmall : n ≤ copyPart)
    (hlarge : minPart ≤ n ∨ pos + n = (sources.map List.length).sum) :
    Laid sources pos (p :: parts) ((pos, pos + n) :: rs) where
  tiles := .cons (by omega) h.tiles
  bytes := by
    rw [List.map_cons, List.map_cons, h.bytes, hbytes, slice, Nat.add_sub_cancel_left]
  inside := List.forall_mem_cons.mpr ⟨hinside, h.inside⟩
  small := List.forall_mem_cons.mpr ⟨by omega, h.small⟩
  large := List.forall_mem_cons.mpr ⟨by rwa [Nat.add_sub_cancel_left], h.large⟩

theorem partsFrom_laid (h : pos ≤ (sources.map List.length).sum) :
    ∃ parts rs, partsFrom (sources.map List.length) pos = .ok parts ∧
      Laid sources pos parts rs := by
  induction hleft : (sources.map List.length).sum - pos using Nat.strong_induction_on
    generalizing pos with
  | _ left ih =>
    by_cases hp : pos < (sources.map List.length).sum
    · obtain ⟨i, hi⟩ := segmentAt_isSome hp
      have hlt := segmentAt_lt hi
      have hend := @endOf_le (sources.map List.length) i
      by_cases hcopy : minPart ≤ endOf (sources.map List.length) i - pos ∨
          endOf (sources.map List.length) i = (sources.map List.length).sum
      · have h0 : 0 < min (endOf (sources.map List.length) i - pos) copyPart := by
          have : 0 < copyPart := by decide
          omega
        obtain ⟨parts, rs, hparts, hlaid⟩ := @ih
          ((sources.map List.length).sum - (pos + min (endOf (sources.map List.length) i - pos)
            copyPart)) (by omega) _ (by omega) rfl
        refine ⟨_, _, by rw [partsFrom_copy hp hi hcopy, hparts]; rfl, hlaid.cons h0 ?_ ?_ ?_ ?_⟩
        · rw [Part.bytes, Part.ranges, List.flatMap_singleton,
            bytes_segment hi (Nat.min_le_left _ _)]
        · exact List.forall_mem_singleton.mpr (inside_segment hi h0 (Nat.min_le_left _ _))
        · exact Nat.min_le_right _ _
        · have hmin : minPart ≤ copyPart := by decide
          omega
      · obtain ⟨reads, hg, hbytes, hinside⟩ := @gather_spec _ sources pos
          (min minPart ((sources.map List.length).sum - pos)) (by omega)
        have hlen := gathered_gather hg
        have h0 : 0 < minPart := by decide
        obtain ⟨parts, rs, hparts, hlaid⟩ := @ih
          ((sources.map List.length).sum - (pos + gathered reads)) (by omega) _ (by omega) rfl
        refine ⟨_, _, by rw [partsFrom_upload hp hi hcopy hg, hparts]; rfl,
          hlaid.cons (by omega) ?_ ?_ ?_ ?_⟩
        · rw [Part.bytes, Part.ranges, hbytes, hlen]
        · exact hinside
        · have hmin : minPart ≤ copyPart := by decide
          omega
        · omega
    · refine ⟨[], [], partsFrom_end hp, ?_, rfl, ?_, ?_, ?_⟩
      · rw [Nat.le_antisymm h (Nat.not_lt.mp hp)]
        exact .nil _
      all_goals exact fun _ hmem => absurd hmem List.not_mem_nil

theorem Laid.length_bytes {parts : List Part} {rs : List (ℕ × ℕ)}
    (h : Laid sources pos parts rs) {l : List Part} {l' : List (ℕ × ℕ)}
    (heq : l.map (Part.bytes sources) = l'.map (slice sources.flatten)) (hl : l' ⊆ rs) {p : Part}
    (hp : p ∈ l) : ∃ r ∈ l', r.1 < r.2 ∧ (p.bytes sources).length = r.2 - r.1 := by
  have hmem : p.bytes sources ∈ l'.map (slice sources.flatten) :=
    heq ▸ List.mem_map_of_mem hp
  obtain ⟨r, hr, hbytes⟩ := List.mem_map.mp hmem
  obtain ⟨-, hlt, hle⟩ := h.tiles.of_mem (hl hr)
  rw [← List.length_flatten] at hle
  exact ⟨r, hr, hlt, hbytes ▸ length_slice hle⟩

/-- The parts, numbered from one, are the concatenation of the sources; none is empty or larger
than the store accepts, and none but the last is too small. -/
theorem compose_exact (hne : sources ≠ []) :
    ∃ parts, compose (sources.map List.length) = .ok parts ∧
      parts.map Prod.fst = List.range' 1 parts.length ∧
      parts.flatMap (fun p => p.2.bytes sources) = sources.flatten ∧
      (∀ p ∈ parts, ∀ r ∈ p.2.ranges, r.Inside (sources.map List.length)) ∧
      (∀ p ∈ parts, 0 < (p.2.bytes sources).length ∧ (p.2.bytes sources).length ≤ maxPart) ∧
      ∀ p ∈ parts.dropLast, minPart ≤ (p.2.bytes sources).length := by
  obtain ⟨parts, rs, hparts, hlaid⟩ := @partsFrom_laid _ sources 0 (Nat.zero_le _)
  have hsnd : ((parts.zipIdx 1).map Prod.swap).map Prod.snd = parts := by
    rw [List.map_map]
    exact List.zipIdx_map_fst 1 parts
  have hmem : ∀ p ∈ (parts.zipIdx 1).map Prod.swap, p.2 ∈ parts := fun p hp =>
    hsnd ▸ List.mem_map_of_mem hp
  refine ⟨(parts.zipIdx 1).map Prod.swap, ?_, ?_, ?_, ?_, ?_, ?_⟩
  · rw [compose, if_neg fun h => hne (List.map_eq_nil_iff.mp h), hparts]
    rfl
  · rw [List.map_map, List.length_map, List.length_zipIdx]
    exact List.zipIdx_map_snd 1 parts
  · rw [← List.flatMap_map, hsnd, List.flatMap_def, hlaid.bytes, ← List.flatMap_def]
    have htiles := hlaid.tiles
    rw [← List.length_flatten] at htiles
    exact htiles.flatMap_slice_all
  · exact fun p hp => hlaid.inside p.2 (hmem p hp)
  · intro p hp
    obtain ⟨r, hr, hlt, hlen⟩ := hlaid.length_bytes hlaid.bytes (List.Subset.refl rs) (hmem p hp)
    have hsmall := hlaid.small r hr
    have hmax : copyPart ≤ maxPart := by decide
    omega
  · intro p hp
    have hinit : p.2 ∈ parts.dropLast := by
      have hmap := List.mem_map_of_mem (f := Prod.snd) hp
      rwa [List.map_dropLast, hsnd] at hmap
    obtain ⟨r, hr, -, hlen⟩ := hlaid.length_bytes
      (by rw [List.map_dropLast, List.map_dropLast, hlaid.bytes]) (List.dropLast_subset rs) hinit
    have hlast := hlaid.tiles.lt_of_mem_dropLast hr
    have hlarge := (hlaid.large r (List.dropLast_subset rs hr)).resolve_right (ne_of_lt hlast)
    omega

/-- A small source in front of another. -/
theorem compose_exact_two :
    ∃ parts, compose ([[1, 2], [3]].map List.length) = .ok parts ∧
      parts.map Prod.fst = List.range' 1 parts.length ∧
      parts.flatMap (fun p => p.2.bytes [[1, 2], [3]]) = [[1, 2], [3]].flatten ∧
      (∀ p ∈ parts, ∀ r ∈ p.2.ranges, r.Inside ([[1, 2], [3]].map List.length)) ∧
      (∀ p ∈ parts, 0 < (p.2.bytes [[1, 2], [3]]).length ∧
        (p.2.bytes [[1, 2], [3]]).length ≤ maxPart) ∧
      ∀ p ∈ parts.dropLast, minPart ≤ (p.2.bytes [[1, 2], [3]]).length :=
  compose_exact (List.cons_ne_nil _ _)

end Plan

end Content

end Walgit.Compose
