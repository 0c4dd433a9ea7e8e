import Mathlib

/-!
# Ranges of a sorted list

The partition point of a list that is split by a predicate is found by binary
search. Ranges of positions, in the order of their starts, are taken one after
the other with a cursor. What is taken is the list filtered by membership of a
range, whether the ranges overlap or not. The lists with a given prefix are
such a range of a list in lexicographic order.
-/

namespace Walgit.SortedRanges

variable {α β : Type} {p q : α → Bool} {xs : List α} {lo hi i c : ℕ}

section PartitionPoint

def partitionPoint.go (p : α → Bool) (xs : List α) (lo hi : ℕ) : ℕ :=
  if h : lo < hi then
    let mid := (lo + hi) / 2
    if (xs[mid]?).any p then go p xs (mid + 1) hi else go p xs lo mid
  else lo
termination_by hi - lo

/-- The number of elements in front that satisfy the predicate. -/
def partitionPoint (p : α → Bool) (xs : List α) : ℕ := partitionPoint.go p xs 0 xs.length

/-- The elements that satisfy the predicate come first. -/
def Partitioned (p : α → Bool) (xs : List α) : Prop := xs.Pairwise fun x y => p y → p x

/-- What a search between two bounds knows. -/
structure Between (p : α → Bool) (xs : List α) (lo hi : ℕ) : Prop where
  le : lo ≤ hi
  bound : hi ≤ xs.length
  below : ∀ i (h : i < xs.length), i < lo → p xs[i]
  above : ∀ i (h : i < xs.length), hi ≤ i → ¬ p xs[i]

theorem Partitioned.getElem (h : Partitioned p xs) {i j : ℕ} (hij : i ≤ j) (hj : j < xs.length)
    (hp : p xs[j]) : p xs[i] := by
  rcases Nat.lt_or_eq_of_le hij with hlt | rfl
  · exact List.pairwise_iff_getElem.mp h i j _ hj hlt hp
  · exact hp

theorem Between.go (hp : Partitioned p xs) (h : Between p xs lo hi) :
    Between p xs (partitionPoint.go p xs lo hi) (partitionPoint.go p xs lo hi) := by
  induction lo, hi using partitionPoint.go.induct p xs with
  | case1 lo hi hlt mid hmid ih =>
    rw [partitionPoint.go, dif_pos hlt, if_pos hmid]
    have hlen : mid < xs.length := by
      have := h.bound
      omega
    rw [List.getElem?_eq_getElem hlen, Option.any_some] at hmid
    refine ih ⟨by omega, h.bound, fun i hi hle => ?_, h.above⟩
    exact hp.getElem (by omega) hlen hmid
  | case2 lo hi hlt mid hmid ih =>
    rw [partitionPoint.go, dif_pos hlt, if_neg hmid]
    have hlen : mid < xs.length := by
      have := h.bound
      omega
    rw [List.getElem?_eq_getElem hlen, Option.any_some] at hmid
    refine ih ⟨by omega, hlen.le, h.below, fun i hi hle hpi => ?_⟩
    exact hmid (hp.getElem hle hi hpi)
  | case3 lo hi hlt =>
    rw [partitionPoint.go, dif_neg hlt]
    have heq : lo = hi := Nat.le_antisymm h.le (Nat.not_lt.mp hlt)
    exact heq ▸ h

theorem between_partitionPoint (hp : Partitioned p xs) :
    Between p xs (partitionPoint p xs) (partitionPoint p xs) :=
  Between.go hp ⟨Nat.zero_le _, Nat.le_refl _, fun _ _ h => absurd h (Nat.not_lt_zero _),
    fun _ h hle => absurd h (Nat.not_lt.mpr hle)⟩

theorem lt_partitionPoint (hp : Partitioned p xs) (h : i < xs.length) :
    i < partitionPoint p xs ↔ p xs[i] := by
  have hspec := between_partitionPoint hp
  constructor
  · exact hspec.below i h
  · intro hpi
    by_contra hle
    exact hspec.above i h (Nat.not_lt.mp hle) hpi

end PartitionPoint

section Merge

/-- Ranges in the order of their starts, without what is in front of the cursor. -/
def mergeFrom (xs : List α) : ℕ → List (ℕ × ℕ) → List α
  | _, [] => []
  | cursor, (a, b) :: rs =>
    let a := max a cursor
    if a < b then (xs.drop a).take (b - a) ++ mergeFrom xs b rs else mergeFrom xs cursor rs

/-- The order of pairs. -/
def rangeLe (r s : ℕ × ℕ) : Bool := r.1 < s.1 || (r.1 == s.1 && r.2 ≤ s.2)

def mergeRanges (xs : List α) (ranges : List (ℕ × ℕ)) : List α :=
  mergeFrom xs 0 (ranges.mergeSort rangeLe)

def covered (rs : List (ℕ × ℕ)) (i : ℕ) : Bool := rs.any fun r => r.1 ≤ i && i < r.2

variable {rs : List (ℕ × ℕ)}

/-- The elements from a position on whose position is in a range. -/
def pick (rs : List (ℕ × ℕ)) (xs : List α) (c : ℕ) : List α :=
  (((xs.drop c).zipIdx c).filter fun x => covered rs x.2).map Prod.fst

theorem pick_split {a : ℕ} (hca : c ≤ a) : pick rs xs c =
    ((((xs.drop c).take (a - c)).zipIdx c).filter fun x => covered rs x.2).map Prod.fst ++
      pick rs xs a := by
  rw [pick, ← List.take_append_drop (a - c) (xs.drop c), List.zipIdx_append, List.filter_append,
    List.map_append, List.take_append_drop, List.drop_drop, Nat.add_sub_cancel' hca]
  congr 1
  by_cases hlen : a ≤ xs.length
  · rw [List.length_take, List.length_drop, Nat.min_eq_left (by omega), Nat.add_sub_cancel' hca,
      pick]
  · rw [pick, List.drop_of_length_le (Nat.not_le.mp hlen).le]
    rfl

theorem pick_skip {a : ℕ} (hca : c ≤ a) (h : ∀ i, c ≤ i → i < a → covered rs i = false) :
    pick rs xs c = pick rs xs a := by
  rw [pick_split hca, List.filter_eq_nil_iff.mpr, List.map_nil, List.nil_append]
  intro x hx
  have hlt := List.snd_lt_add_of_mem_zipIdx hx
  have hle := List.length_take_le (a - c) (xs.drop c)
  rw [h x.2 (List.le_snd_of_mem_zipIdx hx) (by omega)]
  exact Bool.false_ne_true

theorem pick_take {a : ℕ} (hca : c ≤ a) (h : ∀ i, c ≤ i → i < a → covered rs i = true) :
    pick rs xs c = (xs.drop c).take (a - c) ++ pick rs xs a := by
  rw [pick_split hca, List.filter_eq_self.mpr, List.zipIdx_map_fst]
  intro x hx
  have hlt := List.snd_lt_add_of_mem_zipIdx hx
  have hle := List.length_take_le (a - c) (xs.drop c)
  exact h x.2 (List.le_snd_of_mem_zipIdx hx) (by omega)

theorem pick_congr {rs' : List (ℕ × ℕ)} (h : ∀ i, c ≤ i → covered rs i = covered rs' i) :
    pick rs xs c = pick rs' xs c := by
  rw [pick, pick, List.filter_congr fun x hx => h x.2 (List.le_snd_of_mem_zipIdx hx)]

theorem covered_cons {r : ℕ × ℕ} :
    covered (r :: rs) i = (decide (r.1 ≤ i) && decide (i < r.2) || covered rs i) :=
  List.any_cons

theorem covered_eq_false (h : ∀ r ∈ rs, i < r.1) : covered rs i = false := by
  refine List.any_eq_false.mpr fun r hr hcov => ?_
  rw [Bool.and_eq_true, decide_eq_true_iff] at hcov
  exact absurd hcov.1 (Nat.not_le.mpr (h r hr))

theorem mergeFrom_eq (h : rs.Pairwise fun r s => r.1 ≤ s.1) : mergeFrom xs c rs = pick rs xs c := by
  induction rs generalizing c with
  | nil =>
    have hnil : ((xs.drop c).zipIdx c).filter (fun x => covered [] x.2) = [] :=
      List.filter_eq_nil_iff.mpr fun _ _ => Bool.false_ne_true
    rw [mergeFrom, pick, hnil, List.map_nil]
  | cons r rs ih =>
    obtain ⟨a, b⟩ := r
    rw [List.pairwise_cons] at h
    rw [mergeFrom]
    split_ifs with hlt
    · -- nothing in front of the range is covered, and all of the range is
      have hskip : ∀ i, c ≤ i → i < max a c → covered ((a, b) :: rs) i = false := by
        intro i hci hi
        have hia : i < a := by omega
        exact covered_eq_false (List.forall_mem_cons.mpr ⟨hia, fun r hr => hia.trans_le (h.1 r hr)⟩)
      have htake : ∀ i, max a c ≤ i → i < b → covered ((a, b) :: rs) i = true := by
        intro i hi hib
        rw [covered_cons, decide_eq_true ((le_max_left a c).trans hi), decide_eq_true hib]
        rfl
      rw [pick_skip (le_max_right a c) hskip, pick_take hlt.le htake, ih h.2]
      refine congrArg _ (pick_congr fun i hi => ?_)
      rw [covered_cons, decide_eq_false (Nat.not_lt.mpr hi), Bool.and_false, Bool.false_or]
    · rw [ih h.2]
      refine pick_congr fun i hi => ?_
      have hnot : ¬ (a ≤ i ∧ i < b) := by omega
      rw [covered_cons, ← Bool.decide_and, decide_eq_false hnot, Bool.false_or]

theorem covered_perm {rs' : List (ℕ × ℕ)} (h : rs.Perm rs') : covered rs i = covered rs' i :=
  h.any_eq

theorem pairwise_mergeSort : (rs.mergeSort rangeLe).Pairwise fun r s => r.1 ≤ s.1 := by
  refine (@List.pairwise_mergeSort _ rangeLe ?_ ?_ rs).imp fun h => ?_
  all_goals simp only [rangeLe, Bool.or_eq_true, Bool.and_eq_true, decide_eq_true_iff,
    beq_iff_eq] at *
  all_goals omega

theorem mergeRanges_eq {ps : List β} {P : β → α → Bool} {range : β → ℕ × ℕ}
    (h : ∀ q ∈ ps, ∀ i (hi : i < xs.length), (range q).1 ≤ i ∧ i < (range q).2 ↔ P q xs[i]) :
    mergeRanges xs (ps.map range) = xs.filter fun x => ps.any (P · x) := by
  rw [mergeRanges, mergeFrom_eq pairwise_mergeSort,
    pick_congr fun i _ => covered_perm (List.mergeSort_perm _ _), pick, List.drop_zero]
  have hcov : ∀ x ∈ xs.zipIdx 0, covered (ps.map range) x.2 = ps.any (P · x.1) := by
    rintro ⟨x, i⟩ hx
    obtain ⟨hi, hxi⟩ := List.mem_zipIdx' hx
    rw [covered, List.any_map, Bool.eq_iff_iff, List.any_eq_true, List.any_eq_true]
    refine exists_congr fun q => and_congr_right fun hq => ?_
    rw [Function.comp_apply, ← Bool.decide_and, decide_eq_true_iff, h q hq i hi, ← hxi]
  rw [List.filter_congr hcov]
  conv_rhs => rw [← List.zipIdx_map_fst 0 xs, List.filter_map]
  rfl

end Merge

section Prefix

variable [LinearOrder α] {x y a : List α}

theorem not_lt_of_prefix (h : a <+: x) : ¬ x < a := by
  obtain ⟨t, rfl⟩ := h
  induction a with
  | nil => exact List.not_lt_nil _
  | cons c cs ih =>
    rw [List.cons_append, List.cons_lt_cons_iff]
    rintro (hlt | ⟨-, hlt⟩)
    · exact lt_irrefl c hlt
    · exact ih hlt

theorem prefix_of_le (hxy : x < y) (hy : a <+: y) (hx : ¬ x < a) : a <+: x := by
  induction a generalizing x y with
  | nil => exact List.nil_prefix
  | cons c cs ih =>
    obtain ⟨t, rfl⟩ := hy
    cases x with
    | nil => exact absurd (List.nil_lt_cons c cs) hx
    | cons d ds =>
      rw [List.cons_append, List.cons_lt_cons_iff] at hxy
      rw [List.cons_lt_cons_iff, not_or, not_and] at hx
      obtain ⟨rfl, hlt⟩ := hxy.resolve_left hx.1
      rw [List.prefix_cons_inj]
      exact ih hlt (List.prefix_append cs t) (hx.2 rfl)

end Prefix

end Walgit.SortedRanges
