import Mathlib

/-!
# Tables sorted by a key

A table is a list whose keys increase strictly. It can be changed in two ways:
by the operations of an ordered map (`put`, `delete`), or by position, at the
index where a binary search for the key ends. On a sorted table the two are
the same, and a sorted table is determined by its lookups.
-/

namespace Walgit.SortedTable

variable {α K : Type} [LinearOrder K] (key : α → K)

def Sorted (xs : List α) : Prop := xs.Pairwise fun a b => key a < key b

def lookup (k : K) (xs : List α) : Option α := xs.find? fun x => key x = k

/-- Insertion into an ordered map: an entry with the same key is replaced. -/
def put (x : α) : List α → List α
  | [] => [x]
  | y :: ys =>
    if key x < key y then x :: y :: ys
    else if key x = key y then x :: ys
    else y :: put x ys

def delete (k : K) (xs : List α) : List α := xs.filter fun x => key x ≠ k

/-- The first position of a sorted table whose key is not below `k`. -/
def position (k : K) (xs : List α) : ℕ := (xs.takeWhile fun x => key x < k).length

/-- Binary search: the index of the key, or the index where it would be inserted. -/
def binarySearch (k : K) (xs : List α) : Except ℕ ℕ :=
  if (xs[position key k xs]?).map key = some k then .ok (position key k xs)
  else .error (position key k xs)

/-- The entry at the index a binary search finds. -/
def found (k : K) (xs : List α) : Option α :=
  match binarySearch key k xs with
  | .ok i => xs[i]?
  | .error _ => none

/-- Removal at the index a binary search finds. -/
def removeFound (k : K) (xs : List α) : List α :=
  match binarySearch key k xs with
  | .ok i => xs.eraseIdx i
  | .error _ => xs

/-- Replacement or insertion at the index where a binary search ends. -/
def writeFound (x : α) (xs : List α) : List α :=
  match binarySearch key (key x) xs with
  | .ok i => xs.set i x
  | .error i => xs.insertIdx i x

variable {key} {x y : α} {xs ys : List α} {k : K}

@[simp] theorem lookup_nil : lookup key k [] = none := rfl

theorem lookup_cons :
    lookup key k (x :: xs) = if key x = k then some x else lookup key k xs := by
  by_cases h : key x = k <;> simp [lookup, h]

theorem mem_of_lookup (h : lookup key k xs = some x) : x ∈ xs :=
  List.mem_of_find?_eq_some h

theorem lookup_eq_none : lookup key k xs = none ↔ ∀ x ∈ xs, key x ≠ k := by
  simp [lookup]

theorem lookup_put :
    lookup key k (put key x xs) = if key x = k then some x else lookup key k xs := by
  induction xs with
  | nil => rw [put, lookup_cons]
  | cons y ys ih =>
    rw [put]
    by_cases hlt : key x < key y
    · rw [if_pos hlt, lookup_cons]
    rw [if_neg hlt]
    by_cases heq : key x = key y
    · rw [if_pos heq, lookup_cons, lookup_cons, ← heq]
      split_ifs <;> rfl
    · rw [if_neg heq, lookup_cons, lookup_cons, ih]
      grind

theorem lookup_delete {j : K} :
    lookup key k (delete key j xs) = if j = k then none else lookup key k xs := by
  induction xs with
  | nil => simp [delete]
  | cons y ys ih =>
    by_cases hy : key y = j
    · rw [delete, List.filter_cons_of_neg (by simpa using hy), ← delete, ih, lookup_cons, hy]
      split_ifs <;> rfl
    · rw [delete, List.filter_cons_of_pos (by simpa using hy), ← delete, lookup_cons, ih,
        lookup_cons]
      grind

theorem mem_put (h : y ∈ put key x xs) : y = x ∨ y ∈ xs := by
  induction xs with
  | nil => simpa [put] using h
  | cons z zs ih =>
    rw [put] at h
    split_ifs at h <;> grind

theorem Sorted.put (h : Sorted key xs) : Sorted key (put key x xs) := by
  induction xs with
  | nil => exact List.pairwise_singleton _ _
  | cons y ys ih =>
    obtain ⟨hy, hys⟩ := List.pairwise_cons.mp h
    rw [SortedTable.put]
    split_ifs with hlt heq
    · refine List.pairwise_cons.mpr ⟨fun z hz => ?_, h⟩
      obtain rfl | hz := List.mem_cons.mp hz
      · exact hlt
      · exact hlt.trans (hy z hz)
    · exact List.pairwise_cons.mpr ⟨fun z hz => heq ▸ hy z hz, hys⟩
    · refine List.pairwise_cons.mpr ⟨fun z hz => ?_, ih hys⟩
      obtain rfl | hz := mem_put hz
      · exact lt_of_le_of_ne (not_lt.mp hlt) (Ne.symm heq)
      · exact hy z hz

theorem put_of_forall_lt (h : ∀ y ∈ xs, key y < key x) : put key x xs = xs ++ [x] := by
  induction xs with
  | nil => rfl
  | cons y ys ih =>
    rw [List.forall_mem_cons] at h
    rw [SortedTable.put, if_neg (not_lt_of_gt h.1), if_neg (ne_of_gt h.1), ih h.2,
      List.cons_append]

theorem Sorted.delete (h : Sorted key xs) : Sorted key (delete key k xs) :=
  List.Pairwise.filter _ h

theorem Sorted.map {f : α → α} (hf : ∀ x, key (f x) = key x) (h : Sorted key xs) :
    Sorted key (xs.map f) :=
  List.pairwise_map.mpr (h.imp fun hab => by rwa [hf, hf])

theorem lookup_map {f : α → α} (hf : ∀ x, key (f x) = key x) :
    lookup key k (xs.map f) = (lookup key k xs).map f := by
  induction xs with
  | nil => rfl
  | cons x xs ih =>
    rw [List.map_cons, lookup_cons, lookup_cons, ih, hf]
    split_ifs <;> rfl

theorem Sorted.lookup_head (h : Sorted key (x :: xs)) : lookup key (key x) xs = none := by
  refine lookup_eq_none.mpr fun y hy => ?_
  exact ne_of_gt ((List.pairwise_cons.mp h).1 y hy)

theorem Sorted.ext (hx : Sorted key xs) (hy : Sorted key ys)
    (h : ∀ k, lookup key k xs = lookup key k ys) : xs = ys := by
  induction xs generalizing ys with
  | nil =>
    cases ys with
    | nil => rfl
    | cons y ys => simpa [lookup_cons] using h (key y)
  | cons x xs ih =>
    cases ys with
    | nil => simpa [lookup_cons] using h (key x)
    | cons y ys =>
      have hxy : key x = key y := by
        -- the head of either table is the least key, and each has the other's head
        have h1 := h (key x)
        have h2 := h (key y)
        rw [lookup_cons, if_pos rfl, lookup_cons] at h1
        rw [lookup_cons (x := y), if_pos rfl, lookup_cons] at h2
        by_contra hne
        rw [if_neg (Ne.symm hne)] at h1
        rw [if_neg hne] at h2
        have hlt := (List.pairwise_cons.mp hy).1 x (mem_of_lookup h1.symm)
        exact lt_asymm hlt ((List.pairwise_cons.mp hx).1 y (mem_of_lookup h2))
      have hhead : x = y := by
        have h1 := h (key x)
        rw [lookup_cons, if_pos rfl, lookup_cons, if_pos hxy.symm] at h1
        exact Option.some.inj h1
      subst hhead
      refine congrArg (x :: ·) (ih hx.tail hy.tail fun k => ?_)
      by_cases hk : key x = k
      · rw [← hk, hx.lookup_head, hy.lookup_head]
      · simpa [lookup_cons, hk] using h k

theorem position_cons_lt (h : key x < k) :
    position key k (x :: xs) = position key k xs + 1 := by
  simp [position, h]

theorem position_cons_not_lt (h : ¬ key x < k) : position key k (x :: xs) = 0 := by
  simp [position, h]

theorem binarySearch_cons_lt (h : key x < k) :
    binarySearch key k (x :: xs) = match binarySearch key k xs with
      | .ok i => .ok (i + 1)
      | .error i => .error (i + 1) := by
  rw [binarySearch, binarySearch, position_cons_lt h, List.getElem?_cons_succ]
  split_ifs <;> rfl

theorem binarySearch_cons_eq (h : key x = k) : binarySearch key k (x :: xs) = .ok 0 := by
  rw [binarySearch, position_cons_not_lt (by simp [h])]
  simp [h]

theorem binarySearch_cons_gt (h : k < key x) : binarySearch key k (x :: xs) = .error 0 := by
  rw [binarySearch, position_cons_not_lt (not_lt_of_gt h)]
  simp [(ne_of_gt h)]

theorem writeFound_eq : writeFound key x xs = put key x xs := by
  induction xs with
  | nil => rfl
  | cons y ys ih =>
    rw [put]
    obtain hlt | heq | hgt := lt_trichotomy (key x) (key y)
    · rw [if_pos hlt, writeFound, binarySearch_cons_gt hlt]
      rfl
    · rw [if_neg (not_lt_of_ge heq.ge), if_pos heq, writeFound, binarySearch_cons_eq heq.symm]
      rfl
    · rw [if_neg (not_lt_of_gt hgt), if_neg (ne_of_gt hgt), ← ih, writeFound, writeFound,
        binarySearch_cons_lt hgt]
      cases binarySearch key (key x) ys with
      | ok i => rfl
      | error i => rfl

theorem Sorted.writeFound (h : Sorted key xs) : Sorted key (writeFound key x xs) := by
  rw [writeFound_eq]
  exact h.put

theorem delete_eq_self (h : ∀ x ∈ xs, key x ≠ k) : delete key k xs = xs :=
  List.filter_eq_self.mpr fun x hx => by simpa using h x hx

theorem Sorted.removeFound_eq (h : Sorted key xs) :
    removeFound key k xs = SortedTable.delete key k xs := by
  induction xs with
  | nil => rfl
  | cons y ys ih =>
    obtain ⟨hy, hys⟩ := List.pairwise_cons.mp h
    obtain hlt | heq | hgt := lt_trichotomy (key y) k
    · have hd : SortedTable.delete key k (y :: ys) = y :: SortedTable.delete key k ys :=
        List.filter_cons_of_pos (by simpa using ne_of_lt hlt)
      rw [hd, ← ih hys, removeFound, removeFound, binarySearch_cons_lt hlt]
      cases binarySearch key k ys with
      | ok i => rfl
      | error i => rfl
    · have hd : SortedTable.delete key k (y :: ys) = SortedTable.delete key k ys :=
        List.filter_cons_of_neg (by simpa using heq)
      rw [hd, removeFound, binarySearch_cons_eq heq,
        delete_eq_self fun z hz => heq ▸ ne_of_gt (hy z hz)]
      rfl
    · rw [removeFound, binarySearch_cons_gt hgt, delete_eq_self]
      intro z hz
      obtain rfl | hz := List.mem_cons.mp hz
      · exact ne_of_gt hgt
      · exact ne_of_gt (hgt.trans (hy z hz))

theorem Sorted.found_eq (h : Sorted key xs) : found key k xs = lookup key k xs := by
  induction xs with
  | nil => rfl
  | cons y ys ih =>
    obtain ⟨hy, hys⟩ := List.pairwise_cons.mp h
    obtain hlt | heq | hgt := lt_trichotomy (key y) k
    · rw [lookup_cons, if_neg (ne_of_lt hlt), ← ih hys, found, found, binarySearch_cons_lt hlt]
      cases binarySearch key k ys with
      | ok i => rfl
      | error i => rfl
    · rw [lookup_cons, if_pos heq, found, binarySearch_cons_eq heq]
      rfl
    · have hnone : lookup key k (y :: ys) = none := by
        refine lookup_eq_none.mpr (List.forall_mem_cons.mpr ⟨ne_of_gt hgt, fun z hz => ?_⟩)
        exact ne_of_gt (hgt.trans (hy z hz))
      rw [hnone, found, binarySearch_cons_gt hgt]

theorem Sorted.removeFound (h : Sorted key xs) : Sorted key (removeFound key k xs) := by
  rw [h.removeFound_eq]
  exact h.delete

end Walgit.SortedTable
