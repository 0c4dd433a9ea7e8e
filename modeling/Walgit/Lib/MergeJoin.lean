import Mathlib

/-!
# Joining two sorted lists

Two lists that are sorted by a key are walked together: elements of the same
key are joined, the others stand alone. What is joined is the full outer join
of the two lists.
-/

namespace Walgit.MergeJoin

variable {α κ : Type}

/-- The walk over two lists, in at most as many steps as it is given. -/
def join (cmp : α → α → Ordering) : ℕ → List α → List α → List (Option α × Option α)
  | 0, _, _ => []
  | _ + 1, [], [] => []
  | n + 1, x :: xs, [] => (some x, none) :: join cmp n xs []
  | n + 1, [], y :: ys => (none, some y) :: join cmp n [] ys
  | n + 1, x :: xs, y :: ys =>
    match cmp x y with
    | .eq => (some x, some y) :: join cmp n xs ys
    | .lt => (some x, none) :: join cmp n xs (y :: ys)
    | .gt => (none, some y) :: join cmp n (x :: xs) ys

/-- Elements of the same key, or one whose key the other list does not have. -/
def Joined (key : α → κ) (xs ys : List α) : Option α × Option α → Prop
  | (some x, some y) => x ∈ xs ∧ y ∈ ys ∧ key x = key y
  | (some x, none) => x ∈ xs ∧ ∀ y ∈ ys, key x ≠ key y
  | (none, some y) => y ∈ ys ∧ ∀ x ∈ xs, key x ≠ key y
  | (none, none) => False

variable [LinearOrder κ] {key : α → κ} {xs ys : List α} {x y : α} {p : Option α × Option α}

/-- The elements are in the strict order of their keys. -/
def Sorted (key : α → κ) (xs : List α) : Prop := xs.Pairwise fun x y => key x < key y

theorem joined_left (h : Sorted key (x :: xs)) (hys : ∀ y ∈ ys, key x ≠ key y) :
    Joined key (x :: xs) ys p ↔ p = (some x, none) ∨ Joined key xs ys p := by
  have hx := (List.pairwise_cons.mp h).1
  rcases p with ⟨_ | x', _ | y'⟩ <;> simp only [Joined, List.mem_cons] <;> grind

theorem joined_right (h : Sorted key (y :: ys)) (hxs : ∀ x ∈ xs, key x ≠ key y) :
    Joined key xs (y :: ys) p ↔ p = (none, some y) ∨ Joined key xs ys p := by
  have hy := (List.pairwise_cons.mp h).1
  rcases p with ⟨_ | x', _ | y'⟩ <;> simp only [Joined, List.mem_cons] <;> grind

theorem joined_both (hx : Sorted key (x :: xs)) (hy : Sorted key (y :: ys))
    (heq : key x = key y) :
    Joined key (x :: xs) (y :: ys) p ↔ p = (some x, some y) ∨ Joined key xs ys p := by
  have hlt := (List.pairwise_cons.mp hx).1
  have hlt' := (List.pairwise_cons.mp hy).1
  rcases p with ⟨_ | x', _ | y'⟩ <;> simp only [Joined, List.mem_cons] <;> grind

/-- The outcome of a comparison is the order of the keys. -/
def Agrees (o : Ordering) (k l : κ) : Prop :=
  match o with
  | .lt => k < l
  | .eq => k = l
  | .gt => l < k

/-- The walk joins the lists, where the comparison is that of the keys. -/
theorem mem_join {cmp : α → α → Ordering} {n : ℕ} (hx : Sorted key xs) (hy : Sorted key ys)
    (hcmp : ∀ x ∈ xs, ∀ y ∈ ys, Agrees (cmp x y) (key x) (key y))
    (hn : xs.length + ys.length ≤ n) : p ∈ join cmp n xs ys ↔ Joined key xs ys p := by
  induction n generalizing xs ys with
  | zero =>
    have hlength := Nat.le_zero.mp hn
    obtain rfl := List.eq_nil_of_length_eq_zero (Nat.eq_zero_of_add_eq_zero_right hlength)
    obtain rfl := List.eq_nil_of_length_eq_zero (Nat.eq_zero_of_add_eq_zero_left hlength)
    rcases p with ⟨_ | x', _ | y'⟩ <;> simp [join, Joined]
  | succ n ih =>
    cases xs with
    | nil =>
      cases ys with
      | nil => rcases p with ⟨_ | x', _ | y'⟩ <;> simp [join, Joined]
      | cons y ys =>
        have hnone : ∀ x ∈ ([] : List α), key x ≠ key y := fun _ h => nomatch h
        rw [join, List.mem_cons, joined_right hy hnone,
          ih hx (List.Pairwise.of_cons hy) (fun _ h => nomatch h) (by simpa using hn)]
    | cons x xs =>
      have hxs := List.Pairwise.of_cons hx
      have hxlt := (List.pairwise_cons.mp hx).1
      cases ys with
      | nil =>
        have hnone : ∀ y ∈ ([] : List α), key x ≠ key y := fun _ h => nomatch h
        rw [join, List.mem_cons, joined_left hx hnone, ih hxs hy (fun _ _ _ h => nomatch h)
          (by simpa using hn)]
      | cons y ys =>
        have hys := List.Pairwise.of_cons hy
        have hylt := (List.pairwise_cons.mp hy).1
        rw [List.length_cons, List.length_cons] at hn
        have hxy := hcmp x List.mem_cons_self y List.mem_cons_self
        rw [join]
        split
        · next heq =>
          rw [heq] at hxy
          change key x = key y at hxy
          rw [List.mem_cons, joined_both hx hy hxy, ih hxs hys (fun x' hx' y' hy' => hcmp x'
            (List.mem_cons_of_mem x hx') y' (List.mem_cons_of_mem y hy')) (by omega)]
        · next hlt =>
          rw [hlt] at hxy
          change key x < key y at hxy
          have hother : ∀ y' ∈ y :: ys, key x ≠ key y' :=
            List.forall_mem_cons.mpr ⟨hxy.ne, fun y' hy' => (hxy.trans (hylt y' hy')).ne⟩
          rw [List.mem_cons, joined_left hx hother, ih hxs hy (fun x' hx' => hcmp x'
            (List.mem_cons_of_mem x hx')) (by rw [List.length_cons]; omega)]
        · next hgt =>
          rw [hgt] at hxy
          change key y < key x at hxy
          have hother : ∀ x' ∈ x :: xs, key x' ≠ key y :=
            List.forall_mem_cons.mpr ⟨hxy.ne', fun x' hx' => (hxy.trans (hxlt x' hx')).ne'⟩
          rw [List.mem_cons, joined_right hy hother, ih hx hys (fun x' hx' y' hy' => hcmp x' hx' y'
            (List.mem_cons_of_mem y hy')) (by rw [List.length_cons]; omega)]

end Walgit.MergeJoin
