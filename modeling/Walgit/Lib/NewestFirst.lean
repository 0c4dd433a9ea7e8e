import Mathlib

/-!
# Newest first

A queue of items of which the newest is taken next, and of items of one time
the one that came first.
-/

namespace Walgit.NewestFirst

structure Timed (α : Type) where
  time : ℤ
  seq : ℕ
  val : α
  deriving DecidableEq, Repr

variable {α : Type} {q rest : List (Timed α)} {x y : Timed α}

/-- `x` is taken before `y`. -/
def Timed.Before (x y : Timed α) : Prop := y.time < x.time ∨ (y.time = x.time ∧ x.seq < y.seq)

instance (x y : Timed α) : Decidable (x.Before y) := inferInstanceAs (Decidable (_ ∨ _))

/-- The item that is taken next, and the others. -/
def pop : List (Timed α) → Option (Timed α × List (Timed α))
  | [] => none
  | x :: xs =>
    match pop xs with
    | none => some (x, [])
    | some (y, rest) => if y.Before x then some (y, x :: rest) else some (x, y :: rest)

theorem pop_eq_none : pop q = none ↔ q = [] := by
  cases q with
  | nil => exact iff_of_true rfl rfl
  | cons x xs =>
    refine iff_of_false (fun h => ?_) (List.cons_ne_nil x xs)
    rw [pop] at h
    split at h
    · cases h
    · split_ifs at h

theorem pop_perm (h : pop q = some (x, rest)) : q.Perm (x :: rest) := by
  induction q generalizing x rest with
  | nil => cases h
  | cons y ys ih =>
    rw [pop] at h
    split at h
    · next hnone =>
      cases h
      rw [pop_eq_none.mp hnone]
    · next z rest' hsome =>
      split_ifs at h
      · cases h
        exact ((ih hsome).cons y).trans (List.Perm.swap _ _ _)
      · cases h
        exact (ih hsome).cons y

theorem mem_pop (h : pop q = some (x, rest)) : y ∈ q ↔ y = x ∨ y ∈ rest :=
  (pop_perm h).mem_iff.trans List.mem_cons

theorem pop_newest (h : pop q = some (x, rest)) (hy : y ∈ q) : y.time ≤ x.time := by
  induction q generalizing x rest with
  | nil => cases h
  | cons z zs ih =>
    rw [pop] at h
    split at h
    · next hnone =>
      cases h
      rw [pop_eq_none.mp hnone] at hy
      rw [List.mem_singleton.mp hy]
    · next w rest' hsome =>
      split_ifs at h with hbefore
      · cases h
        rcases List.mem_cons.mp hy with rfl | hy
        · exact hbefore.elim le_of_lt fun h => le_of_eq h.1
        · exact ih hsome hy
      · cases h
        rcases List.mem_cons.mp hy with rfl | hy
        · exact le_rfl
        · exact le_trans (ih hsome hy) (not_lt.mp fun hlt => hbefore (.inl hlt))

end Walgit.NewestFirst
