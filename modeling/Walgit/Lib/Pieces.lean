import Mathlib

/-!
# Sequences in pieces

A source hands its items out in pieces of its own; a reader that asks until it
has what it wants sees the sequence only. A writer cuts a sequence into slices
of a bounded length.
-/

namespace Walgit

variable {α : Type}

/-- What a source still has: every read returns items of the first piece. -/
structure Pieces (α : Type) where
  items : List (List α)
  nonempty : ∀ p ∈ items, p ≠ []

namespace Pieces

def all (r : Pieces α) : List α := r.items.flatten

/-- One read of at most `n` items. -/
def read (r : Pieces α) (n : ℕ) : List α × Pieces α :=
  match h : r.items with
  | [] => ([], r)
  | p :: ps =>
    if hn : p.length ≤ n then (p, ⟨ps, fun q hq => r.nonempty q (h ▸ List.mem_cons_of_mem p hq)⟩)
    else (p.take n, ⟨p.drop n :: ps, fun q hq => by
      rcases List.mem_cons.mp hq with rfl | hq
      · rw [ne_eq, List.drop_eq_nil_iff]
        exact hn
      · exact r.nonempty q (h ▸ List.mem_cons_of_mem p hq)⟩)

variable {r : Pieces α} {n : ℕ}

theorem read_append : (r.read n).1 ++ (r.read n).2.all = r.all := by
  unfold read all
  split
  · rfl
  · next p ps heq =>
    split
    · simp [heq]
    · simp only [heq, List.flatten_cons]
      rw [← List.append_assoc, List.take_append_drop]

theorem length_read_le : (r.read n).1.length ≤ n := by
  unfold read
  split
  · exact Nat.zero_le n
  · split
    · assumption
    · exact List.length_take_le n _

/-- A read of nothing is the end of the source. -/
theorem read_eq_nil (hn : 0 < n) : (r.read n).1 = [] ↔ r.all = [] := by
  constructor
  · unfold read all
    split
    · next heq => exact fun _ => by rw [heq, List.flatten_nil]
    · next p ps heq =>
      have hp : p ≠ [] := r.nonempty p (heq ▸ List.mem_cons_self)
      split
      · exact fun h => absurd h hp
      · intro h
        rcases List.take_eq_nil_iff.mp h with h | h
        · omega
        · exact absurd h hp
  · intro h
    have happ := @read_append _ r n
    rw [h] at happ
    exact (List.append_eq_nil_iff.mp happ).1

/-- Reads until `n` items are there or the source ends. -/
def readUpTo (r : Pieces α) (n : ℕ) : List α × Pieces α :=
  if hn : n = 0 then ([], r)
  else
    if hb : (r.read n).1 = [] then ([], (r.read n).2)
    else
      have : n - (r.read n).1.length < n :=
        Nat.sub_lt (Nat.pos_of_ne_zero hn) (List.length_pos_iff.mpr hb)
      let more := (r.read n).2.readUpTo (n - (r.read n).1.length)
      ((r.read n).1 ++ more.1, more.2)
termination_by n

theorem readUpTo_eq : (r.readUpTo n).1 = r.all.take n ∧ (r.readUpTo n).2.all = r.all.drop n := by
  induction r, n using readUpTo.induct with
  | case1 r =>
    rw [readUpTo, dif_pos rfl]
    exact ⟨List.take_zero.symm, List.drop_zero.symm⟩
  | case2 r n hn hb =>
    have hall : r.all = [] := (read_eq_nil (Nat.pos_of_ne_zero hn)).mp hb
    have happ := @read_append _ r n
    rw [hb, List.nil_append, hall] at happ
    rw [readUpTo, dif_neg hn, dif_pos hb, hall, happ, List.take_nil, List.drop_nil]
    exact ⟨rfl, rfl⟩
  | case3 r n hn hb _ ih =>
    have hle := @length_read_le _ r n
    rw [readUpTo, dif_neg hn, dif_neg hb, ← @read_append _ r n, List.take_append,
      List.drop_append, List.take_of_length_le hle, List.drop_of_length_le hle, List.nil_append]
    exact ⟨congrArg _ ih.1, ih.2⟩

/-- A source that has everything in one piece. -/
def one (l : List α) : Pieces α :=
  ⟨if l = [] then [] else [l], fun p hp => by split at hp <;> simp_all⟩

@[simp] theorem all_one (l : List α) : (one l).all = l := by
  unfold one all
  split <;> simp_all

end Pieces

/-- Consecutive slices of `n` items, the last one of what is left. -/
def slices (n : ℕ) (l : List α) : List (List α) :=
  if h : l = [] ∨ n = 0 then []
  else
    have : (l.drop n).length < l.length := by
      rw [not_or] at h
      have := List.length_pos_iff.mpr h.1
      rw [List.length_drop]
      omega
    l.take n :: slices n (l.drop n)
termination_by l.length

variable {n : ℕ} {l s : List α}

@[simp] theorem slices_nil : slices n ([] : List α) = [] := by
  rw [slices, dif_pos (.inl rfl)]

theorem slices_cons (hn : 0 < n) (h : l ≠ []) : slices n l = l.take n :: slices n (l.drop n) := by
  rw [slices, dif_neg (not_or.mpr ⟨h, Nat.ne_of_gt hn⟩)]

theorem slices_of_length_le (h : l ≠ []) (hle : l.length ≤ n) : slices n l = [l] := by
  have hpos := List.length_pos_iff.mpr h
  rw [slices_cons (by omega) h, List.take_of_length_le hle, List.drop_of_length_le hle, slices_nil]

theorem flatten_slices (hn : 0 < n) : (slices n l).flatten = l := by
  induction l using slices.induct n with
  | case1 l h =>
    rw [h.resolve_right (Nat.ne_of_gt hn), slices_nil, List.flatten_nil]
  | case2 l h _ ih =>
    rw [slices_cons hn (not_or.mp h).1, List.flatten_cons, ih, List.take_append_drop]

theorem length_le_of_mem_slices (h : s ∈ slices n l) : s ≠ [] ∧ s.length ≤ n := by
  induction l using slices.induct n with
  | case1 l hl =>
    rw [slices, dif_pos hl] at h
    cases h
  | case2 l hl _ ih =>
    rw [slices, dif_neg hl] at h
    rw [not_or] at hl
    rcases List.mem_cons.mp h with rfl | h
    · refine ⟨?_, List.length_take_le n l⟩
      rw [ne_eq, List.take_eq_nil_iff, not_or]
      exact ⟨hl.2, hl.1⟩
    · exact ih h

theorem length_slices (hn : 0 < n) : (slices n l).length = (l.length + n - 1) / n := by
  induction l using slices.induct n with
  | case1 l h =>
    rw [h.resolve_right (Nat.ne_of_gt hn), slices_nil, List.length_nil, List.length_nil,
      Nat.zero_add]
    exact (Nat.div_eq_of_lt (by omega)).symm
  | case2 l h _ ih =>
    have hpos := List.length_pos_iff.mpr (not_or.mp h).1
    rw [slices_cons hn (not_or.mp h).1, List.length_cons, ih, List.length_drop,
      ← Nat.add_div_right _ hn]
    by_cases hle : n ≤ l.length
    · congr 1
      omega
    · rw [Nat.div_eq_of_lt_le (k := 1) (by omega) (by omega),
        Nat.div_eq_of_lt_le (k := 1) (by omega) (by omega)]

end Walgit
