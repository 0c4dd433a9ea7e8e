import Mathlib

/-!
# Cutting a stream at a separator

A reader keeps what has come in a buffer and takes off the pieces that are
complete. What it has taken in the end does not depend on how the stream was
handed to it, and pieces without the separator are taken as they were written.
-/

namespace Walgit.Cutting

variable {α : Type} [DecidableEq α] {s : α} {ss xs ys piece rest : List α}

variable (s ss) in
/-- What is in front of the first separator `s :: ss`, and what is after it. -/
def cut : List α → Option (List α × List α)
  | [] => none
  | x :: xs =>
    if (s :: ss).isPrefixOf (x :: xs) then some ([], xs.drop ss.length)
    else (cut xs).map fun r => (x :: r.1, r.2)

theorem eq_append_of_cut (h : cut s ss xs = some (piece, rest)) :
    xs = piece ++ s :: (ss ++ rest) := by
  induction xs generalizing piece with
  | nil => simp [cut] at h
  | cons x xs ih =>
    rw [cut] at h
    split_ifs at h with hp
    · obtain ⟨t, ht⟩ := List.isPrefixOf_iff_prefix.mp hp
      obtain ⟨rfl, rfl⟩ := List.cons_eq_cons.mp ht
      simp only [Option.some_inj, Prod.mk.injEq] at h
      simp [← h.1, ← h.2]
    · simp only [Option.map_eq_some_iff, Prod.mk.injEq] at h
      obtain ⟨⟨p, r⟩, hr, rfl, rfl⟩ := h
      rw [ih hr, List.cons_append]

theorem length_lt_of_cut (h : cut s ss xs = some (piece, rest)) : rest.length < xs.length := by
  rw [eq_append_of_cut h]
  simp
  omega

theorem cut_append (h : cut s ss xs = some (piece, rest)) :
    cut s ss (xs ++ ys) = some (piece, rest ++ ys) := by
  induction xs generalizing piece with
  | nil => simp [cut] at h
  | cons x xs ih =>
    rw [cut] at h
    rw [List.cons_append, cut]
    split_ifs at h with hp
    · obtain ⟨t, ht⟩ := List.isPrefixOf_iff_prefix.mp hp
      obtain ⟨rfl, rfl⟩ := List.cons_eq_cons.mp ht
      simp only [Option.some_inj, Prod.mk.injEq] at h
      simp [← h.1, ← h.2]
    · simp only [Option.map_eq_some_iff, Prod.mk.injEq] at h
      obtain ⟨⟨p, r⟩, hr, rfl, rfl⟩ := h
      have hno : ¬ (s :: ss).isPrefixOf (x :: (xs ++ ys)) := by
        intro hp'
        apply hp
        rw [List.isPrefixOf_iff_prefix] at hp' ⊢
        apply List.prefix_of_prefix_length_le hp' (List.prefix_append (x :: xs) ys)
        rw [eq_append_of_cut hr]
        simp
        omega
      rw [if_neg hno, ih hr]
      rfl

variable (s ss) in
/-- The complete pieces of a buffer, and what is left in it. -/
def drain (buf : List α) : List (List α) × List α :=
  match _h : cut s ss buf with
  | none => ([], buf)
  | some (piece, rest) => (piece :: (drain rest).1, (drain rest).2)
termination_by buf.length
decreasing_by all_goals exact length_lt_of_cut _h

variable (s ss) in
def feed (st : List (List α) × List α) (chunk : List α) : List (List α) × List α :=
  (st.1 ++ (drain s ss (st.2 ++ chunk)).1, (drain s ss (st.2 ++ chunk)).2)

theorem drain_none (h : cut s ss xs = none) : drain s ss xs = ([], xs) := by
  rw [drain]
  split <;> simp_all

@[simp] theorem drain_nil : drain s ss [] = ([], []) := drain_none rfl

theorem drain_some (h : cut s ss xs = some (piece, rest)) :
    drain s ss xs = (piece :: (drain s ss rest).1, (drain s ss rest).2) := by
  rw [drain]
  split <;> simp_all

theorem drain_append : drain s ss (xs ++ ys) = feed s ss (drain s ss xs) ys := by
  induction xs using drain.induct s ss with
  | case1 buf h => rw [drain_none h, feed, List.nil_append]
  | case2 buf piece rest h ih =>
    rw [drain_some (cut_append h), ih, drain_some h]
    rfl

theorem foldl_feed {chunks : List (List α)} :
    chunks.foldl (feed s ss) (drain s ss xs) = drain s ss (xs ++ chunks.flatten) := by
  induction chunks generalizing xs with
  | nil => simp
  | cons chunk chunks ih =>
    rw [List.foldl_cons, ← drain_append, ih, List.flatten_cons, List.append_assoc]

theorem drain_flatten (pieces : List (List α))
    (h : ∀ p ∈ pieces, cut s ss (p ++ s :: ss) = some (p, [])) :
    drain s ss ((pieces.map fun p => p ++ s :: ss).flatten) = (pieces, []) := by
  induction pieces with
  | nil => exact drain_nil
  | cons p pieces ih =>
    obtain ⟨hp, hpieces⟩ := List.forall_mem_cons.mp h
    rw [List.map_cons, List.flatten_cons, drain_some (cut_append hp), List.nil_append, ih hpieces]

theorem drain_part {pieces : List (List α)}
    (h : ∀ p ∈ pieces, cut s ss (p ++ s :: ss) = some (p, []))
    (hxs : xs <+: (pieces.map fun p => p ++ s :: ss).flatten) :
    ∃ done later, pieces = done ++ later ∧ (drain s ss xs).1 = done ∧
      ∀ c ∈ (drain s ss xs).2.head?, ∃ p ∈ later.head?, (drain s ss xs).2 <+: p ++ s :: ss := by
  induction pieces generalizing xs with
  | nil =>
    obtain rfl := List.prefix_nil.mp hxs
    exact ⟨[], [], by simp⟩
  | cons p pieces ih =>
    obtain ⟨hp, hpieces⟩ := List.forall_mem_cons.mp h
    rw [List.map_cons, List.flatten_cons] at hxs
    rcases List.prefix_or_prefix_of_prefix hxs (List.prefix_append _ _) with hle | hle
    · rcases eq_or_ne (cut s ss xs) none with hnone | hsome
      · exact ⟨[], p :: pieces, by simp [drain_none hnone, hle]⟩
      · obtain ⟨⟨q, r⟩, hcut⟩ := Option.ne_none_iff_exists'.mp hsome
        obtain ⟨t, ht⟩ := hle
        -- the piece is complete only when nothing of it is missing
        have hall : cut s ss (xs ++ t) = some (q, r ++ t) := cut_append hcut
        rw [ht, hp, Option.some_inj, Prod.mk.injEq] at hall
        obtain ⟨rfl, hrt⟩ := hall
        obtain ⟨rfl, rfl⟩ := List.append_eq_nil_iff.mp hrt.symm
        exact ⟨[p], pieces, by simp [drain_some hcut]⟩
    · obtain ⟨ys, rfl⟩ := hle
      obtain ⟨done, later, hsplit, hdone, hrest⟩ := ih hpieces
        ((List.prefix_append_right_inj _).mp hxs)
      have hdrain : drain s ss (p ++ s :: ss ++ ys) = (p :: (drain s ss ys).1, (drain s ss ys).2) :=
        drain_some (cut_append hp)
      rw [hdrain]
      exact ⟨p :: done, later, by simp [hsplit], by simp [hdone], hrest⟩

theorem cut_skip (h : s ∉ xs) : cut s ss (xs ++ ys) =
    (cut s ss ys).map fun r => (xs ++ r.1, r.2) := by
  induction xs with
  | nil => simp
  | cons x xs ih =>
    rw [List.mem_cons, not_or] at h
    have hno : ¬ (s :: ss).isPrefixOf (x :: (xs ++ ys)) := by
      simp [List.isPrefixOf_iff_prefix, h.1]
    rw [List.cons_append, cut, if_neg hno, ih h.2, Option.map_map]
    rfl

end Walgit.Cutting
