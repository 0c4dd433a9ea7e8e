import Mathlib

/-!
# Gains that cost only what ranks below

A state holds some of finitely many ranks. When every step gains a rank that
was missing and loses ranks below that one only, the steps come to an end: the
sets of ranks increase in the colexicographic order.
-/

namespace Walgit.Orders

variable {α : Type} {U : Finset α}

open Classical in
/-- The ranks held, among finitely many. -/
noncomputable def heldSet (U : Finset α) (held : α → Prop) : Finset α := U.filter held

theorem mem_heldSet {p : α → Prop} {a : α} : a ∈ heldSet U p ↔ a ∈ U ∧ p a := by
  simp [heldSet]

variable [LinearOrder α] {held : ℕ → α → Prop}

theorem heldSet_lt {p q : α → Prop} (h : ∃ a ∈ U, q a ∧ ¬ p a ∧ ∀ b, a < b → p b → q b) :
    toColex (heldSet U p) < toColex (heldSet U q) := by
  obtain ⟨a, ha, hq, hp, habove⟩ := h
  rw [Finset.Colex.toColex_lt_toColex_iff_exists_forall_lt]
  refine ⟨a, mem_heldSet.mpr ⟨ha, hq⟩, fun hmem => hp (mem_heldSet.mp hmem).2, fun b hb hnot => ?_⟩
  obtain ⟨hbU, hpb⟩ := mem_heldSet.mp hb
  by_contra hle
  rcases eq_or_lt_of_le (not_lt.mp hle) with rfl | hlt
  · exact hp hpb
  · exact hnot (mem_heldSet.mpr ⟨hbU, habove b hlt hpb⟩)

theorem exists_no_gain :
    ∃ n, ¬ ∃ a ∈ U, held (n + 1) a ∧ ¬ held n a ∧ ∀ b, a < b → held n b → held (n + 1) b := by
  by_contra h
  have hmono : StrictMono fun n => toColex (heldSet U (held n)) := by
    refine strictMono_nat_of_lt_succ fun n => heldSet_lt ?_
    by_contra hn
    exact h ⟨n, hn⟩
  have hinj : Function.Injective fun n => heldSet U (held n) := fun m n heq =>
    hmono.injective (congrArg toColex heq)
  refine Set.infinite_range_of_injective hinj (U.powerset.finite_toSet.subset ?_)
  rintro _ ⟨n, rfl⟩
  exact Finset.mem_powerset.mpr fun a ha => (mem_heldSet.mp ha).1

end Walgit.Orders
