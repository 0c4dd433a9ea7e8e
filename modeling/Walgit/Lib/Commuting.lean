import Mathlib

/-!
# Steps in another order

Steps on a state that commute unless one depends on the other, up to an
equivalence of states. Two orders of the same steps that list the dependent
ones alike reach equivalent states.
-/

namespace Walgit.Orders

variable {α σ : Type}

structure Commuting (eqv : σ → σ → Prop) (step : σ → α → σ) (dep : α → α → Prop) : Prop where
  equivalence : Equivalence eqv
  congr : ∀ {s s' a}, eqv s s' → eqv (step s a) (step s' a)
  comm : ∀ {s a b}, ¬ dep a b → eqv (step (step s a) b) (step (step s b) a)

variable {eqv : σ → σ → Prop} {step : σ → α → σ} {dep : α → α → Prop} {s s' : σ} {a : α}
  {l l' pre post : List α}

theorem Commuting.foldl_congr (h : Commuting eqv step dep) (hs : eqv s s') :
    eqv (l.foldl step s) (l.foldl step s') := by
  induction l generalizing s s' with
  | nil => exact hs
  | cons a l ih => exact ih (h.congr hs)

theorem Commuting.foldl_front (h : Commuting eqv step dep) (hpre : ∀ b ∈ pre, ¬ dep b a) :
    eqv ((pre ++ a :: post).foldl step s) ((a :: (pre ++ post)).foldl step s) := by
  induction pre generalizing s with
  | nil => exact h.equivalence.refl _
  | cons b pre ih =>
    rw [List.forall_mem_cons] at hpre
    exact h.equivalence.trans (ih hpre.2) (h.foldl_congr (l := pre ++ post) (h.comm hpre.1))

theorem pair_sublist_of_mem {b : α} (hb : b ∈ pre) : [b, a].Sublist (pre ++ a :: post) := by
  have hpost : [a].Sublist (a :: post) := (List.nil_sublist post).cons_cons a
  exact (List.singleton_sublist.mpr hb).append hpost

theorem Commuting.foldl_perm (h : Commuting eqv step dep) (hperm : l.Perm l') (hn : l.Nodup)
    (horder : ∀ a b, dep a b → [a, b].Sublist l → [a, b].Sublist l') :
    eqv (l.foldl step s) (l'.foldl step s) := by
  induction l' generalizing l s with
  | nil =>
    rw [hperm.eq_nil]
    exact h.equivalence.refl _
  | cons a l' ih =>
    obtain ⟨pre, post, rfl⟩ := List.append_of_mem (hperm.mem_iff.mpr List.mem_cons_self)
    have hn' : (a :: l').Nodup := hperm.nodup_iff.mp hn
    obtain ⟨ha, -⟩ := List.nodup_cons.mp hn'
    have hrest : (pre ++ post).Perm l' :=
      (List.perm_middle.symm.trans hperm).cons_inv
    have hfree : ∀ b ∈ pre, ¬ dep b a := by
      intro b hb hdep
      have hsub := horder b a hdep (pair_sublist_of_mem hb)
      rcases List.sublist_cons_iff.mp hsub with hsub | ⟨r, hr, hsub⟩
      · exact ha (hsub.subset (by simp))
      · obtain ⟨-, rfl⟩ := List.cons_eq_cons.mp hr
        exact ha (hsub.subset (by simp))
    refine h.equivalence.trans (h.foldl_front hfree) ?_
    refine ih hrest ((List.nodup_middle.mp hn).of_cons) fun b c hdep hsub => ?_
    have hmid : [b, c].Sublist (pre ++ a :: post) :=
      hsub.trans ((List.sublist_cons_self a post).append_left pre)
    rcases List.sublist_cons_iff.mp (horder b c hdep hmid) with hsub' | ⟨r, hr, -⟩
    · exact hsub'
    · have hb : b ∈ l' := hrest.mem_iff.mp (hsub.subset (by simp))
      exact absurd ((List.cons_eq_cons.mp hr).1 ▸ hb) ha

end Walgit.Orders
