import Mathlib

/-!
# Ordered groups of a list

Values collected under their keys, the keys in order; and the first of the
least values by a key. Both depend on the members of the list only, as far as
the key tells them apart.
-/

namespace Walgit.Grouping

variable {α β K : Type*}

section Least

variable [LinearOrder K] {f : α → K} {l l' : List α} {m : α}

theorem mem_argmin (hf : Set.InjOn f {a | a ∈ l}) :
    m ∈ l.argmin f ↔ m ∈ l ∧ ∀ a ∈ l, f m ≤ f a := by
  constructor
  · exact fun h => ⟨List.argmin_mem h, fun _ ha => List.le_of_mem_argmin ha h⟩
  · rintro ⟨hm, hle⟩
    cases harg : l.argmin f with
    | none =>
      rw [List.argmin_eq_none.mp harg] at hm
      cases hm
    | some n =>
      have hn : n ∈ l.argmin f := harg
      have heq : f n = f m :=
        le_antisymm (List.le_of_mem_argmin hm hn) (hle n (List.argmin_mem hn))
      rw [hf (List.argmin_mem hn) hm heq]
      rfl

end Least

section Keys

variable [LinearOrder K] {ks ks' : List K} {k : K}

def sortedKeys (ks : List K) : List K := ks.dedup.insertionSort (· ≤ ·)

@[simp] theorem mem_sortedKeys : k ∈ sortedKeys ks ↔ k ∈ ks := by
  rw [sortedKeys, List.mem_insertionSort, List.mem_dedup]

theorem sortedKeys_pairwise (ks : List K) : (sortedKeys ks).Pairwise (· ≤ ·) :=
  List.pairwise_insertionSort _ _

theorem sortedKeys_nodup : (sortedKeys ks).Nodup :=
  (List.perm_insertionSort _ _).nodup_iff.mpr (List.nodup_dedup ks)

theorem sortedKeys_congr (h : ∀ k, k ∈ ks ↔ k ∈ ks') : sortedKeys ks = sortedKeys ks' := by
  refine List.Perm.eq_of_pairwise' (sortedKeys_pairwise ks) (sortedKeys_pairwise ks') ?_
  refine (List.perm_ext_iff_of_nodup sortedKeys_nodup sortedKeys_nodup).mpr fun k => ?_
  rw [mem_sortedKeys, mem_sortedKeys, h]

theorem sortedKeys_getLast : (sortedKeys ks).getLast? = some k ↔ k ∈ ks ∧ ∀ i ∈ ks, i ≤ k := by
  constructor
  · intro h
    obtain ⟨init, hinit⟩ := List.getLast?_eq_some_iff.mp h
    have hle := sortedKeys_pairwise ks
    rw [hinit, List.pairwise_append] at hle
    refine ⟨mem_sortedKeys.mp (hinit ▸ by simp), fun i hi => ?_⟩
    rw [← mem_sortedKeys, hinit, List.mem_append, List.mem_singleton] at hi
    rcases hi with hi | rfl
    · exact hle.2.2 i hi k (List.mem_singleton_self k)
    · exact le_rfl
  · rintro ⟨hk, hmax⟩
    cases hlast : (sortedKeys ks).getLast? with
    | none =>
      rw [List.getLast?_eq_none_iff] at hlast
      rw [← mem_sortedKeys, hlast] at hk
      cases hk
    | some j =>
      obtain ⟨init, hinit⟩ := List.getLast?_eq_some_iff.mp hlast
      have hle := sortedKeys_pairwise ks
      rw [hinit, List.pairwise_append] at hle
      have hj : j ∈ ks := mem_sortedKeys.mp (hinit ▸ by simp)
      have hkj : k ≤ j := by
        rw [← mem_sortedKeys, hinit, List.mem_append, List.mem_singleton] at hk
        rcases hk with hk | rfl
        · exact hle.2.2 k hk j (List.mem_singleton_self j)
        · exact le_rfl
      rw [le_antisymm (hmax j hj) hkj]

theorem sortedKeys_eq_nil : sortedKeys ks = [] ↔ ks = [] := by
  constructor
  · intro h
    refine List.eq_nil_iff_forall_not_mem.mpr fun k hk => ?_
    rw [← mem_sortedKeys, h] at hk
    cases hk
  · rintro rfl
    rfl

end Keys

section Groups

variable [LinearOrder K] {key : α → K} {l l' : List α}

/-- The values pushed under each key, in the order of the list; the keys in their order. -/
def groupBy (key : α → K) (l : List α) : List (K × List α) :=
  (sortedKeys (l.map key)).map fun k => (k, l.filter fun a => key a = k)

theorem mem_groupBy {g : K × List α} : g ∈ groupBy key l ↔
    g.1 ∈ l.map key ∧ g.2 = l.filter fun a => key a = g.1 := by
  simp only [groupBy, List.mem_map (f := fun k => (k, l.filter fun a => key a = k)),
    mem_sortedKeys]
  constructor
  · rintro ⟨k, hk, rfl⟩
    exact ⟨hk, rfl⟩
  · rintro ⟨hk, hg⟩
    exact ⟨g.1, hk, Prod.ext rfl hg.symm⟩

theorem groupBy_filter_congr {p : K × List α → Bool} {f : K × List α → β}
    (hkeys : ∀ k, k ∈ l.map key ↔ k ∈ l'.map key)
    (hp : ∀ k, p (k, l.filter fun a => key a = k) = p (k, l'.filter fun a => key a = k))
    (hf : ∀ k, f (k, l.filter fun a => key a = k) = f (k, l'.filter fun a => key a = k)) :
    ((groupBy key l).filter p).map f = ((groupBy key l').filter p).map f := by
  rw [groupBy, groupBy, sortedKeys_congr hkeys, List.filter_map, List.filter_map, List.map_map,
    List.map_map]
  have hfilter : (sortedKeys (l'.map key)).filter (p ∘ fun k => (k, l.filter fun a => key a = k)) =
      (sortedKeys (l'.map key)).filter (p ∘ fun k => (k, l'.filter fun a => key a = k)) :=
    List.filter_congr fun k _ => hp k
  rw [hfilter]
  exact List.map_congr_left fun k _ => hf k

theorem groupBy_filterMap_congr {f : K × List α → Option β}
    (hkeys : ∀ k, k ∈ l.map key ↔ k ∈ l'.map key)
    (hf : ∀ k, f (k, l.filter fun a => key a = k) = f (k, l'.filter fun a => key a = k)) :
    (groupBy key l).filterMap f = (groupBy key l').filterMap f := by
  rw [groupBy, groupBy, sortedKeys_congr hkeys, List.filterMap_map, List.filterMap_map]
  exact List.filterMap_congr fun k _ => hf k

end Groups

section Orders

variable {R S : α → α → Prop} {l l' : List α} {a b : α}

theorem pairwise_agree (hR : l.Pairwise R) (hS : l.Pairwise S) (hirr : ∀ a, ¬ R a a)
    (hirr' : ∀ a, ¬ S a a) (hasym : ∀ a b, R a b → ¬ R b a) (hasym' : ∀ a b, S a b → ¬ S b a)
    (ha : a ∈ l) (hb : b ∈ l) : R a b ↔ S a b := by
  induction l with
  | nil => cases ha
  | cons x xs ih =>
    obtain ⟨hRx, hR⟩ := List.pairwise_cons.mp hR
    obtain ⟨hSx, hS⟩ := List.pairwise_cons.mp hS
    rcases List.mem_cons.mp ha with hax | ha
    · rcases List.mem_cons.mp hb with hbx | hb
      · rw [hax, hbx]
        exact iff_of_false (hirr _) (hirr' _)
      · rw [hax]
        exact iff_of_true (hRx b hb) (hSx b hb)
    · rcases List.mem_cons.mp hb with hbx | hb
      · rw [hbx]
        exact iff_of_false (hasym _ _ (hRx a ha)) (hasym' _ _ (hSx a ha))
      · exact ih hR hS ha hb

theorem filterMap_eq_of_agree {g : α → Option β} (hl : l.Perm l') (hR : l.Pairwise R)
    (hS : l'.Pairwise S) (hasym : ∀ a b, R a b → ¬ R b a)
    (hagree : ∀ a ∈ l, ∀ b ∈ l, (g a).isSome = true → (g b).isSome = true → (R a b ↔ S a b)) :
    l.filterMap g = l'.filterMap g := by
  have hg : ∀ xs : List α, xs.filterMap g = (xs.filter fun a => (g a).isSome).filterMap g := by
    intro xs
    rw [List.filterMap_filter]
    refine List.filterMap_congr fun a _ => ?_
    cases g a <;> rfl
  have heq : (l.filter fun a => (g a).isSome) = l'.filter fun a => (g a).isSome := by
    have hR' : (l'.filter fun a => (g a).isSome).Pairwise R := by
      refine (hS.filter _).imp_of_mem fun {a b} ha hb hab => ?_
      obtain ⟨ha, hga⟩ := List.mem_filter.mp ha
      obtain ⟨hb, hgb⟩ := List.mem_filter.mp hb
      exact (hagree a (hl.mem_iff.mpr ha) b (hl.mem_iff.mpr hb) hga hgb).mpr hab
    exact List.Perm.eq_of_pairwise (fun a b _ _ hab hba => absurd hba (hasym a b hab))
      (hR.filter _) hR' (hl.filter _)
  rw [hg l, hg l', heq]

end Orders

end Walgit.Grouping
