import Mathlib.Logic.Relation
import Mathlib.Data.Fintype.EquivFin
import Mathlib.Data.Finset.Card
import Walgit.Threads

/-!
# Parents before children

A pass over the pending entries, which are in time order, emits those whose
parent is emitted. An entry so waits one pass for every ancestor, itself
included, whose parent sorts after it. The loop gives up when its passes are
more than twice the entries still pending, and appends these in time order.
-/

namespace Walgit.Collab

section Lags

/-- `p` is the parent that `e` names. -/
def IsParent (p e : EntryRef) : Prop := e.entry.parent ≠ "" ∧ e.entry.parent = p.oid

instance {p e : EntryRef} : Decidable (IsParent p e) := inferInstanceAs (Decidable (_ ∧ _))

/-- The parent link, within the entries. -/
def ParentIn (entries : List EntryRef) (p e : EntryRef) : Prop :=
  p ∈ entries ∧ e ∈ entries ∧ IsParent p e

def Acyclic (entries : List EntryRef) : Prop :=
  ∀ e, ¬ Relation.TransGen (ParentIn entries) e e

def parentOf (entries : List EntryRef) (e : EntryRef) : Option EntryRef :=
  entries.find? fun p => IsParent p e

/-- The links among the first `n` up from `e` that lead to an entry which sorts later. -/
def lagsUp (entries : List EntryRef) : ℕ → EntryRef → ℕ
  | 0, _ => 0
  | n + 1, e =>
    match parentOf entries e with
    | none => 0
    | some p => lagsUp entries n p + if e.key < p.key then 1 else 0

/-- The parent links on the way up from `e` that lead to an entry which sorts later. -/
def lags (entries : List EntryRef) (e : EntryRef) : ℕ := lagsUp entries entries.length e

/-- How many entries have at least `k` such links. -/
def lagging (entries : List EntryRef) (k : ℕ) : ℕ :=
  (entries.filter fun e => k ≤ lags entries e).length

/-- Every entry is preceded by its parent, when that is in the list. -/
def ParentsFirst (l : List EntryRef) : Prop :=
  ∀ pre e post, l = pre ++ e :: post → ∀ p ∈ l, IsParent p e → p ∈ pre

variable {entries : List EntryRef} {p q e : EntryRef}

theorem lagsUp_root {n : ℕ} (h : parentOf entries e = none) : lagsUp entries n e = 0 := by
  cases n with
  | zero => rfl
  | succ n => simp [lagsUp, h]

theorem lagsUp_succ {n : ℕ} (h : parentOf entries e = some p) :
    lagsUp entries (n + 1) e = lagsUp entries n p + if e.key < p.key then 1 else 0 := by
  simp [lagsUp, h]

theorem parentOf_some (h : parentOf entries e = some p) : p ∈ entries ∧ IsParent p e :=
  ⟨List.mem_of_find?_eq_some h, by simpa using List.find?_some h⟩

theorem parentOf_eq (hn : (entries.map EntryRef.oid).Nodup) (hp : p ∈ entries)
    (h : IsParent p e) : parentOf entries e = some p := by
  cases hq : parentOf entries e with
  | none =>
    have := List.find?_eq_none.mp hq p hp
    simp [h] at this
  | some q =>
    obtain ⟨hmem, hpar⟩ := parentOf_some hq
    rw [List.inj_on_of_nodup_map hn hmem hp (hpar.2.symm.trans h.2)]

/-- The entries above `e`. -/
noncomputable def ancestors (entries : List EntryRef) (e : EntryRef) : Finset EntryRef := by
  classical
  exact entries.toFinset.filter fun p => Relation.TransGen (ParentIn entries) p e

theorem mem_ancestors : p ∈ ancestors entries e ↔
    p ∈ entries ∧ Relation.TransGen (ParentIn entries) p e := by
  classical
  simp [ancestors]

theorem card_ancestors : (ancestors entries e).card ≤ entries.length := by
  classical
  exact (Finset.card_filter_le _ _).trans entries.toFinset_card_le

theorem ancestors_ssubset (ha : Acyclic entries) (h : ParentIn entries p e) :
    ancestors entries p ⊂ ancestors entries e := by
  refine (Finset.ssubset_iff_of_subset fun x hx => ?_).mpr ⟨p, ?_, fun hx => ?_⟩
  · obtain ⟨hmem, hup⟩ := mem_ancestors.mp hx
    exact mem_ancestors.mpr ⟨hmem, hup.tail h⟩
  · exact mem_ancestors.mpr ⟨h.1, .single h⟩
  · exact ha p (mem_ancestors.mp hx).2

theorem lagsUp_stable (ha : Acyclic entries) (he : e ∈ entries) {n m : ℕ}
    (hn : (ancestors entries e).card ≤ n) (hm : (ancestors entries e).card ≤ m) :
    lagsUp entries n e = lagsUp entries m e := by
  induction n generalizing e m with
  | zero =>
    cases hp : parentOf entries e with
    | none => rw [lagsUp_root hp, lagsUp_root hp]
    | some p =>
      obtain ⟨hmem, hpar⟩ := parentOf_some hp
      have := Finset.card_lt_card (ancestors_ssubset ha ⟨hmem, he, hpar⟩)
      omega
  | succ n ih =>
    cases hp : parentOf entries e with
    | none => rw [lagsUp_root hp, lagsUp_root hp]
    | some p =>
      obtain ⟨hmem, hpar⟩ := parentOf_some hp
      have hlt := Finset.card_lt_card (ancestors_ssubset ha ⟨hmem, he, hpar⟩)
      obtain ⟨m, rfl⟩ : ∃ k, m = k + 1 := ⟨m - 1, by omega⟩
      have hstep := ih hmem (m := m) (by omega) (by omega)
      rw [lagsUp_succ hp, lagsUp_succ hp, hstep]

theorem lags_root (h : parentOf entries e = none) : lags entries e = 0 := lagsUp_root h

theorem lags_child (ha : Acyclic entries) (he : e ∈ entries) (h : parentOf entries e = some p) :
    lags entries e = lags entries p + if e.key < p.key then 1 else 0 := by
  obtain ⟨hmem, hpar⟩ := parentOf_some h
  have hlt := Finset.card_lt_card (ancestors_ssubset ha ⟨hmem, he, hpar⟩)
  have hle : (ancestors entries e).card ≤ entries.length := card_ancestors
  rw [lags, lagsUp_stable ha he (m := entries.length + 1) hle (by omega), lagsUp_succ h, lags]

end Lags

section Passes

variable {entries done rest out l : List EntryRef} {p q e : EntryRef} {k : ℕ}

theorem sortEntries_pairwise : (sortEntries entries).Pairwise fun a b => a.key ≤ b.key := by
  have : Std.Total fun a b : EntryRef => a.key ≤ b.key := ⟨fun a b => le_total _ _⟩
  have : IsTrans EntryRef fun a b => a.key ≤ b.key := ⟨fun _ _ _ => le_trans⟩
  exact List.pairwise_insertionSort _ entries

theorem sortEntries_perm : (sortEntries entries).Perm entries := List.perm_insertionSort _ entries

theorem eq_of_key (hn : (entries.map EntryRef.oid).Nodup) (hp : p ∈ entries) (hq : q ∈ entries)
    (h : p.key = q.key) : p = q :=
  List.inj_on_of_nodup_map hn hp hq (key_inj h)

/-- What the loop has emitted before pass `k`: what waits for no pass, for one, and so on. -/
def emitted (entries : List EntryRef) (k : ℕ) : List EntryRef :=
  (List.range k).flatMap fun j => (sortEntries entries).filter fun e => lags entries e = j

def pendingAt (entries : List EntryRef) (k : ℕ) : List EntryRef :=
  (sortEntries entries).filter fun e => k ≤ lags entries e

theorem mem_emitted : e ∈ emitted entries k ↔ e ∈ entries ∧ lags entries e < k := by
  simp only [emitted, List.mem_flatMap, List.mem_range, List.mem_filter, decide_eq_true_eq,
    sortEntries_perm.mem_iff]
  constructor
  · rintro ⟨j, hj, he, rfl⟩
    exact ⟨he, hj⟩
  · rintro ⟨he, hk⟩
    exact ⟨_, hk, he, rfl⟩

theorem mem_pendingAt : e ∈ pendingAt entries k ↔ e ∈ entries ∧ k ≤ lags entries e := by
  simp [pendingAt, sortEntries_perm.mem_iff]

theorem length_pendingAt : (pendingAt entries k).length = lagging entries k :=
  (sortEntries_perm.filter _).length_eq

theorem lagging_anti {j : ℕ} (h : j ≤ k) : lagging entries k ≤ lagging entries j := by
  refine (List.monotone_filter_right entries fun e he => ?_).length_le
  simp only [decide_eq_true_eq] at he ⊢
  omega

theorem ready_iff (hn : (entries.map EntryRef.oid).Nodup) (ha : Acyclic entries)
    (hpend : ∀ x, x ∈ done ++ e :: rest ↔ x ∈ entries ∧ k ≤ lags entries x)
    (hsort : (done ++ e :: rest).Pairwise fun a b => a.key ≤ b.key)
    (hout : ∀ x, x ∈ out ↔ x ∈ entries ∧ lags entries x < k) :
    (e.entry.parent = "" ∨ e.entry.parent ∉ entries.map EntryRef.oid ∨
      e.entry.parent ∈ (out ++ done.filter fun x => lags entries x = k).map EntryRef.oid) ↔
      lags entries e = k := by
  obtain ⟨he, hle⟩ := (hpend e).mp (by simp)
  cases hp : parentOf entries e with
  | none =>
    have hzero : lags entries e = 0 := lags_root hp
    refine iff_of_true ?_ (by omega)
    by_contra hno
    obtain ⟨hne, hknown, -⟩ := by simpa only [not_or, not_not] using hno
    obtain ⟨p, hmem, hoid⟩ := List.mem_map.mp hknown
    rw [parentOf_eq hn hmem ⟨hne, hoid.symm⟩] at hp
    cases hp
  | some p =>
    obtain ⟨hmem, hne, hoid⟩ := parentOf_some hp
    have hchild := lags_child ha he hp
    have hknown : e.entry.parent ∈ entries.map EntryRef.oid := hoid ▸ List.mem_map_of_mem hmem
    have hdone : ∀ x ∈ done, x ∈ entries := fun x hx => ((hpend x).mp (by simp [hx])).1
    have hshown : e.entry.parent ∈ (out ++ done.filter fun x => lags entries x = k).map
        EntryRef.oid ↔ p ∈ out ∨ p ∈ done ∧ lags entries p = k := by
      constructor
      · intro h
        obtain ⟨x, hx, hxoid⟩ := List.mem_map.mp h
        have hx' : x ∈ out ∨ x ∈ done ∧ lags entries x = k := by simpa using hx
        have hxmem : x ∈ entries := hx'.elim (fun h => ((hout x).mp h).1) fun h => hdone x h.1
        rwa [List.inj_on_of_nodup_map hn hxmem hmem (hxoid.trans hoid)] at hx'
      · intro h
        exact List.mem_map.mpr ⟨p, by simpa using h, hoid.symm⟩
    simp only [hne, hknown, not_true, false_or, hshown]
    obtain ⟨hpast, hsort', hcross⟩ := List.pairwise_append.mp hsort
    constructor
    · rintro (hpout | ⟨hpdone, hk⟩)
      · have := ((hout p).mp hpout).2
        split_ifs at hchild <;> omega
      · rw [if_neg (not_lt_of_ge (hcross p hpdone e List.mem_cons_self))] at hchild
        omega
    · intro hk
      split_ifs at hchild with hlater
      · exact .inl ((hout p).mpr ⟨hmem, by omega⟩)
      · have hpk : lags entries p = k := by omega
        refine .inr ⟨?_, hpk⟩
        rcases List.mem_append.mp ((hpend p).mpr ⟨hmem, by omega⟩) with hin | hin
        · exact hin
        · -- not at or after `e`: it would have its key, and be `e` itself
          have hge : e.key ≤ p.key := by
            rcases List.mem_cons.mp hin with rfl | hin
            · exact le_refl _
            · exact (List.pairwise_cons.mp hsort').1 p hin
          have heq := eq_of_key hn hmem he (le_antisymm (not_lt.mp hlater) hge)
          subst heq
          exact absurd (.single ⟨hmem, hmem, hne, hoid⟩) (ha p)

theorem threadPass_lags (hn : (entries.map EntryRef.oid).Nodup) (ha : Acyclic entries)
    (hpend : ∀ x, x ∈ done ++ rest ↔ x ∈ entries ∧ k ≤ lags entries x)
    (hsort : (done ++ rest).Pairwise fun a b => a.key ≤ b.key)
    (hout : ∀ x, x ∈ out ↔ x ∈ entries ∧ lags entries x < k) :
    threadPass (entries.map EntryRef.oid) rest
      ⟨out ++ done.filter fun x => lags entries x = k,
        done.filter fun x => k < lags entries x⟩ =
      ⟨out ++ (done ++ rest).filter fun x => lags entries x = k,
        (done ++ rest).filter fun x => k < lags entries x⟩ := by
  induction rest generalizing done with
  | nil => simp [threadPass]
  | cons e rest ih =>
    have hready := ready_iff hn ha hpend hsort hout
    have hle := ((hpend e).mp (by simp)).2
    have happ : done ++ e :: rest = (done ++ [e]) ++ rest := by simp
    rw [happ] at hpend hsort ⊢
    unfold threadPass
    by_cases hk : lags entries e = k
    · rw [if_pos (hready.mpr hk), ← ih hpend hsort]
      simp [List.filter_append, hk]
    · rw [if_neg (fun h => hk (hready.mp h)), ← ih hpend hsort]
      have hlt : k < lags entries e := by omega
      simp [List.filter_append, hk, hlt]

theorem emitted_succ : emitted entries (k + 1) =
    emitted entries k ++ (sortEntries entries).filter fun e => lags entries e = k := by
  rw [emitted, List.range_succ, List.flatMap_append, List.flatMap_singleton, emitted]

theorem pass_step (hn : (entries.map EntryRef.oid).Nodup) (ha : Acyclic entries) :
    threadPass (entries.map EntryRef.oid) (pendingAt entries k) ⟨emitted entries k, []⟩ =
      ⟨emitted entries (k + 1), pendingAt entries (k + 1)⟩ := by
  have hpass := @threadPass_lags entries [] (pendingAt entries k) (emitted entries k) k hn ha
    (fun _ => mem_pendingAt) (sortEntries_pairwise.filter _) fun _ => mem_emitted
  have hnow : (pendingAt entries k).filter (fun e => lags entries e = k) =
      (sortEntries entries).filter fun e => lags entries e = k := by
    rw [pendingAt, List.filter_filter]
    refine List.filter_congr fun e _ => ?_
    simp only [Bool.and_eq_decide, decide_eq_true_eq, decide_eq_decide]
    omega
  have hlater : (pendingAt entries k).filter (fun e => k < lags entries e) =
      pendingAt entries (k + 1) := by
    rw [pendingAt, List.filter_filter]
    refine List.filter_congr fun e _ => ?_
    simp only [Bool.and_eq_decide, decide_eq_true_eq, decide_eq_decide]
    omega
  simp only [List.nil_append, List.filter_nil, List.append_nil] at hpass
  rw [hpass, hnow, hlater, emitted_succ]

end Passes

section Order

variable {entries : List EntryRef} {p e : EntryRef} {k : ℕ}

/-- The condition of the loop before pass `k`. -/
def Goes (entries : List EntryRef) (k : ℕ) : Prop :=
  pendingAt entries k ≠ [] ∧ k < (pendingAt entries k).length * 2 + 1

/-- The passes up to the one at which the loop stops. -/
structure StopsAt (entries : List EntryRef) (k : ℕ) : Prop where
  ran : ∀ j < k, Goes entries j
  stopped : ¬ Goes entries k

theorem threadLoop_lags (hn : (entries.map EntryRef.oid).Nodup) (ha : Acyclic entries)
    {rounds : ℕ} (hran : ∀ j < k, Goes entries j)
    (hrounds : entries.length * 2 + 1 ≤ k + rounds) :
    ∃ j, StopsAt entries j ∧
      threadLoop (entries.map EntryRef.oid) rounds k (pendingAt entries k) (emitted entries k) =
        emitted entries j ++ pendingAt entries j := by
  have hlen : ∀ j, (pendingAt entries j).length ≤ entries.length := fun j =>
    (List.length_filter_le _ _).trans sortEntries_perm.length_eq.le
  induction rounds generalizing k with
  | zero =>
    refine ⟨k, ⟨hran, fun hgo => ?_⟩, rfl⟩
    have := hlen k
    have := hgo.2
    omega
  | succ rounds ih =>
    unfold threadLoop
    by_cases hgo : pendingAt entries k ≠ [] ∧ k < (pendingAt entries k).length * 2 + 1
    · rw [if_pos hgo, pass_step hn ha]
      refine ih (fun j hj => ?_) (by omega)
      rcases Nat.lt_succ_iff_lt_or_eq.mp hj with hj | rfl
      · exact hran j hj
      · exact hgo
    · rw [if_neg hgo]
      exact ⟨k, ⟨hran, hgo⟩, rfl⟩

theorem thread_eq (hn : (entries.map EntryRef.oid).Nodup) (ha : Acyclic entries) :
    ∃ k, StopsAt entries k ∧ thread entries = emitted entries k ++ pendingAt entries k := by
  have hall : pendingAt entries 0 = sortEntries entries :=
    List.filter_eq_self.mpr fun e _ => by simp
  obtain ⟨k, hk, hrun⟩ := @threadLoop_lags entries 0 hn ha (entries.length * 2 + 1) nofun
    (by omega)
  rw [hall] at hrun
  exact ⟨k, hk, hrun⟩

theorem lags_parent (ha : Acyclic entries) (hn : (entries.map EntryRef.oid).Nodup)
    (h : ParentIn entries p e) :
    lags entries e = lags entries p + if e.key < p.key then 1 else 0 :=
  lags_child ha h.2.1 (parentOf_eq hn h.1 h.2.2)

theorem ParentIn.ne (ha : Acyclic entries) (h : ParentIn entries p e) : p ≠ e := by
  rintro rfl
  exact ha p (.single h)

theorem emitted_pairwise : (emitted entries k).Pairwise fun a b =>
    lags entries a < lags entries b ∨ (lags entries a = lags entries b ∧ a.key ≤ b.key) := by
  induction k with
  | zero => exact List.Pairwise.nil
  | succ k ih =>
    rw [emitted_succ, List.pairwise_append]
    refine ⟨ih, ?_, fun a hmem b hb => ?_⟩
    · refine List.Pairwise.imp_of_mem (fun ha hb hab => .inr ⟨?_, hab⟩)
        (sortEntries_pairwise.filter _)
      have hlag : lags entries _ = k := of_decide_eq_true (List.mem_filter.mp ha).2
      exact hlag.trans (of_decide_eq_true (List.mem_filter.mp hb).2).symm
    · have hlag : lags entries b = k := of_decide_eq_true (List.mem_filter.mp hb).2
      exact .inl (hlag ▸ (mem_emitted.mp hmem).2)

theorem parentsFirst_emitted (hn : (entries.map EntryRef.oid).Nodup) (ha : Acyclic entries) :
    ParentsFirst (emitted entries k) := by
  intro pre e post heq p hp hpar
  have hmem : ∀ {x}, x ∈ emitted entries k → x ∈ entries := fun hx => (mem_emitted.mp hx).1
  have he : e ∈ emitted entries k := by simp [heq]
  have hlink : ParentIn entries p e := ⟨hmem hp, hmem he, hpar⟩
  have hlags := lags_parent ha hn hlink
  have hpw := @emitted_pairwise entries k
  rw [heq] at hp hpw
  rcases List.mem_append.mp hp with hpre | hpost
  · exact hpre
  rcases List.mem_cons.mp hpost with rfl | hpost
  · exact absurd rfl (hlink.ne ha)
  -- after its child, the parent has no fewer links up, so it does not sort later
  rcases (List.pairwise_cons.mp (List.pairwise_append.mp hpw).2.1).1 p hpost with hlt | ⟨heq', hle⟩
  · split_ifs at hlags <;> omega
  · have hsame : ¬ e.key < p.key := fun h => by
      rw [if_pos h] at hlags
      omega
    exact absurd (eq_of_key hn hlink.1 hlink.2.1 (le_antisymm (not_lt.mp hsame) hle))
      (hlink.ne ha)

theorem exists_late_parent (ha : Acyclic entries)
    (he : e ∈ entries) (hk : k < lags entries e) :
    ∃ p c, ParentIn entries p c ∧ c.key < p.key ∧ k ≤ lags entries p ∧ k ≤ lags entries c := by
  induction hcard : (ancestors entries e).card using Nat.strong_induction_on generalizing e with
  | _ n ih =>
    cases hp : parentOf entries e with
    | none =>
      rw [lags_root hp] at hk
      exact absurd hk (Nat.not_lt_zero k)
    | some p =>
      obtain ⟨hmem, hpar⟩ := parentOf_some hp
      have hlags := lags_child ha he hp
      split_ifs at hlags with hlater
      · exact ⟨p, e, ⟨hmem, he, hpar⟩, hlater, by omega, by omega⟩
      · have hlt := Finset.card_lt_card (ancestors_ssubset ha ⟨hmem, he, hpar⟩)
        exact ih _ (hcard ▸ hlt) hmem (by omega) rfl

theorem parentsFirst_iff (hn : (entries.map EntryRef.oid).Nodup) (ha : Acyclic entries)
    (heq : thread entries = emitted entries k ++ pendingAt entries k) :
    ParentsFirst (thread entries) ↔ ∀ e ∈ entries, lags entries e ≤ k := by
  constructor
  · intro hfirst e he
    by_contra hlt
    obtain ⟨p, c, hlink, hlater, hkp, hkc⟩ := exists_late_parent ha he (not_le.mp hlt)
    obtain ⟨u, v, huv⟩ := List.append_of_mem (mem_pendingAt.mpr ⟨hlink.2.1, hkc⟩)
    have hsplit : thread entries = (emitted entries k ++ u) ++ c :: v := by
      rw [heq, huv, List.append_assoc]
    have hp := hfirst _ c v hsplit p (thread_perm.mem_iff.mpr hlink.1) hlink.2.2
    rcases List.mem_append.mp hp with hp | hp
    · have := (mem_emitted.mp hp).2
      omega
    · have hpw : (pendingAt entries k).Pairwise fun a b => a.key ≤ b.key :=
        sortEntries_pairwise.filter _
      rw [huv] at hpw
      exact absurd hlater
        (not_lt_of_ge ((List.pairwise_append.mp hpw).2.2 p hp c List.mem_cons_self))
  · intro hle
    have hlast : pendingAt entries k = (sortEntries entries).filter fun e => lags entries e = k :=
      List.filter_congr fun e he => by
        have := hle e (sortEntries_perm.mem_iff.mp he)
        simp only [decide_eq_decide]
        omega
    rw [heq, hlast, ← emitted_succ]
    exact parentsFirst_emitted hn ha

/-- Where the loop stops, told by the entries. -/
theorem lags_le_iff (hk : StopsAt entries k) : (∀ e ∈ entries, lags entries e ≤ k) ↔
    ∀ e ∈ entries, ∀ j, lags entries e = j + 1 → j ≤ 2 * lagging entries j := by
  constructor
  · intro hle e he j hj
    have hgo := hk.ran j (by have := hle e he; omega)
    have := hgo.2
    rw [length_pendingAt] at this
    omega
  · intro hcond e he
    by_contra hlt
    obtain ⟨j, hj⟩ : ∃ j, lags entries e = j + 1 := ⟨lags entries e - 1, by omega⟩
    have hbound := hcond e he j hj
    have hanti : lagging entries j ≤ lagging entries k := lagging_anti (by omega)
    have hmem : e ∈ pendingAt entries k := mem_pendingAt.mpr ⟨he, by omega⟩
    refine hk.stopped ⟨List.ne_nil_of_mem hmem, ?_⟩
    rw [length_pendingAt]
    omega

/-- What a thread of a set of entries is to be. -/
structure CompleteOrder (entries : List EntryRef) : Prop where
  perm : (thread entries).Perm entries
  set : ∀ entries', entries.Perm entries' → thread entries' = thread entries
  parents : Acyclic entries → ParentsFirst (thread entries)

/-- A thread is a permutation that depends on the set only; when the parents are acyclic, it has
them before their children exactly when no entry waits longer than twice the entries that wait
nearly as long as itself. -/
theorem thread_order_iff (entries : List EntryRef) (hn : (entries.map EntryRef.oid).Nodup) :
    CompleteOrder entries ↔ (Acyclic entries →
      ∀ e ∈ entries, ∀ k, lags entries e = k + 1 → k ≤ 2 * lagging entries k) := by
  have hparents (ha : Acyclic entries) : ParentsFirst (thread entries) ↔
      ∀ e ∈ entries, ∀ k, lags entries e = k + 1 → k ≤ 2 * lagging entries k := by
    obtain ⟨k, hk, heq⟩ := thread_eq hn ha
    exact (parentsFirst_iff hn ha heq).trans (lags_le_iff hk)
  constructor
  · exact fun h ha => (hparents ha).mp (h.parents ha)
  · exact fun h => ⟨thread_perm, fun _ hperm => (thread_congr hn hperm).symm,
      fun ha => (hparents ha).mpr (h ha)⟩

def linkAt (oid : String) (ts : ℤ) (parent : String) : EntryRef :=
  ⟨oid, "ann", ⟨1, "comment", "n1", "ann", ts, parent, none, .object [], ""⟩⟩

theorem thread_order_reply : CompleteOrder [linkAt "b" 1 "a", linkAt "a" 2 ""] := by
  refine (thread_order_iff _ (by decide)).mpr fun _ e he k hk => ?_
  simp only [List.mem_cons, List.not_mem_nil, or_false] at he
  rcases he with rfl | rfl
  · have hlag : lags [linkAt "b" 1 "a", linkAt "a" 2 ""] (linkAt "b" 1 "a") = 1 := by decide
    obtain rfl : k = 0 := by omega
    exact Nat.zero_le _
  · have hlag : lags [linkAt "b" 1 "a", linkAt "a" 2 ""] (linkAt "a" 2 "") = 0 := by decide
    omega

/-- Replies stamped before what they reply to, seven in a row. -/
def backdated : List EntryRef :=
  [linkAt "g" 1 "f", linkAt "f" 2 "e", linkAt "e" 3 "d", linkAt "d" 4 "c", linkAt "c" 5 "b",
    linkAt "b" 6 "a", linkAt "a" 7 ""]

theorem thread_splits_backdated : (backdated.map EntryRef.oid).Nodup ∧ Acyclic backdated ∧
    thread backdated = [linkAt "a" 7 "", linkAt "b" 6 "a", linkAt "c" 5 "b", linkAt "d" 4 "c",
      linkAt "e" 3 "d", linkAt "g" 1 "f", linkAt "f" 2 "e"] ∧
    ¬ ParentsFirst (thread backdated) := by
  have hthread : thread backdated = [linkAt "a" 7 "", linkAt "b" 6 "a", linkAt "c" 5 "b",
      linkAt "d" 4 "c", linkAt "e" 3 "d", linkAt "g" 1 "f", linkAt "f" 2 "e"] := by rfl
  have hup : ∀ p ∈ backdated, ∀ e ∈ backdated, IsParent p e → e.entry.ts < p.entry.ts := by decide
  refine ⟨by decide, fun e hcycle => ?_, hthread, fun hfirst => ?_⟩
  · have hlt : ∀ p e, Relation.TransGen (ParentIn backdated) p e → e.entry.ts < p.entry.ts := by
      intro p e hpe
      induction hpe with
      | single h => exact hup _ h.1 _ h.2.1 h.2.2
      | tail _ h ih => exact (hup _ h.1 _ h.2.1 h.2.2).trans ih
    exact lt_irrefl _ (hlt e e hcycle)
  · have hmem := hfirst [linkAt "a" 7 "", linkAt "b" 6 "a", linkAt "c" 5 "b", linkAt "d" 4 "c",
      linkAt "e" 3 "d"] (linkAt "g" 1 "f") [linkAt "f" 2 "e"] hthread (linkAt "f" 2 "e")
      (by rw [hthread]; simp) (by decide)
    simp [linkAt] at hmem

end Order

end Walgit.Collab
