import Walgit.Displaced
import Walgit.Planning

/-!
# When the list has room for a planned bundle

When every strategy is listed after its base, the bundles up the chain are kept
before the turn of a strategy comes. A list that retention leaves as it is then
has room for every chained bundle the planner wants, and for an unchained one
as long as the group of its slot holds fewer than two newer bundles.
-/

namespace Walgit.Bundles

section BaseFirst

variable {cfg : BundlesConfig} {list : List BundleEntry} {s u v : BundleStrategy} {n g : ℕ}
  {base x : String} {l : List String} {b c d e : BundleEntry}

/-- An incremental strategy is listed after its base. -/
def BaseFirst (cfg : BundlesConfig) : Prop :=
  ∀ s ∈ incrementals cfg, ∀ u ∈ incrementals cfg, s.base = some u.name → u ∈ earlier cfg s

instance : Decidable (BaseFirst cfg) := inferInstanceAs (Decidable (∀ s ∈ _, ∀ u ∈ _, _ → _ ∈ _))

theorem takeWhile_trans {α : Type} {p q : α → Bool} {a b : α} {l : List α}
    (ha : a ∈ l.takeWhile p) (hb : b ∈ l.takeWhile q) (hq : q a = false) : b ∈ l.takeWhile p := by
  induction l with
  | nil => cases ha
  | cons c l ih =>
    rw [List.takeWhile_cons] at ha hb ⊢
    split_ifs at ha hb ⊢ with hp hqc
    · rcases List.mem_cons.mp ha with rfl | ha
      · rw [hq] at hqc
        cases hqc
      · rcases List.mem_cons.mp hb with rfl | hb
        · exact List.mem_cons_self
        · exact List.mem_cons_of_mem c (ih ha hb)
    · cases hb
    · cases ha
    · cases ha

theorem earlier_trans (hu : u ∈ earlier cfg s) (hv : v ∈ earlier cfg u) : v ∈ earlier cfg s :=
  takeWhile_trans hu hv (by simp)

theorem mem_incrementals : s ∈ incrementals cfg ↔ s ∈ cfg ∧ s.kind = .incremental := by
  simp [incrementals]

theorem chain_strategy (h : Admitted cfg) (hfirst : BaseFirst cfg) (hs : s ∈ incrementals cfg)
    (hbase : s.base = some base) (hl : chainUp cfg n base = some l) (hx : x ∈ l) :
    ∃ u ∈ cfg, u.name = x ∧ (u.kind = .full ∨ u ∈ earlier cfg s) := by
  induction n generalizing s base l with
  | zero => cases hl
  | succ n ih =>
    obtain ⟨hmem, hkind⟩ := mem_incrementals.mp hs
    obtain ⟨u, hu, hsu, -⟩ := (h.incremental s hmem hkind).2
    obtain rfl : base = u.name := Option.some.inj (hbase.symm.trans hsu)
    have hhead : u.kind = .full ∨ u ∈ earlier cfg s := by
      cases hukind : u.kind with
      | full => exact .inl rfl
      | incremental => exact .inr (hfirst s hs u (mem_incrementals.mpr ⟨hu, hukind⟩) hsu)
    rcases chainUp_cases hl with ⟨rfl, -⟩ | ⟨next, rest, hnext, hrest, rfl⟩
    · exact ⟨u, hu, (List.mem_singleton.mp hx).symm, hhead⟩
    · rcases List.mem_cons.mp hx with rfl | hx
      · exact ⟨u, hu, rfl, hhead⟩
      · rw [baseName_of_mem h.names hu] at hnext
        have hearlier : u ∈ earlier cfg s := by
          refine hhead.resolve_left fun hfull => ?_
          rw [(h.full u hu hfull).1] at hnext
          cases hnext
        have hinc : u ∈ incrementals cfg := List.takeWhile_subset _ hearlier
        obtain ⟨v, hv, hname, hend⟩ := ih hinc hnext hrest hx
        exact ⟨v, hv, hname, hend.imp_right (earlier_trans hearlier)⟩

theorem subset_keptAt (hx : x ∈ keptBefore cfg list s) : x ∈ keptAt cfg list s g :=
  subset_foldl (fun _ _ _ hx => subset_keepGroup hx) hx

theorem keptFulls_subset_keptBefore (hx : x ∈ keptFulls cfg list) : x ∈ keptBefore cfg list s :=
  subset_foldl (fun _ _ _ hx => subset_keepStrategy hx) hx

theorem keepGroup_subset_keptAt {m : ℕ} (h : m < g)
    (hx : x ∈ keepGroup list (groupTokens cfg list) s (keptAt cfg list s m) m) :
    x ∈ keptAt cfg list s g := by
  obtain ⟨k, rfl⟩ := Nat.exists_eq_add_of_lt h
  rw [keptAt, range_split, List.foldl_append, List.foldl_cons]
  exact subset_foldl (fun _ _ _ hx => subset_keepGroup hx) hx

theorem Settled.chain_kept (h : Settled cfg list) (hadmitted : Admitted cfg)
    (hfirst : BaseFirst cfg) (hs : s ∈ incrementals cfg) (hbase : s.base = some base)
    {slot : ℕ} (hb : baseForSlotChain cfg list slot (cfg.length + 1) base = some b) :
    b.id ∈ keptBefore cfg list s := by
  obtain ⟨hmem, hkind⟩ := mem_incrementals.mp hs
  have hlist := baseForSlotChain_mem hb
  obtain ⟨l, hl, hx⟩ := baseForSlotChain_strategy hadmitted hb
  obtain ⟨u, hu, hname, hfull | hearlier⟩ := chain_strategy hadmitted hfirst hs hbase hl hx
  · obtain ⟨d, hd, hid⟩ := h.full hlist hu hfull hname.symm
    exact keptFulls_subset_keptBefore (mem_keptFulls.mpr ⟨u, hu, hfull, d, hd, hid⟩)
  · exact h.earlier_kept hmem hkind hlist hearlier hname.symm

/-- The bundles of the strategy in the group of the slot that are newer than it. -/
def newerInGroup (cfg : BundlesConfig) (list : List BundleEntry) (s : BundleStrategy) (slot : ℕ)
    (baseId : String) : List BundleEntry :=
  (groupEntries list (groupTokens cfg list) s (slotGroup cfg list slot baseId)).filter fun d =>
    slot < d.creationToken

/-- Every incremental names its base. -/
def Based (cfg : BundlesConfig) (list : List BundleEntry) : Prop :=
  ∀ s ∈ incrementals cfg, ∀ b ∈ list, b.strategy = s.name → b.baseId ≠ ""

theorem bundleId_ne {strategy : String} {token : ℕ} : bundleId strategy token ≠ "" := by
  intro h
  have hlist := congrArg String.toList h
  simp [bundleId] at hlist

theorem Settled.room_unchained (h : Settled cfg list) (hs : s ∈ incrementals cfg)
    (hc : s.chain = false) {slot : ℕ} (hb : b.id ∈ keptBefore cfg list s) :
    Room cfg list s slot b.id ↔
      (newerInGroup cfg list s slot b.id).length < incrementalsKept := by
  obtain ⟨hmem, hkind⟩ := mem_incrementals.mp hs
  have hsame : newerKept cfg list s slot (slotGroup cfg list slot b.id) =
      newerInGroup cfg list s slot b.id := by
    refine List.filter_congr fun d hd => decide_eq_decide.mpr (and_iff_right ?_)
    exact of_decide_eq_true
      (List.mem_filter.mp (List.mem_of_mem_take (h.mem_chosen hmem hkind hc hd))).2
  simp only [Room, hc, Bool.false_eq_true, if_false, hsame]
  exact and_iff_right (.inr (subset_keptAt hb))

theorem Settled.room_chained (h : Settled cfg list) (hbased : Based cfg list)
    (he : Planned cfg list s e) (hc : s.chain = true) (hbase : e.baseId = b.id)
    (hb : b.id ∈ keptBefore cfg list s ∨
      b ∈ list ∧ b.strategy = s.name ∧ b.creationToken < e.creationToken) :
    Room cfg list s e.creationToken e.baseId := by
  simp only [Room, hc, if_true]
  refine .inr (.inl ?_)
  rw [hbase]
  rcases hb with hb | ⟨hlist, hname, holder⟩
  · exact subset_keepChain (subset_keptAt hb)
  · have hinc : s ∈ incrementals cfg := mem_incrementals.mpr ⟨he.mem, he.kind⟩
    have hne : e.baseId ≠ "" := by
      rw [hbase, h.named b hlist]
      exact bundleId_ne
    have hg : groupOf (groupTokens cfg list) e = slotGroup cfg list e.creationToken b.id := by
      rw [groupOf_eq, hbase]
    have hle := @groupOf_mono _ _ (groupTokens cfg list) (hbased s hinc b hlist hname) hne holder.le
    rw [hg] at hle
    rcases hle.lt_or_eq with hlt | heq
    · have hturn := (mem_keepIds_turn h.names he.mem he.kind hname
        (fun c hc hid => h.one he.mem he.kind hlist hname hc hid) rfl).2
      exact subset_keepChain (keepGroup_subset_keptAt hlt (hturn.mp (h.kept b hlist)))
    · exact h.link_kept he hc hlist hname holder heq hg

/-- A settled list has room for every chained bundle on the base that the planner names, and for an
unchained one when fewer than two newer bundles stand in its group. -/
theorem Settled.room_iff (h : Settled cfg list) (hadmitted : Admitted cfg) (hfirst : BaseFirst cfg)
    (hbased : Based cfg list) (he : Planned cfg list s e)
    (hb : baseForIncremental cfg list s e.creationToken = some b) (hbase : e.baseId = b.id) :
    Room cfg list s e.creationToken e.baseId ↔ (s.chain = false →
      (newerInGroup cfg list s e.creationToken e.baseId).length < incrementalsKept) := by
  have hinc : s ∈ incrementals cfg := mem_incrementals.mpr ⟨he.mem, he.kind⟩
  have hkept : (b.id ∈ keptBefore cfg list s) ∨
      s.chain = true ∧ b ∈ list ∧ b.strategy = s.name ∧ b.creationToken < e.creationToken := by
    rcases baseForIncremental_cases hb with ⟨base, hsbase, hfound⟩ | hown
    · exact .inl (h.chain_kept hadmitted hfirst hinc hsbase hfound)
    · exact .inr hown
  cases hc : s.chain with
  | false =>
    rw [hbase, h.room_unchained hinc hc (hkept.resolve_right (by simp [hc]))]
    simp
  | true =>
    exact iff_of_true (h.room_chained hbased he hc hbase (hkept.imp_right fun hown => hown.2)) nofun

end BaseFirst

end Walgit.Bundles
