import Mathlib.Data.List.TakeWhile
import Walgit.Lib.Decimal
import Walgit.RetentionOrder

/-!
# A new bundle under retention

Retention decides a new bundle of an incremental strategy at one turn, that of
its strategy and of the group its token falls into. What is kept before that
turn is kept without the new bundle as well. So the list before the bundle is
added tells whether retention will leave it there.
-/

namespace Walgit.Bundles

/-- The id that both builders give. -/
def bundleId (strategy : String) (token : ℕ) : String := strategy ++ "-" ++ toString token

theorem bundleId_inj {s s' : String} {t t' : ℕ} (h : bundleId s t = bundleId s' t') :
    s = s' ∧ t = t' := by
  have hlist : s.toList ++ '-' :: (toString t).toList =
      s'.toList ++ '-' :: (toString t').toList := by
    simpa [bundleId] using congrArg String.toList h
  obtain ⟨hs, ht⟩ := Decimal.join_inj hlist Decimal.sign_not_mem Decimal.sign_not_mem
  exact ⟨String.toList_injective hs, Decimal.nat_text_inj ht⟩

/-- The ids are those that the builders give. -/
def Named (list : List BundleEntry) : Prop :=
  ∀ b ∈ list, b.id = bundleId b.strategy b.creationToken

section Turns

variable (cfg : BundlesConfig) (list : List BundleEntry) (s : BundleStrategy)

/-- The incremental strategies before `s`. -/
def earlier : BundlesConfig := (incrementals cfg).takeWhile fun u => u.name ≠ s.name

/-- The tokens between the groups. -/
def groupTokens : List ℕ := fullTokens list (keptFulls cfg list)

/-- The ids kept before the turn of `s`. -/
def keptBefore : List String :=
  (earlier cfg s).foldl (keepStrategy list (groupTokens cfg list)) (keptFulls cfg list)

/-- The ids kept before group `g` of `s`. -/
def keptAt (g : ℕ) : List String :=
  (List.range g).foldl (keepGroup list (groupTokens cfg list) s) (keptBefore cfg list s)

end Turns

section Room

variable (cfg : BundlesConfig) (list : List BundleEntry) (s : BundleStrategy) (slot : ℕ)
  (baseId : String)

/-- The group of a bundle that is still to be cut. -/
def slotGroup : ℕ :=
  let below := ((groupTokens cfg list).takeWhile fun t => t < slot).length
  if baseId = "" then below else below - 1

/-- The base is kept when the turn comes to group `g`. -/
def BaseKept (g : ℕ) (baseId : String) : Prop := baseId = "" ∨ baseId ∈ keptAt cfg list s g

instance {g : ℕ} : Decidable (BaseKept cfg list s g baseId) :=
  inferInstanceAs (Decidable (_ ∨ _))

/-- The bundles of `s` in group `g` that would push an older one out. -/
def newerKept (g : ℕ) : List BundleEntry :=
  (groupEntries list (groupTokens cfg list) s g).filter fun d =>
    BaseKept cfg list s g d.baseId ∧ slot < d.creationToken

/-- The links of group `g` before the slot. -/
def olderLinks (g : ℕ) : List BundleEntry :=
  (groupEntries list (groupTokens cfg list) s g).filter fun d => d.creationToken < slot

/-- The newest kept bundle of the base strategy in group `g`. -/
def newestBase (g : ℕ) : ℕ := baseNewest list (groupTokens cfg list) s (keptAt cfg list s g) g

/-- A chained bundle of the slot has its base among the kept ones, or is the first link of a kept
full. -/
def LinkRoom (g : ℕ) : Prop :=
  baseId = "" ∨
    baseId ∈ keepChain (newestBase cfg list s g) (g < (groupTokens cfg list).length) true
      (keptAt cfg list s g) (olderLinks cfg list s slot g) ∨
    g < (groupTokens cfg list).length ∧
      ∀ d ∈ olderLinks cfg list s slot g, d.creationToken ≤ newestBase cfg list s g

instance {g : ℕ} : Decidable (LinkRoom cfg list s slot baseId g) :=
  inferInstanceAs (Decidable (_ ∨ _))

/-- Retention of the list has room for a bundle of the slot on the base: unchained, the base is
kept and fewer than two newer bundles of the group are; chained, it has a place in the chain. -/
def Room : Prop :=
  let g := slotGroup cfg list slot baseId
  if s.chain then LinkRoom cfg list s slot baseId g
  else BaseKept cfg list s g baseId ∧ (newerKept cfg list s slot g).length < incrementalsKept

instance : Decidable (Room cfg list s slot baseId) := by
  unfold Room
  infer_instance

end Room

section Turn

variable {cfg : BundlesConfig} {list : List BundleEntry} {s u : BundleStrategy} {c d : BundleEntry}
  {g : ℕ} {x : String}

theorem exists_later (hn : (cfg.map BundleStrategy.name).Nodup) (hs : s ∈ cfg)
    (hkind : s.kind = .incremental) :
    ∃ later, incrementals cfg = earlier cfg s ++ s :: later ∧ ∀ u ∈ later, u.name ≠ s.name := by
  have hmem : s ∈ incrementals cfg := List.mem_filter.mpr ⟨hs, by simpa using hkind⟩
  obtain ⟨pre, post, hsplit⟩ := List.append_of_mem hmem
  have hnames : ((incrementals cfg).map BundleStrategy.name).Nodup :=
    hn.sublist (List.filter_sublist.map _)
  rw [hsplit, List.map_append, List.map_cons, List.nodup_append, List.nodup_cons] at hnames
  obtain ⟨-, ⟨hpost, -⟩, hpre⟩ := hnames
  have hearlier : earlier cfg s = pre := by
    rw [earlier, hsplit, List.takeWhile_append_of_pos, List.takeWhile_cons]
    · simp
    · intro u hu
      have hne := hpre u.name (List.mem_map_of_mem hu) s.name List.mem_cons_self
      simpa using hne
  exact ⟨post, by rw [hearlier, hsplit], fun u hu heq => hpost (heq ▸ List.mem_map_of_mem hu)⟩

theorem earlier_ne (h : u ∈ earlier cfg s) : u.name ≠ s.name := by
  simpa using List.mem_takeWhile_imp h

theorem groupOf_eq : groupOf (groupTokens cfg list) c =
    slotGroup cfg list c.creationToken c.baseId := rfl

theorem groupOf_le {tokens : List ℕ} : groupOf tokens c ≤ tokens.length := by
  have hle := (@List.takeWhile_sublist _ tokens fun t => decide (t < c.creationToken)).length_le
  simp only [groupOf]
  split_ifs <;> omega

theorem not_mem_groups {tokens : List ℕ} {keep : List String} (hx : x ∉ keep)
    (hown : ∀ d ∈ list, d.strategy = s.name → d.id = x → groupOf tokens d = g) {gs : List ℕ}
    (hgs : g ∉ gs) : x ∉ gs.foldl (keepGroup list tokens s) keep := by
  intro hmem
  rcases mem_foldl (fun _ _ _ hx => subset_keepGroup hx) hmem with hmem | hmem
  · exact hx hmem
  · obtain ⟨g', hg', mid, -, -, hnot, hmem⟩ := hmem
    obtain ⟨d, hid, hd⟩ := (mem_keepGroup hmem).resolve_left hnot
    obtain ⟨hlist, hstrategy, hgroup⟩ := mem_groupEntries.mp hd.mem
    exact hgs (hown d hlist hstrategy hid ▸ hgroup ▸ hg')

theorem not_mem_keptFulls (hn : (cfg.map BundleStrategy.name).Nodup) (hs : s ∈ cfg)
    (hkind : s.kind = .incremental) (hown : ∀ d ∈ list, d.id = x → d.strategy = s.name) :
    x ∉ keptFulls cfg list := by
  intro hx
  obtain ⟨F, hF, hfull, b, hb, hid⟩ := mem_keptFulls.mp hx
  obtain ⟨hlist, hname⟩ := mem_entriesOf.mp (List.mem_reverse.mp (List.mem_of_mem_take hb))
  rw [eq_of_name hn hF hs (hname.symm.trans (hown b hlist hid)), hkind] at hfull
  cases hfull

theorem not_mem_keptBefore (hn : (cfg.map BundleStrategy.name).Nodup) (hs : s ∈ cfg)
    (hkind : s.kind = .incremental) (hown : ∀ d ∈ list, d.id = x → d.strategy = s.name) :
    x ∉ keptBefore cfg list s := by
  intro hx
  rcases mem_strategies_run hx with hx | ⟨u, hu, d, hd, hname, hid⟩
  · exact not_mem_keptFulls hn hs hkind hown hx
  · exact earlier_ne hu (hname.symm.trans (hown d hd hid))

theorem range_split {m k : ℕ} : List.range (m + k + 1) =
    List.range m ++ m :: (List.range k).map (m + 1 + ·) := by
  rw [Nat.add_assoc, List.range_add, List.range_succ_eq_map, List.map_cons, List.map_map,
    Nat.add_zero]
  congr 2
  refine List.map_congr_left fun i _ => ?_
  simp only [Function.comp_apply]
  omega

theorem mem_keepIds_turn (hn : (cfg.map BundleStrategy.name).Nodup) (hs : s ∈ cfg)
    (hkind : s.kind = .incremental) (hname : c.strategy = s.name)
    (hone : ∀ d ∈ list, d.id = c.id → d = c) (hg : groupOf (groupTokens cfg list) c = g) :
    (c.id ∉ keptAt cfg list s g) ∧
      (c.id ∈ keepIds cfg list ↔
        c.id ∈ keepGroup list (groupTokens cfg list) s (keptAt cfg list s g) g) := by
  have hown : ∀ d ∈ list, d.id = c.id → d.strategy = s.name := fun d hd hid =>
    hone d hd hid ▸ hname
  have hgroup : ∀ d ∈ list, d.strategy = s.name → d.id = c.id →
      groupOf (groupTokens cfg list) d = g := fun d hd _ hid => hone d hd hid ▸ hg
  have hnot : c.id ∉ keptAt cfg list s g :=
    not_mem_groups (not_mem_keptBefore hn hs hkind hown) hgroup (by simp)
  refine ⟨hnot, ?_⟩
  obtain ⟨later, hturns, hlater⟩ := exists_later hn hs hkind
  have hle : g ≤ (groupTokens cfg list).length := hg ▸ groupOf_le
  obtain ⟨k, hk⟩ := Nat.exists_eq_add_of_le hle
  have hafter : g ∉ (List.range k).map (g + 1 + ·) := by
    simp only [List.mem_map, not_exists, not_and]
    omega
  rw [keepIds_eq, ← incrementals, hturns, List.foldl_append, List.foldl_cons]
  constructor
  · intro hmem
    rcases mem_strategies_run hmem with hmem | ⟨u, hu, d, hd, hdu, hid⟩
    · rw [keepStrategy, ← groupTokens, hk, range_split, List.foldl_append, List.foldl_cons] at hmem
      by_contra hno
      exact not_mem_groups hno hgroup hafter hmem
    · exact absurd (hdu.symm.trans (hown d hd hid)) (hlater u hu)
  · intro hmem
    refine subset_foldl (fun _ _ _ hx => subset_keepStrategy hx) ?_
    rw [keepStrategy, ← groupTokens, hk, range_split, List.foldl_append, List.foldl_cons]
    exact subset_foldl (fun _ _ _ hx => subset_keepGroup hx) hmem

end Turn

section Added

variable {cfg : BundlesConfig} {list : List BundleEntry} {s u : BundleStrategy}
  {e c d : BundleEntry} {g n : ℕ} {x : String} {keep : List String} {tokens : List ℕ}

/-- A bundle with an id of its own, of an incremental strategy. -/
structure New (cfg : BundlesConfig) (list : List BundleEntry) (s : BundleStrategy)
    (e : BundleEntry) : Prop where
  names : (cfg.map BundleStrategy.name).Nodup
  mem : s ∈ cfg
  kind : s.kind = .incremental
  strategy : e.strategy = s.name
  fresh : ∀ b ∈ list, b.id ≠ e.id

theorem New.ne (h : New cfg list s e) (hc : c ∈ list) : c ≠ e := fun heq => h.fresh c hc (heq ▸ rfl)

theorem New.eq (h : New cfg list s e) (hc : c ∈ list ++ [e]) (hid : c.id = e.id) : c = e := by
  rcases List.mem_append.mp hc with hc | hc
  · exact absurd hid (h.fresh c hc)
  · exact List.mem_singleton.mp hc

theorem New.filter (h : New cfg list s e) :
    ((list ++ [e]).filter fun b => b.id ∈ list.map BundleEntry.id) = list := by
  have hnew : e.id ∉ list.map BundleEntry.id := by
    intro hmem
    obtain ⟨b, hb, hid⟩ := List.mem_map.mp hmem
    exact h.fresh b hb hid
  rw [List.filter_append, List.filter_eq_self.mpr fun b hb => by
    simpa using ⟨b, hb, rfl⟩, List.filter_singleton]
  simp [hnew]

/-- The id of a bundle of the longer list is one of the list, unless it is the new one. -/
theorem New.old (hc : c ∈ list ++ [e]) (hne : c ≠ e) : c.id ∈ list.map BundleEntry.id := by
  rcases List.mem_append.mp hc with hc | hc
  · exact List.mem_map_of_mem hc
  · exact absurd (List.mem_singleton.mp hc) hne

theorem New.full_ne (h : New cfg list s e) {F : BundleStrategy} (hF : F ∈ cfg)
    (hfull : F.kind = .full) : e.strategy ≠ F.name := by
  intro heq
  rw [eq_of_name h.names hF h.mem (heq.symm.trans h.strategy), h.kind] at hfull
  cases hfull

theorem New.keptFulls_subset (h : New cfg list s e) :
    ∀ x ∈ keptFulls cfg (list ++ [e]), x ∈ list.map BundleEntry.id := by
  intro x hx
  obtain ⟨F, hF, hfull, b, hb, rfl⟩ := mem_keptFulls.mp hx
  obtain ⟨hlist, hname⟩ := mem_entriesOf.mp (List.mem_reverse.mp (List.mem_of_mem_take hb))
  exact New.old hlist fun heq => h.full_ne hF hfull (heq ▸ hname)

theorem New.keptFulls_eq (h : New cfg list s e) :
    keptFulls cfg (list ++ [e]) = keptFulls cfg list := by
  rw [← keptFulls_filter h.keptFulls_subset, h.filter]

theorem New.tokens_eq (h : New cfg list s e) :
    groupTokens cfg (list ++ [e]) = groupTokens cfg list := by
  rw [groupTokens, groupTokens, h.keptFulls_eq, ← fullTokens_filter fun x hx =>
    h.keptFulls_subset x (h.keptFulls_eq.symm ▸ hx), h.filter]

theorem New.keptBefore_subset (h : New cfg list s e) :
    ∀ x ∈ keptBefore cfg (list ++ [e]) s, x ∈ list.map BundleEntry.id := by
  intro x hx
  rcases mem_strategies_run hx with hx | ⟨u, hu, c, hc, hname, rfl⟩
  · exact h.keptFulls_subset x hx
  · exact New.old hc fun heq => earlier_ne hu (hname.symm.trans (heq ▸ h.strategy))

theorem New.keptBefore_eq (h : New cfg list s e) :
    keptBefore cfg (list ++ [e]) s = keptBefore cfg list s := by
  have hsub := h.keptBefore_subset
  rw [keptBefore, h.tokens_eq, h.keptFulls_eq] at hsub
  rw [keptBefore, keptBefore, h.tokens_eq, h.keptFulls_eq]
  refine (foldl_agree (fun _ _ _ hx => subset_keepStrategy hx) (fun keep u hx => ?_) hsub).symm
  have hstep := keepStrategy_filter hx
  rwa [h.filter] at hstep

theorem New.keptAt_subset (h : New cfg list s e) (hg : g ≤ groupOf (groupTokens cfg list) e) :
    ∀ x ∈ keptAt cfg (list ++ [e]) s g, x ∈ list.map BundleEntry.id := by
  intro x hx
  rcases mem_foldl (fun _ _ _ hx => subset_keepGroup hx) hx with hx | hx
  · exact h.keptBefore_subset x hx
  · obtain ⟨g', hg', mid, -, -, hnot, hx⟩ := hx
    obtain ⟨c, rfl, hc⟩ := (mem_keepGroup hx).resolve_left hnot
    obtain ⟨hlist, -, hgroup⟩ := mem_groupEntries.mp hc.mem
    refine New.old hlist fun heq => ?_
    have hlt := List.mem_range.mp hg'
    rw [heq, h.tokens_eq] at hgroup
    omega

theorem New.keptAt_eq (h : New cfg list s e) (hg : g ≤ groupOf (groupTokens cfg list) e) :
    keptAt cfg (list ++ [e]) s g = keptAt cfg list s g := by
  have hsub := h.keptAt_subset hg
  rw [keptAt, h.tokens_eq, h.keptBefore_eq] at hsub
  rw [keptAt, keptAt, h.tokens_eq, h.keptBefore_eq]
  refine (foldl_agree (fun _ _ _ hx => subset_keepGroup hx) (fun keep g hx => ?_) hsub).symm
  have hstep := keepGroup_filter hx
  rwa [h.filter] at hstep

theorem groupEntries_added {p : BundleEntry → Bool} (hp : p e = false) :
    (groupEntries (list ++ [e]) tokens s g).filter p = (groupEntries list tokens s g).filter p := by
  rw [← groupEntries_filter, ← groupEntries_filter, List.filter_append,
    List.filter_singleton, hp, Bool.cond_false, List.append_nil]

theorem New.baseNewest_eq (h : New cfg list s e)
    (hkeep : ∀ x ∈ keep, x ∈ list.map BundleEntry.id) :
    baseNewest (list ++ [e]) tokens s keep g = baseNewest list tokens s keep g := by
  rw [← baseNewest_filter hkeep, h.filter]

end Added

section Places

variable {list pre post bs : List BundleEntry} {c e : BundleEntry} {p : BundleEntry → Bool}
  {n : ℕ} {ok first : Bool} {keep : List String} {x : String}

theorem mem_take_append {α : Type} {a : α} {pre post : List α} (h : a ∉ pre) :
    a ∈ (pre ++ a :: post).take n ↔ pre.length < n := by
  rw [List.take_append, List.mem_append, or_iff_right fun hmem => h (List.mem_of_mem_take hmem)]
  rcases Nat.eq_zero_or_pos (n - pre.length) with hzero | hpos
  · rw [hzero, List.take_zero]
    exact iff_of_false nofun (by omega)
  · obtain ⟨k, hk⟩ := Nat.exists_eq_add_of_lt hpos
    rw [hk, Nat.zero_add, List.take_succ_cons]
    exact iff_of_true List.mem_cons_self (by omega)

/-- Of a list in token order, a bundle is among the newest that pass a test when fewer of them
are newer. -/
theorem mem_newest (hsorted : list.Pairwise fun a b => a.creationToken ≤ b.creationToken)
    (hc : c ∈ list) (hone : ∀ d ∈ list, d.creationToken = c.creationToken → d = c) :
    c ∈ (list.reverse.filter p).take n ↔ p c = true ∧
      (list.filter fun d => p d ∧ c.creationToken < d.creationToken).length < n := by
  obtain ⟨after, before, hsplit, hnot⟩ := List.eq_append_cons_of_mem (List.mem_reverse.mpr hc)
  have hdesc := List.pairwise_reverse.mpr hsorted
  rw [hsplit] at hdesc
  obtain ⟨-, hbefore, hafter⟩ := List.pairwise_append.mp hdesc
  have hnewer : ∀ d ∈ after, c.creationToken < d.creationToken := by
    intro d hd
    have hmem : d ∈ list := List.mem_reverse.mp (hsplit ▸ List.mem_append_left _ hd)
    refine lt_of_le_of_ne (hafter d hd c List.mem_cons_self) fun heq => hnot ?_
    exact hone d hmem heq.symm ▸ hd
  have holder : ∀ d ∈ c :: before, ¬ c.creationToken < d.creationToken := by
    intro d hd
    rcases List.mem_cons.mp hd with rfl | hd
    · exact lt_irrefl _
    · exact not_lt.mpr ((List.pairwise_cons.mp hbefore).1 d hd)
  have hnone : ((c :: before).filter fun d => p d ∧ c.creationToken < d.creationToken) = [] :=
    List.filter_eq_nil_iff.mpr fun d hd => by simp [not_lt.mp (holder d hd)]
  have hall : (after.filter fun d => p d ∧ c.creationToken < d.creationToken) = after.filter p :=
    List.filter_congr fun d hd => by simp [hnewer d hd]
  have hcount : (list.filter fun d => p d ∧ c.creationToken < d.creationToken).length =
      (after.filter p).length := by
    rw [← List.length_reverse, ← List.filter_reverse, hsplit, List.filter_append, hnone, hall,
      List.append_nil]
  rw [hcount, hsplit, List.filter_append, List.filter_cons]
  cases hp : p c with
  | true =>
    rw [if_pos rfl, mem_take_append fun hmem => hnot (List.mem_filter.mp hmem).1]
    simp
  | false =>
    refine iff_of_false (fun hmem => ?_) (by simp)
    rcases List.mem_append.mp (List.mem_of_mem_take hmem) with hmem | hmem
    · exact hnot (List.mem_filter.mp hmem).1
    · simp only [Bool.false_eq_true, if_false, List.mem_filter] at hmem
      rw [hp] at hmem
      cases hmem.2

theorem keepChain_append : keepChain n ok first keep (pre ++ post) =
    keepChain n ok (first && pre.all fun d => d.creationToken ≤ n)
      (keepChain n ok first keep pre) post := by
  induction pre generalizing first keep with
  | nil => simp [keepChain]
  | cons b pre ih =>
    rw [List.cons_append, keepChain, keepChain]
    split_ifs with hle hanchor
    · simp [ih, hle]
    · simp [ih, hle]
    · simp [ih, hle]

theorem mem_keepChain_cons (hkeep : e.id ∉ keep) (hbs : ∀ d ∈ bs, d.id ≠ e.id) :
    e.id ∈ keepChain n ok first keep (e :: bs) ↔ n < e.creationToken ∧
      (e.baseId = "" ∨ e.baseId ∈ keep ∨ first = true ∧ ok = true) := by
  have hrest : ∀ {first : Bool}, e.id ∉ keepChain n ok first keep bs := by
    intro first hmem
    rcases mem_keepChain hmem with hmem | ⟨pre, d, post, rfl, hid, -⟩
    · exact hkeep hmem
    · exact hbs d List.mem_append_cons_self hid
  rw [keepChain]
  split_ifs with hle hanchor
  · exact iff_of_false hrest fun h => by omega
  · exact iff_of_true (subset_keepChain List.mem_cons_self) ⟨by omega, hanchor⟩
  · exact iff_of_false hrest fun h => hanchor h.2

end Places

section Survives

variable {cfg : BundlesConfig} {list : List BundleEntry} {s : BundleStrategy} {e d : BundleEntry}
  {g : ℕ}

/-- A new bundle of a slot without one; chained, it is newer than the bundles of the base
strategy. -/
structure Planned (cfg : BundlesConfig) (list : List BundleEntry) (s : BundleStrategy)
    (e : BundleEntry) : Prop extends New cfg list s e where
  unbuilt : ∀ b ∈ list, b.strategy = s.name → b.creationToken ≠ e.creationToken
  after : s.chain = true → ∀ b ∈ list, s.base = some b.strategy → b.creationToken < e.creationToken
  positive : 0 < e.creationToken

theorem Planned.own (h : Planned cfg list s e) {tokens : List ℕ} :
    e ∈ groupEntries (list ++ [e]) tokens s (groupOf tokens e) :=
  mem_groupEntries.mpr ⟨by simp, h.strategy, rfl⟩

theorem Planned.eq_of_token (h : Planned cfg list s e) {tokens : List ℕ}
    (hd : d ∈ groupEntries (list ++ [e]) tokens s g) (htoken : d.creationToken = e.creationToken) :
    d = e := by
  obtain ⟨hmem, hname, -⟩ := mem_groupEntries.mp hd
  rcases List.mem_append.mp hmem with hmem | hmem
  · exact absurd htoken (h.unbuilt d hmem hname)
  · exact List.mem_singleton.mp hmem

theorem groupEntries_sorted {tokens : List ℕ} :
    (groupEntries list tokens s g).Pairwise fun a b => a.creationToken ≤ b.creationToken :=
  List.Pairwise.filter _ entriesOf_sorted

theorem count_groupEntries_le {tokens : List ℕ} :
    (groupEntries list tokens s g).count d ≤ list.count d := by
  refine (List.filter_sublist.count_le d).trans ?_
  rw [entriesOf, (List.perm_insertionSort _ _).count_eq]
  exact List.filter_sublist.count_le d

theorem Planned.mem_chosen (h : Planned cfg list s e) :
    e ∈ chosen (list ++ [e]) (groupTokens cfg list) s
        (keptAt cfg list s (groupOf (groupTokens cfg list) e)) (groupOf (groupTokens cfg list) e) ↔
      BaseKept cfg list s (groupOf (groupTokens cfg list) e) e.baseId ∧
        (newerKept cfg list s e.creationToken (groupOf (groupTokens cfg list) e)).length <
          incrementalsKept := by
  rw [chosen, mem_newest groupEntries_sorted h.own fun d hd => h.eq_of_token hd,
    groupEntries_added (by simp), decide_eq_true_eq, newerKept]
  refine and_congr_right' (iff_of_eq ?_)
  congr 2
  exact List.filter_congr fun d _ => decide_eq_decide.mpr (and_congr_left' decide_eq_true_iff)

theorem Planned.split (h : Planned cfg list s e) {tokens : List ℕ} :
    ∃ post, groupEntries (list ++ [e]) tokens s (groupOf tokens e) =
        ((groupEntries list tokens s (groupOf tokens e)).filter fun d =>
          d.creationToken < e.creationToken) ++ e :: post ∧ ∀ d ∈ post, d.id ≠ e.id := by
  obtain ⟨pre, post, hsplit, hnot⟩ := List.eq_append_cons_of_mem (@Planned.own _ _ _ _ h tokens)
  have hsorted := @groupEntries_sorted (list ++ [e]) s (groupOf tokens e) tokens
  rw [hsplit] at hsorted
  obtain ⟨-, hpost, hpre⟩ := List.pairwise_append.mp hsorted
  have hown : ∀ d ∈ pre ++ e :: post, d.creationToken = e.creationToken → d = e := fun d hd =>
    h.eq_of_token (hsplit ▸ hd)
  have holder : ∀ d ∈ pre, d.creationToken < e.creationToken := by
    intro d hd
    refine lt_of_le_of_ne (hpre d hd e List.mem_cons_self) fun heq => hnot ?_
    exact hown d (List.mem_append_left _ hd) heq ▸ hd
  have hnewer : ∀ d ∈ e :: post, ¬ d.creationToken < e.creationToken := by
    intro d hd
    rcases List.mem_cons.mp hd with rfl | hd
    · exact lt_irrefl _
    · exact not_lt.mpr ((List.pairwise_cons.mp hpost).1 d hd)
  have hpreEq : pre = (groupEntries list tokens s (groupOf tokens e)).filter fun d =>
      d.creationToken < e.creationToken := by
    rw [← groupEntries_added (e := e) (by simp), hsplit, List.filter_append,
      List.filter_eq_self.mpr fun d hd => by simpa using holder d hd,
      List.filter_eq_nil_iff.mpr fun d hd => by simpa using hnewer d hd, List.append_nil]
  refine ⟨post, by rw [hsplit, hpreEq], fun d hd hid => ?_⟩
  have hmem : d ∈ groupEntries (list ++ [e]) tokens s (groupOf tokens e) :=
    hsplit ▸ List.mem_append_right _ (List.mem_cons_of_mem e hd)
  obtain rfl := h.eq (mem_groupEntries.mp hmem).1 hid
  -- the new bundle is in the list once
  have hcount := @count_groupEntries_le (list ++ [d]) s d (groupOf tokens d) tokens
  rw [hsplit, List.count_append, List.count_cons_self, List.count_append,
    List.count_eq_zero.mpr fun hmem => h.ne hmem rfl] at hcount
  have hpos := List.count_pos_iff.mpr hd
  simp only [List.count_singleton_self] at hcount
  omega

theorem Planned.split_old (h : Planned cfg list s e) {tokens : List ℕ} {post : List BundleEntry}
    (hsplit : groupEntries (list ++ [e]) tokens s (groupOf tokens e) =
      ((groupEntries list tokens s (groupOf tokens e)).filter fun d =>
        d.creationToken < e.creationToken) ++ e :: post) (hpost : ∀ d ∈ post, d.id ≠ e.id) :
    groupEntries list tokens s (groupOf tokens e) =
      ((groupEntries list tokens s (groupOf tokens e)).filter fun d =>
        d.creationToken < e.creationToken) ++ post := by
  have hfresh : ∀ d ∈ groupEntries list tokens s (groupOf tokens e), d.id ≠ e.id := fun d hd =>
    h.fresh d (mem_groupEntries.mp hd).1
  have hkeep : ∀ {l : List BundleEntry}, (∀ d ∈ l, d.id ≠ e.id) →
      (l.filter fun d => d.id ≠ e.id) = l := fun hl =>
    List.filter_eq_self.mpr fun d hd => decide_eq_true (hl d hd)
  have hold := congrArg (List.filter fun d => d.id ≠ e.id) hsplit
  rwa [groupEntries_added (by simp), hkeep hfresh, List.filter_append,
    hkeep fun d hd => hfresh d (List.mem_filter.mp hd).1, List.filter_cons_of_neg (by simp),
    hkeep hpost] at hold

theorem Planned.newestBase_lt (h : Planned cfg list s e) (hc : s.chain = true) :
    newestBase cfg list s g < e.creationToken := by
  rcases Nat.eq_zero_or_pos (newestBase cfg list s g) with hzero | hpos
  · rw [hzero]
    exact h.positive
  · obtain ⟨b, hb, hbase, -, -, htoken⟩ := baseNewest_spec hpos
    rw [newestBase, ← htoken]
    exact h.after hc b hb hbase

theorem Planned.survives_iff (h : Planned cfg list s e) :
    e ∈ retain cfg (list ++ [e]) ↔ Room cfg list s e.creationToken e.baseId := by
  have htokens := h.tokens_eq
  obtain ⟨hnot, hturn⟩ := @mem_keepIds_turn cfg (list ++ [e]) s e
    (groupOf (groupTokens cfg list) e) h.names h.mem h.kind h.strategy (fun d hd hid => h.eq hd hid)
    (by rw [htokens])
  rw [h.keptAt_eq le_rfl] at hnot hturn
  rw [htokens] at hturn
  rw [mem_retain, and_iff_right (by simp), hturn, Room, ← groupOf_eq]
  cases hc : s.chain with
  | false =>
    rw [keepGroup_unchained hc, List.mem_append, or_iff_left hnot, if_neg (by simp), ← h.mem_chosen]
    refine ⟨fun hmem => ?_, List.mem_map_of_mem⟩
    obtain ⟨d, hd, hid⟩ := List.mem_map.mp hmem
    have hlist := mem_groupEntries.mp (List.mem_reverse.mp
      (List.mem_filter.mp (List.mem_of_mem_take hd)).1)
    exact h.eq hlist.1 hid ▸ hd
  | true =>
    obtain ⟨post, hsplit, hpost⟩ := @Planned.split _ _ _ _ h (groupTokens cfg list)
    have hsub := h.keptAt_subset (le_refl (groupOf (groupTokens cfg list) e))
    rw [h.keptAt_eq le_rfl] at hsub
    rw [keepGroup_chained hc, h.baseNewest_eq hsub, hsplit, keepChain_append,
      mem_keepChain_cons _ hpost, if_pos rfl, ← newestBase, and_iff_right (h.newestBase_lt hc)]
    · refine or_congr_right (or_congr_right ?_)
      rw [Bool.true_and, List.all_eq_true, decide_eq_true_eq, and_comm]
      exact and_congr_right' (forall₂_congr fun d _ => decide_eq_true_iff)
    · intro hmem
      rcases mem_keepChain hmem with hmem | ⟨pre, d, post', heq, hid, -⟩
      · exact hnot hmem
      · have hd : d ∈ groupEntries list (groupTokens cfg list) s
            (groupOf (groupTokens cfg list) e) :=
          (List.mem_filter.mp (heq ▸ List.mem_append_cons_self)).1
        exact h.fresh d (mem_groupEntries.mp hd).1 hid

theorem full_survives (hs : s ∈ cfg) (hfull : s.kind = .full) (hname : e.strategy = s.name)
    (hnewest : ∀ b ∈ list, b.strategy = s.name → b.creationToken < e.creationToken) :
    e ∈ retain cfg (list ++ [e]) := by
  have hlt : ∀ d ∈ entriesOf (list ++ [e]) s.name, d = e ∨ d.creationToken < e.creationToken := by
    intro d hd
    obtain ⟨hmem, hstrategy⟩ := mem_entriesOf.mp hd
    rcases List.mem_append.mp hmem with hmem | hmem
    · exact .inr (hnewest d hmem hstrategy)
    · exact .inl (List.mem_singleton.mp hmem)
  have hmem : e ∈ entriesOf (list ++ [e]) s.name := mem_entriesOf.mpr ⟨by simp, hname⟩
  have htop : e ∈ ((entriesOf (list ++ [e]) s.name).reverse.filter fun _ => true).take
      (max s.keep 1) := by
    refine (mem_newest entriesOf_sorted hmem fun d hd heq => ?_).mpr ⟨rfl, ?_⟩
    · exact (hlt d hd).resolve_right (by omega)
    · rw [List.filter_eq_nil_iff.mpr fun d hd => ?_]
      · simp
      · rcases hlt d hd with rfl | hlt
        · simp
        · simp only [decide_eq_true_eq]
          omega
  rw [List.filter_eq_self.mpr fun _ _ => rfl] at htop
  exact mem_retain.mpr ⟨by simp, keptFulls_subset (mem_keptFulls.mpr ⟨s, hs, hfull, e, htop, rfl⟩)⟩

end Survives

end Walgit.Bundles
