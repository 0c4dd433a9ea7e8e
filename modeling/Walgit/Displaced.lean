import Mathlib.Data.List.Pairwise
import Walgit.Survival

/-!
# What a new bundle displaces

In a list that retention leaves as it is, a new bundle pushes nothing out that
is decided before it: neither a bundle of a strategy of an earlier turn, nor an
older link of a chained strategy, nor a newer bundle of an unchained one. The
last is so for a bundle whose base is of another strategy.
-/

namespace Walgit.Bundles

section Settled

variable {cfg : BundlesConfig} {list : List BundleEntry} {s u F : BundleStrategy}
  {b c d e : BundleEntry} {g : ℕ} {x : String}

/-- Bundles under the ids that the builders give, one for a token of an incremental strategy. -/
structure WellFormed (cfg : BundlesConfig) (list : List BundleEntry) : Prop where
  named : Named list
  distinct : ∀ s ∈ cfg, s.kind = .incremental → Distinct (list.filter fun b => b.strategy = s.name)

/-- Retention leaves the list as it is. -/
structure Settled (cfg : BundlesConfig) (list : List BundleEntry) : Prop
    extends WellFormed cfg list where
  names : (cfg.map BundleStrategy.name).Nodup
  kept : ∀ b ∈ list, b.id ∈ keepIds cfg list

theorem WellFormed.strategy (h : WellFormed cfg list) (hb : b ∈ list) (hc : c ∈ list)
    (hid : b.id = c.id) : b.strategy = c.strategy := by
  rw [h.named b hb, h.named c hc] at hid
  exact (bundleId_inj hid).1

theorem WellFormed.one (h : WellFormed cfg list) (hs : s ∈ cfg) (hkind : s.kind = .incremental)
    (hb : b ∈ list) (hname : b.strategy = s.name) (hc : c ∈ list) (hid : c.id = b.id) : c = b := by
  by_contra hne
  have hsymm : Std.Symm fun b c : BundleEntry =>
      ¬ (b.strategy = c.strategy ∧ b.creationToken = c.creationToken) :=
    ⟨fun b c hbc hcb => hbc ⟨hcb.1.symm, hcb.2.symm⟩⟩
  have hname' : c.strategy = s.name := (h.strategy hc hb hid).trans hname
  rw [h.named c hc, h.named b hb] at hid
  have hcmem : c ∈ list.filter fun b => b.strategy = s.name :=
    List.mem_filter.mpr ⟨hc, by simpa using hname'⟩
  have hbmem : b ∈ list.filter fun b => b.strategy = s.name :=
    List.mem_filter.mpr ⟨hb, by simpa using hname⟩
  exact List.Pairwise.forall (h.distinct s hs hkind) hcmem hbmem hne (bundleId_inj hid)

theorem WellFormed.one_added (h : WellFormed cfg list) (he : New cfg list u e) (hs : s ∈ cfg)
    (hkind : s.kind = .incremental) (hc : c ∈ list) (hname : c.strategy = s.name)
    (hd : d ∈ list ++ [e]) (hid : d.id = c.id) : d = c := by
  rcases List.mem_append.mp hd with hd | hd
  · exact h.one hs hkind hc hname hd hid
  · exact absurd ((List.mem_singleton.mp hd) ▸ hid).symm (he.fresh c hc)

theorem Settled.full (h : Settled cfg list) (hc : c ∈ list) (hF : F ∈ cfg) (hfull : F.kind = .full)
    (hname : c.strategy = F.name) :
    ∃ d ∈ (entriesOf list F.name).reverse.take (max F.keep 1), d.id = c.id := by
  rcases mem_keepIds (h.kept c hc) with hx | ⟨s, hs, hkind, keep, g, d, hid, -, -, hd⟩
  · obtain ⟨F', hF', -, d, hd, hid⟩ := mem_keptFulls.mp hx
    obtain ⟨hlist, hname'⟩ := mem_entriesOf.mp (List.mem_reverse.mp (List.mem_of_mem_take hd))
    have hstrategy := h.strategy hlist hc hid
    rw [eq_of_name h.names hF hF' (hname.symm.trans (hstrategy.symm.trans hname'))]
    exact ⟨d, hd, hid⟩
  · obtain ⟨hlist, hname', -⟩ := mem_groupEntries.mp hd.mem
    have hstrategy := h.strategy hlist hc hid
    rw [eq_of_name h.names hF hs (hname.symm.trans (hstrategy.symm.trans hname')), hkind] at hfull
    cases hfull

theorem Settled.full_mem (h : Settled cfg list) (hc : c ∈ list) (hF : F ∈ cfg)
    (hfull : F.kind = .full) (hname : c.strategy = F.name) (hne : e.strategy ≠ F.name) :
    c.id ∈ keepIds cfg (list ++ [e]) := by
  have hsame : entriesOf (list ++ [e]) F.name = entriesOf list F.name := by
    rw [entriesOf, entriesOf, List.filter_append, List.filter_singleton]
    simp [hne]
  obtain ⟨d, hd, hid⟩ := h.full hc hF hfull hname
  exact keptFulls_subset (mem_keptFulls.mpr ⟨F, hF, hfull, d, hsame.symm ▸ hd, hid⟩)

theorem keptBefore_subset_keepIds (hn : (cfg.map BundleStrategy.name).Nodup) (hs : s ∈ cfg)
    (hkind : s.kind = .incremental) (hx : x ∈ keptBefore cfg list s) : x ∈ keepIds cfg list := by
  obtain ⟨later, hturns, -⟩ := exists_later hn hs hkind
  rw [keepIds_eq, ← incrementals, hturns, List.foldl_append]
  exact subset_foldl (fun _ _ _ hx => subset_keepStrategy hx) hx

theorem Settled.earlier_kept (h : Settled cfg list) (hs : s ∈ cfg) (hkind : s.kind = .incremental)
    (hc : c ∈ list) (hu : u ∈ earlier cfg s) (hname : c.strategy = u.name) :
    c.id ∈ keptBefore cfg list s := by
  obtain ⟨later, hturns, -⟩ := exists_later h.names hs hkind
  have hnames : ((incrementals cfg).map BundleStrategy.name).Nodup :=
    h.names.sublist (List.filter_sublist.map _)
  rw [hturns, List.map_append, List.nodup_append] at hnames
  have hkept := h.kept c hc
  rw [keepIds_eq, ← incrementals, hturns, List.foldl_append] at hkept
  rcases mem_strategies_run hkept with hx | ⟨v, hv, d, hd, hdv, hid⟩
  · exact hx
  · have hstrategy := h.strategy hd hc hid
    exact absurd (hname.symm.trans (hstrategy.symm.trans hdv)) (hnames.2.2 u.name
      (List.mem_map_of_mem hu) v.name (List.mem_map_of_mem hv))

theorem Settled.earlier_mem (h : Settled cfg list) (he : New cfg list s e) (hc : c ∈ list)
    (hu : u ∈ earlier cfg s) (hname : c.strategy = u.name) :
    c.id ∈ keepIds cfg (list ++ [e]) := by
  refine keptBefore_subset_keepIds he.names he.mem he.kind ?_
  rw [he.keptBefore_eq]
  exact h.earlier_kept he.mem he.kind hc hu hname

end Settled

section Same

variable {cfg : BundlesConfig} {list : List BundleEntry} {s : BundleStrategy} {c d e : BundleEntry}
  {g : ℕ} {x : String} {tokens : List ℕ} {keep : List String}

theorem groupEntries_other (h : groupOf tokens e ≠ g) :
    groupEntries (list ++ [e]) tokens s g = groupEntries list tokens s g := by
  have hsame : ∀ {l : List BundleEntry}, groupEntries l tokens s g =
      (groupEntries l tokens s g).filter fun b => groupOf tokens b = g := by
    intro l
    rw [List.filter_eq_self.mpr]
    exact fun b hb => by simpa using (mem_groupEntries.mp hb).2.2
  rw [hsame, groupEntries_added (by simpa using h), ← hsame]

theorem groupOf_mono (hc : c.baseId ≠ "") (he : e.baseId ≠ "")
    (h : c.creationToken ≤ e.creationToken) : groupOf tokens c ≤ groupOf tokens e := by
  have hle : (tokens.takeWhile fun t => t < c.creationToken).length ≤
      (tokens.takeWhile fun t => t < e.creationToken).length := by
    induction tokens with
    | nil => exact le_rfl
    | cons t tokens ih =>
      rw [List.takeWhile_cons, List.takeWhile_cons]
      split_ifs with hlt hlt'
      · exact Nat.succ_le_succ ih
      · simp only [decide_eq_true_eq] at hlt hlt'
        omega
      · exact Nat.zero_le _
      · exact le_rfl
  simp only [groupOf, hc, he, if_false]
  omega

theorem mem_keptAt (h : x ∈ keptAt cfg list s g) :
    x ∈ keptBefore cfg list s ∨ ∃ d ∈ list, d.strategy = s.name ∧ d.id = x := by
  rcases mem_foldl (fun _ _ _ hx => subset_keepGroup hx) h with hx | hx
  · exact .inl hx
  · obtain ⟨g', -, mid, -, -, hnot, hx⟩ := hx
    obtain ⟨d, hid, hd⟩ := (mem_keepGroup hx).resolve_left hnot
    obtain ⟨hlist, hname, -⟩ := mem_groupEntries.mp hd.mem
    exact .inr ⟨d, hlist, hname, hid⟩

theorem Settled.mem_chosen (h : Settled cfg list) (hs : s ∈ cfg) (hkind : s.kind = .incremental)
    (hc : s.chain = false) (hd : d ∈ groupEntries list (groupTokens cfg list) s g) :
    d ∈ chosen list (groupTokens cfg list) s (keptAt cfg list s g) g := by
  obtain ⟨hlist, hname, hg⟩ := mem_groupEntries.mp hd
  obtain ⟨hnot, hturn⟩ := mem_keepIds_turn h.names hs hkind hname
    (fun c hc hid => h.one hs hkind hlist hname hc hid) hg
  have hkept := hturn.mp (h.kept d hlist)
  rw [keepGroup_unchained hc, List.mem_append, or_iff_left hnot] at hkept
  obtain ⟨c, hchosen, hid⟩ := List.mem_map.mp hkept
  have hmem := List.mem_reverse.mp (List.mem_filter.mp (List.mem_of_mem_take hchosen)).1
  exact h.one hs hkind hlist hname (mem_groupEntries.mp hmem).1 hid ▸ hchosen

theorem Settled.group_length (h : Settled cfg list) (hs : s ∈ cfg) (hkind : s.kind = .incremental)
    (hc : s.chain = false) :
    (groupEntries list (groupTokens cfg list) s g).length ≤ incrementalsKept := by
  have hsub : (groupEntries list (groupTokens cfg list) s g).Subperm
      (chosen list (groupTokens cfg list) s (keptAt cfg list s g) g) := by
    refine List.subperm_of_subset ?_ fun d hd => h.mem_chosen hs hkind hc hd
    refine List.Nodup.filter _ ((List.perm_insertionSort _ _).nodup_iff.mpr ?_)
    exact (h.distinct s hs hkind).imp fun hne heq => hne ⟨by rw [heq], by rw [heq]⟩
  exact hsub.length_le.trans (List.length_take_le _ _)

theorem Settled.turn_added (h : Settled cfg list) (he : New cfg list s e) (hd : d ∈ list)
    (hname : d.strategy = s.name) (hg : groupOf (groupTokens cfg list) d = g) :
    d.id ∈ keepIds cfg (list ++ [e]) ↔ d.id ∈ keepGroup (list ++ [e]) (groupTokens cfg list) s
      (keptAt cfg (list ++ [e]) s g) g := by
  have hturn := (@mem_keepIds_turn cfg (list ++ [e]) s d g h.names he.mem he.kind hname
    (fun c hc hid => h.one_added he he.mem he.kind hd hname hc hid)
    (by rw [he.tokens_eq, hg])).2
  rwa [he.tokens_eq] at hturn

theorem Settled.newer_mem (h : Settled cfg list) (he : New cfg list s e) (hc : s.chain = false)
    (hd : d ∈ list) (hname : d.strategy = s.name) (hdbase : d.baseId ≠ "")
    (hforeign : ∀ t, d.baseId ≠ bundleId s.name t) (hnewer : e.creationToken < d.creationToken) :
    d.id ∈ keepIds cfg (list ++ [e]) := by
  have hown : d ∈ groupEntries list (groupTokens cfg list) s (groupOf (groupTokens cfg list) d) :=
    mem_groupEntries.mpr ⟨hd, hname, rfl⟩
  have hone : ∀ c ∈ groupEntries list (groupTokens cfg list) s (groupOf (groupTokens cfg list) d),
      c.creationToken = d.creationToken → c = d := by
    intro c hc heq
    obtain ⟨hmem, hcname, -⟩ := mem_groupEntries.mp hc
    refine h.one he.mem he.kind hd hname hmem ?_
    rw [h.named c hmem, h.named d hd, hcname, hname, heq]
  have hin := h.mem_chosen he.mem he.kind hc hown
  rw [h.turn_added he hd hname rfl, keepGroup_unchained hc]
  refine List.mem_append_left _ (List.mem_map_of_mem ?_)
  rcases eq_or_ne (groupOf (groupTokens cfg list) e) (groupOf (groupTokens cfg list) d)
    with heq | hne
  · -- in the group of the new bundle as many are newer as before
    rw [he.keptAt_eq heq.symm.le]
    rw [chosen, mem_newest groupEntries_sorted hown hone] at hin
    have hmem : d ∈ groupEntries (list ++ [e]) (groupTokens cfg list) s
        (groupOf (groupTokens cfg list) d) :=
      mem_groupEntries.mpr ⟨List.mem_append_left _ hd, hname, rfl⟩
    rw [chosen, mem_newest groupEntries_sorted hmem, groupEntries_added (by simp [hnewer.le])]
    · exact hin
    · intro c hc htoken
      obtain ⟨hclist, hcname, hcg⟩ := mem_groupEntries.mp hc
      rcases List.mem_append.mp hclist with hclist | hclist
      · exact hone c (mem_groupEntries.mpr ⟨hclist, hcname, hcg⟩) htoken
      · rw [List.mem_singleton.mp hclist] at htoken
        omega
  · -- a later group has no more bundles than it may keep
    have hkept : d.baseId ∈ keptAt cfg (list ++ [e]) s (groupOf (groupTokens cfg list) d) := by
      have hbaseKept := of_decide_eq_true (List.mem_filter.mp (List.mem_of_mem_take hin)).2
      rcases mem_keptAt (hbaseKept.resolve_left hdbase) with hx | ⟨c, hclist, hcname, hid⟩
      · exact subset_foldl (fun _ _ _ hx => subset_keepGroup hx) (he.keptBefore_eq.symm ▸ hx)
      · exact absurd (hid.symm.trans (hcname ▸ h.named c hclist)) (hforeign _)
    have hlen := @Settled.group_length _ _ _ (groupOf (groupTokens cfg list) d) h he.mem he.kind hc
    rw [chosen, groupEntries_other hne, List.take_of_length_le]
    · exact List.mem_filter.mpr ⟨List.mem_reverse.mpr hown, decide_eq_true (.inr hkept)⟩
    · exact (List.length_filter_le _ _).trans (List.length_reverse.le.trans hlen)

theorem Settled.link_kept (h : Settled cfg list) (he : Planned cfg list s e) (hc : s.chain = true)
    (hd : d ∈ list) (hname : d.strategy = s.name) (holder : d.creationToken < e.creationToken)
    (hg : groupOf (groupTokens cfg list) d = g) (heg : groupOf (groupTokens cfg list) e = g) :
    d.id ∈ keepChain (newestBase cfg list s g) (g < (groupTokens cfg list).length) true
      (keptAt cfg list s g) (olderLinks cfg list s e.creationToken g) := by
  obtain ⟨-, hturn⟩ := mem_keepIds_turn h.names he.mem he.kind hname
    (fun c hc hid => h.one he.mem he.kind hd hname hc hid) hg
  have hkept := hturn.mp (h.kept d hd)
  obtain ⟨post, hsplit, hpost⟩ := @Planned.split _ _ _ _ he (groupTokens cfg list)
  have hold := he.split_old hsplit hpost
  rw [heg] at hsplit hold
  rw [keepGroup_chained hc, hold, keepChain_append] at hkept
  refine (mem_keepChain hkept).resolve_right ?_
  -- the links after the new one are newer
  rintro ⟨pre, c, post', rfl, hid, -⟩
  have hsorted := @groupEntries_sorted (list ++ [e]) s g (groupTokens cfg list)
  rw [hsplit] at hsorted
  have hnewer := (List.pairwise_cons.mp (List.pairwise_append.mp hsorted).2.1).1 c
    List.mem_append_cons_self
  have hmem : c ∈ groupEntries list (groupTokens cfg list) s g := by
    rw [hold]
    exact List.mem_append_right _ List.mem_append_cons_self
  rw [h.one he.mem he.kind hd hname (mem_groupEntries.mp hmem).1 hid] at hnewer
  omega

theorem Settled.older_mem (h : Settled cfg list) (he : Planned cfg list s e) (hc : s.chain = true)
    (hbase : e.baseId ≠ "") (hd : d ∈ list) (hname : d.strategy = s.name) (hdbase : d.baseId ≠ "")
    (holder : d.creationToken < e.creationToken) : d.id ∈ keepIds cfg (list ++ [e]) := by
  have hle : groupOf (groupTokens cfg list) d ≤ groupOf (groupTokens cfg list) e :=
    groupOf_mono hdbase hbase holder.le
  have hsub := he.keptAt_subset hle
  rw [he.keptAt_eq hle] at hsub
  rw [h.turn_added he.toNew hd hname rfl, he.keptAt_eq hle, keepGroup_chained hc,
    he.baseNewest_eq hsub]
  rcases hle.lt_or_eq with hlt | heq
  · obtain ⟨-, hturn⟩ := mem_keepIds_turn h.names he.mem he.kind hname
      (fun c hc hid => h.one he.mem he.kind hd hname hc hid) rfl
    have hkept := hturn.mp (h.kept d hd)
    rw [keepGroup_chained hc] at hkept
    rwa [groupEntries_other hlt.ne']
  · have hkept := h.link_kept he hc hd hname holder heq rfl
    obtain ⟨post, hsplit, -⟩ := @Planned.split _ _ _ _ he (groupTokens cfg list)
    rw [heq, hsplit, keepChain_append]
    exact subset_keepChain hkept

end Same

end Walgit.Bundles
