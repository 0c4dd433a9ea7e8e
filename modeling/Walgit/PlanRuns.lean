import Walgit.Lib.Priority
import Walgit.PlanRoom

/-!
# Building what the plan misses

A pass plans afresh and builds one of the slots that the plan misses. The new
bundle stays listed when the list has room for it. A bundle ranks by the turn
of its strategy, and in its strategy by its token: the newest first, or the
oldest first when the strategy is chained. A bundle that stays pushes out only
bundles that rank below it, so at a fixed time the passes come to an end.
-/

namespace Walgit.Bundles

open Orders

section Ranks

variable (cfg : BundlesConfig)

/-- The strategies in the order in which retention takes them. -/
def turnOrder : List String := ((cfg.filter fun s => s.kind = .full) ++ incrementals cfg).map
  BundleStrategy.name

def isChained (strategy : String) : Bool := cfg.any fun s => s.name = strategy ∧ s.chain

/-- Earlier turns rank higher; in a strategy the newer tokens do, or the older ones when it is
chained. -/
def rank (now : ℕ) (strategy : String) (token : ℕ) : ℕᵒᵈ ×ₗ ℕ :=
  toLex (OrderDual.toDual ((turnOrder cfg).idxOf strategy),
    if isChained cfg strategy then now - token else token)

def ranks (now : ℕ) : Finset (ℕᵒᵈ ×ₗ ℕ) :=
  (Finset.range ((turnOrder cfg).length + 1) ×ˢ Finset.range (now + 1)).image fun p =>
    toLex (OrderDual.toDual p.1, p.2)

variable {cfg} {now : ℕ} {s u F : BundleStrategy} {strategy : String} {token token' : ℕ}

theorem rank_mem (h : token ≤ now) : rank cfg now strategy token ∈ ranks cfg now := by
  refine Finset.mem_image.mpr ⟨((turnOrder cfg).idxOf strategy,
    if isChained cfg strategy then now - token else token), ?_, rfl⟩
  have hle := List.idxOf_le_length (l := turnOrder cfg) (a := strategy)
  rw [Finset.mem_product, Finset.mem_range, Finset.mem_range]
  exact ⟨Nat.lt_succ_of_le hle, by split_ifs <;> omega⟩

theorem rank_inj (hs : strategy ∈ turnOrder cfg) {strategy' : String} (ht : token ≤ now)
    (ht' : token' ≤ now) (h : rank cfg now strategy token = rank cfg now strategy' token') :
    strategy = strategy' ∧ token = token' := by
  obtain ⟨hturn, hsecond⟩ := Prod.mk.inj (toLex.injective h)
  obtain rfl := (List.idxOf_inj hs).mp (OrderDual.toDual.injective hturn)
  refine ⟨rfl, ?_⟩
  split_ifs at hsecond <;> omega

theorem rank_lt (hs : strategy ∈ turnOrder cfg) {strategy' : String}
    (h : rank cfg now strategy' token' < rank cfg now strategy token) :
    (turnOrder cfg).idxOf strategy < (turnOrder cfg).idxOf strategy' ∨ strategy = strategy' ∧
      (isChained cfg strategy = true ∧ token < token' ∨
        isChained cfg strategy = false ∧ token' < token) := by
  rcases Prod.Lex.toLex_lt_toLex.mp h with hturn | ⟨hturn, hsecond⟩
  · exact .inl (OrderDual.toDual_lt_toDual.mp hturn)
  · obtain rfl := (List.idxOf_inj hs).mp (OrderDual.toDual.injective hturn.symm)
    refine .inr ⟨rfl, ?_⟩
    cases hc : isChained cfg strategy with
    | true =>
      simp only [hc, if_true] at hsecond
      exact .inl ⟨rfl, by omega⟩
    | false =>
      simp only [hc, Bool.false_eq_true, if_false] at hsecond
      exact .inr ⟨rfl, hsecond⟩

theorem mem_turnOrder (hs : s ∈ cfg) : s.name ∈ turnOrder cfg := by
  refine List.mem_map_of_mem (List.mem_append.mpr ?_)
  cases hkind : s.kind with
  | full => exact .inl (List.mem_filter.mpr ⟨hs, by simp [hkind]⟩)
  | incremental => exact .inr (List.mem_filter.mpr ⟨hs, by simp [hkind]⟩)

theorem isChained_eq (hn : (cfg.map BundleStrategy.name).Nodup) (hs : s ∈ cfg) :
    isChained cfg s.name = s.chain := by
  rw [Bool.eq_iff_iff, isChained, List.any_eq_true]
  constructor
  · rintro ⟨u, hu, hname⟩
    obtain ⟨hname, hchain⟩ := of_decide_eq_true hname
    rwa [← eq_of_name hn hu hs hname]
  · exact fun hchain => ⟨s, hs, by simp [hchain]⟩

theorem not_mem_fulls (hn : (cfg.map BundleStrategy.name).Nodup) (hs : s ∈ cfg)
    (hkind : s.kind = .incremental) :
    s.name ∉ (cfg.filter fun s => s.kind = .full).map BundleStrategy.name := by
  intro hmem
  obtain ⟨F, hF, hname⟩ := List.mem_map.mp hmem
  obtain ⟨hF, hfull⟩ := List.mem_filter.mp hF
  rw [eq_of_name hn hF hs hname, hkind] at hfull
  cases hfull

theorem turn_full (hn : (cfg.map BundleStrategy.name).Nodup) (hF : F ∈ cfg)
    (hfull : F.kind = .full) (hs : s ∈ cfg) (hkind : s.kind = .incremental) :
    (turnOrder cfg).idxOf F.name < (turnOrder cfg).idxOf s.name := by
  have hmem : F.name ∈ (cfg.filter fun s => s.kind = .full).map BundleStrategy.name :=
    List.mem_map_of_mem (List.mem_filter.mpr ⟨hF, by simpa using hfull⟩)
  rw [turnOrder, List.map_append, List.idxOf_append_of_mem hmem,
    List.idxOf_append_of_notMem (not_mem_fulls hn hs hkind)]
  exact (List.idxOf_lt_length_of_mem hmem).trans_le (Nat.le_add_right _ _)

theorem mem_takeWhile_of_idxOf {l : BundlesConfig} (hn : (l.map BundleStrategy.name).Nodup)
    (hu : u ∈ l)
    (h : (l.map BundleStrategy.name).idxOf u.name < (l.map BundleStrategy.name).idxOf s.name) :
    u ∈ l.takeWhile fun v => v.name ≠ s.name := by
  induction l with
  | nil => cases hu
  | cons v l ih =>
    rw [List.map_cons, List.nodup_cons] at hn
    rw [List.map_cons] at h
    have hvs : v.name ≠ s.name := by
      intro heq
      simp [heq] at h
    rw [List.takeWhile_cons, if_pos (by simpa using hvs), List.mem_cons]
    refine (List.mem_cons.mp hu).imp_right fun hu => ih hn.2 hu ?_
    have hvu : v.name ≠ u.name := fun heq => hn.1 (heq ▸ List.mem_map_of_mem hu)
    rwa [List.idxOf_cons_ne _ hvu, List.idxOf_cons_ne _ hvs, Nat.succ_lt_succ_iff] at h

theorem earlier_of_turn (hn : (cfg.map BundleStrategy.name).Nodup) (hs : s ∈ cfg)
    (hkind : s.kind = .incremental) (hu : u ∈ cfg) (hukind : u.kind = .incremental)
    (h : (turnOrder cfg).idxOf u.name < (turnOrder cfg).idxOf s.name) : u ∈ earlier cfg s := by
  rw [turnOrder, List.map_append, List.idxOf_append_of_notMem (not_mem_fulls hn hs hkind),
    List.idxOf_append_of_notMem (not_mem_fulls hn hu hukind), Nat.add_lt_add_iff_left] at h
  exact mem_takeWhile_of_idxOf (hn.sublist (List.filter_sublist.map _))
    (List.mem_filter.mpr ⟨hu, by simpa using hukind⟩) h

end Ranks

section Gains

variable {cfg : BundlesConfig} {list : List BundleEntry} {s u : BundleStrategy}
  {b c e : BundleEntry} {now : ℕ}

/-- A bundle of the configuration that no bundle of its own strategy decides, unless it is chained
to it. -/
structure Counted (cfg : BundlesConfig) (now : ℕ) (b : BundleEntry) : Prop where
  listed : ∃ s ∈ cfg, b.strategy = s.name
  token : b.creationToken ≤ now
  based : ∀ s ∈ cfg, s.kind = .incremental → b.strategy = s.name → b.baseId ≠ ""
  foreign : ∀ s ∈ cfg, s.kind = .incremental → b.strategy = s.name → s.chain = false →
    ∀ t, b.baseId ≠ bundleId s.name t

/-- Some counted bundle of the list has the rank. -/
def Held (cfg : BundlesConfig) (now : ℕ) (list : List BundleEntry) (a : ℕᵒᵈ ×ₗ ℕ) : Prop :=
  ∃ b ∈ list, Counted cfg now b ∧ rank cfg now b.strategy b.creationToken = a

/-- A bundle for a slot that has none: of a full strategy it is the newest. -/
structure Addition (cfg : BundlesConfig) (now : ℕ) (list : List BundleEntry) (s : BundleStrategy)
    (e : BundleEntry) : Prop where
  mem : s ∈ cfg
  strategy : e.strategy = s.name
  counted : Counted cfg now e
  unbuilt : ∀ b ∈ list, b.strategy = s.name → b.creationToken ≠ e.creationToken
  full : s.kind = .full → s.chain = false ∧
    ∀ b ∈ list, b.strategy = s.name → b.creationToken < e.creationToken
  planned : s.kind = .incremental → Planned cfg list s e

theorem Settled.above_mem (h : Settled cfg list) (he : Addition cfg now list s e) (hc : c ∈ list)
    (hcounted : Counted cfg now c) (habove : rank cfg now e.strategy e.creationToken <
      rank cfg now c.strategy c.creationToken) : c.id ∈ keepIds cfg (list ++ [e]) := by
  obtain ⟨u, hu, hname⟩ := hcounted.listed
  rw [he.strategy, hname] at habove
  cases hkind : s.kind with
  | full =>
    obtain ⟨hchain, hnewest⟩ := he.full hkind
    rcases rank_lt (mem_turnOrder hu) habove with hturn | ⟨hsame, htoken⟩
    · cases hukind : u.kind with
      | full =>
        refine h.full_mem hc hu hukind hname fun heq => ?_
        rw [he.strategy.symm.trans heq] at hturn
        exact lt_irrefl _ hturn
      | incremental => exact absurd (turn_full h.names he.mem hkind hu hukind) hturn.asymm
    · rw [hsame, isChained_eq h.names he.mem, hchain] at htoken
      have hlt := hnewest c hc (hname.trans hsame)
      simp only [Bool.false_eq_true, false_and, true_and, false_or] at htoken
      omega
  | incremental =>
    have hplanned := he.planned hkind
    cases hukind : u.kind with
    | full =>
      exact h.full_mem hc hu hukind hname fun heq =>
        hplanned.full_ne hu hukind heq
    | incremental =>
      rcases rank_lt (mem_turnOrder hu) habove with hturn | ⟨hsame, htoken⟩
      · exact h.earlier_mem hplanned.toNew hc
          (earlier_of_turn h.names he.mem hkind hu hukind hturn) hname
      · obtain rfl := eq_of_name h.names hu he.mem hsame
        rw [isChained_eq h.names hu] at htoken
        have hbase := hcounted.based u hu hukind hname
        rcases htoken with ⟨hchain, hlt⟩ | ⟨hchain, hlt⟩
        · exact h.older_mem hplanned hchain (he.counted.based u hu hukind he.strategy) hc hname
            hbase hlt
        · exact h.newer_mem hplanned.toNew hchain hc hname hbase
            (hcounted.foreign u hu hukind hname hchain) hlt

theorem Settled.gain (h : Settled cfg list) (he : Addition cfg now list s e)
    (hstays : e ∈ retain cfg (list ++ [e])) : ∃ a ∈ ranks cfg now,
      Held cfg now (retain cfg (list ++ [e])) a ∧ ¬ Held cfg now list a ∧
      ∀ b, a < b → Held cfg now list b → Held cfg now (retain cfg (list ++ [e])) b := by
  refine ⟨_, rank_mem he.counted.token, ⟨e, hstays, he.counted, rfl⟩, ?_, ?_⟩
  · rintro ⟨c, hc, hcounted, hrank⟩
    obtain ⟨u, hu, hname⟩ := hcounted.listed
    obtain ⟨hstrategy, htoken⟩ := rank_inj (hname ▸ mem_turnOrder hu) hcounted.token
      he.counted.token hrank
    exact he.unbuilt c hc (hstrategy.trans he.strategy) htoken
  · rintro b hlt ⟨c, hc, hcounted, rfl⟩
    exact ⟨c, mem_retain.mpr ⟨List.mem_append_left _ hc, h.above_mem he hc hcounted hlt⟩,
      hcounted, rfl⟩

end Gains

section Building

variable (parse : String → Except String Schedule) (cfg : List StrategyConfig) (now : ℤ)
  (ctx : PlanContext)

def entryOf (r : SlotPlan) (key : String) (seq : ℕ) (tips : List (String × String)) : BundleEntry :=
  ⟨bundleId r.strategy r.slot, key, r.strategy, r.slot, r.slot, seq, r.baseId.getD "", tips⟩

def buildRow (list : BundleList) (r : SlotPlan) (key : String) (seq : ℕ)
    (tips : List (String × String)) : BundleList :=
  { list with bundles := retain (strategies cfg) (withBuilt (entryOf r key seq tips) list.bundles) }

/-- One pass: a missing slot is built, if there is one. -/
def BuildPass (list list' : BundleList) : Prop :=
  (∀ r, ¬ Missing parse cfg list now ctx r) ∧ list' = list ∨
    ∃ r, Missing parse cfg list now ctx r ∧ ∃ key seq tips, list' = buildRow cfg list r key seq tips

/-- Whichever missing row is built, its bundle stays in the list. -/
def RowsStay (list : BundleList) : Prop :=
  ∀ r, Missing parse cfg list now ctx r → ∀ key seq tips,
    entryOf r key seq tips ∈ (buildRow cfg list r key seq tips).bundles

/-- The list has room for every missing incremental. -/
def RowsFit (list : BundleList) : Prop :=
  ∀ r, Missing parse cfg list now ctx r → ∀ s ∈ cfg, s.name = r.strategy → s.kind = .incremental →
    Room (strategies cfg) list.bundles s.toBundleStrategy r.slot (r.baseId.getD "")

end Building

section Rows

variable {parse : String → Except String Schedule} {cfg : List StrategyConfig} {list : BundleList}
  {now : ℤ} {ctx : PlanContext} {s : StrategyConfig} {r : SlotPlan} {key : String} {seq : ℕ}
  {tips : List (String × String)}

theorem withBuilt_of_unbuilt {bundles : List BundleEntry} {e : BundleEntry}
    (h : ∀ b ∈ bundles, b.strategy = e.strategy → b.creationToken ≠ e.creationToken) :
    withBuilt e bundles = bundles ++ [e] := by
  rw [withBuilt, List.filter_eq_self.mpr]
  intro b hb
  simpa [imp_iff_not_or] using h b hb

theorem RowOf.withBuilt (h : RowOf cfg list now s r) : withBuilt (entryOf r key seq tips)
    list.bundles = list.bundles ++ [entryOf r key seq tips] :=
  withBuilt_of_unbuilt fun b hb hname => h.unbuilt b hb (hname.trans h.strategy)

theorem RowOf.base (h : RowOf cfg list now s r) (hkind : s.kind = .incremental) : ∃ b,
    baseForIncremental (strategies cfg) list.bundles s.toBundleStrategy r.slot = some b ∧
      r.baseId = some b.id := by
  have hbase := h.baseId
  have hsome := h.based hkind
  rw [hbase] at hsome ⊢
  simp only [planBase, hkind] at hsome ⊢
  obtain ⟨x, hx⟩ := Option.ne_none_iff_exists'.mp hsome
  obtain ⟨b, hb, -⟩ := Option.map_eq_some_iff.mp hx
  exact ⟨b, hb, by rw [hb]; rfl⟩

theorem RowOf.planned (h : RowOf cfg list now s r) (hadmitted : Admitted (strategies cfg))
    (hs : s ∈ cfg) (hkind : s.kind = .incremental) (hnamed : Named list.bundles) :
    Planned (strategies cfg) list.bundles s.toBundleStrategy (entryOf r key seq tips) where
  names := hadmitted.names
  mem := mem_strategies hs
  kind := hkind
  strategy := h.strategy
  fresh b hb hid := by
    rw [hnamed b hb] at hid
    obtain ⟨hname, htoken⟩ := bundleId_inj hid
    exact h.unbuilt b hb (hname.trans h.strategy) htoken
  unbuilt b hb hname := h.unbuilt b hb hname
  after hchain b hb hbase := h.after hkind hchain b hb hbase
  positive := h.positive

theorem RowOf.addition (h : RowOf cfg list now s r) (hadmitted : Admitted (strategies cfg))
    (hs : s ∈ cfg) (hnamed : Named list.bundles) : Addition (strategies cfg) now.toNat list.bundles
      s.toBundleStrategy (entryOf r key seq tips) := by
  have hmem := mem_strategies hs
  have hown : ∀ u ∈ strategies cfg, u.kind = .incremental → r.strategy = u.name →
      u = s.toBundleStrategy := fun u hu _ hname =>
    eq_of_name hadmitted.names hu hmem (hname.symm.trans h.strategy)
  have hbased : ∀ u ∈ strategies cfg, u.kind = .incremental → r.strategy = u.name →
      ∃ b ∈ list.bundles, r.baseId.getD "" = bundleId b.strategy b.creationToken ∧
        (u.chain = false → b.strategy ≠ u.name) := by
    intro u hu hkind hname
    obtain rfl := hown u hu hkind hname
    obtain ⟨b, hb, hbase⟩ := h.base hkind
    have hlist := baseForIncremental_mem hb
    exact ⟨b, hlist, by rw [hbase, Option.getD_some, hnamed b hlist],
      fun hchain => baseForIncremental_foreign hadmitted hmem hchain hb⟩
  refine ⟨hmem, h.strategy, ⟨⟨_, hmem, h.strategy⟩, ?_, ?_, ?_⟩, h.unbuilt, fun hfull => ?_,
    fun hkind => h.planned hadmitted hs hkind hnamed⟩
  · have hle := h.le_now
    simp only [entryOf]
    omega
  · intro u hu hkind hname
    obtain ⟨b, -, hbase, -⟩ := hbased u hu hkind hname
    exact fun hempty => bundleId_ne (hbase.symm.trans hempty)
  · intro u hu hkind hname hchain t heq
    obtain ⟨b, -, hbase, hne⟩ := hbased u hu hkind hname
    exact hne hchain (bundleId_inj (hbase.symm.trans heq)).1
  · exact ⟨(hadmitted.full _ hmem hfull).2.1, h.newest hfull⟩

theorem rowsStay_iff (hadmitted : Admitted (strategies cfg)) (hnamed : Named list.bundles) :
    RowsStay parse cfg now ctx list ↔ RowsFit parse cfg now ctx list := by
  refine forall₂_congr fun r hr => ?_
  obtain ⟨s, hs, hrow⟩ := missing_row hr
  have hbuilt : ∀ {key seq tips}, (buildRow cfg list r key seq tips).bundles =
      retain (strategies cfg) (list.bundles ++ [entryOf r key seq tips]) := fun {key seq tips} =>
    congrArg (retain (strategies cfg)) hrow.withBuilt
  cases hkind : s.kind with
  | full =>
    refine iff_of_true (fun key seq tips => ?_) fun u hu hname hukind => ?_
    · rw [hbuilt]
      exact full_survives (mem_strategies hs) hkind hrow.strategy (hrow.newest hkind)
    · have heq := eq_of_name hadmitted.names (mem_strategies hu) (mem_strategies hs)
        (hname.trans hrow.strategy)
      have hsame : u.kind = s.kind := congrArg BundleStrategy.kind heq
      rw [hukind, hkind] at hsame
      cases hsame
  | incremental =>
    constructor
    · intro hstays u hu hname hukind
      have heq := eq_of_name hadmitted.names (mem_strategies hu) (mem_strategies hs)
        (hname.trans hrow.strategy)
      have hplanned : Planned (strategies cfg) list.bundles s.toBundleStrategy
          (entryOf r "" 0 []) := hrow.planned hadmitted hs hkind hnamed
      rw [heq]
      have hmem := hstays "" 0 []
      rw [hbuilt] at hmem
      exact hplanned.survives_iff.mp hmem
    · intro hfit key seq tips
      rw [hbuilt]
      exact (hrow.planned hadmitted hs hkind hnamed).survives_iff.mpr
        (hfit s hs hrow.strategy.symm hkind)

theorem mem_buildRow (h : RowOf cfg list now s r) {b : BundleEntry}
    (hb : b ∈ (buildRow cfg list r key seq tips).bundles) :
    b ∈ list.bundles ++ [entryOf r key seq tips] := by
  rw [← h.withBuilt]
  exact (mem_retain.mp hb).1

theorem WellFormed.build (h : WellFormed (strategies cfg) list.bundles)
    (hrow : RowOf cfg list now s r) :
    WellFormed (strategies cfg) (buildRow cfg list r key seq tips).bundles where
  named b hb := by
    rcases List.mem_append.mp (mem_buildRow hrow hb) with hb | hb
    · exact h.named b hb
    · rw [List.mem_singleton.mp hb]
      rfl
  distinct u hu hkind := by
    have hall : Distinct ((list.bundles ++ [entryOf r key seq tips]).filter fun b =>
        b.strategy = u.name) := by
      rw [List.filter_append]
      refine List.pairwise_append.mpr ⟨h.distinct u hu hkind,
        List.Pairwise.filter _ (List.pairwise_singleton _ _), fun a ha b hb => ?_⟩
      rw [List.mem_singleton.mp (List.mem_filter.mp hb).1]
      exact fun heq => hrow.unbuilt a (List.mem_filter.mp ha).1 (heq.1.trans hrow.strategy) heq.2
    rw [buildRow, hrow.withBuilt]
    exact hall.sublist (List.filter_sublist.filter _)

theorem WellFormed.settled (h : WellFormed (strategies cfg) list.bundles)
    (hadmitted : Admitted (strategies cfg)) (hrow : RowOf cfg list now s r) :
    Settled (strategies cfg) (buildRow cfg list r key seq tips).bundles where
  toWellFormed := h.build hrow
  names := hadmitted.names
  kept b hb := by
    rw [buildRow, keepIds_retain]
    exact (mem_retain.mp hb).2

theorem exists_done (hadmitted : Admitted (strategies cfg)) {run : ℕ → BundleList}
    (hstart : WellFormed (strategies cfg) (run 0).bundles)
    (hrun : ∀ n, BuildPass parse cfg now ctx (run n) (run (n + 1)))
    (hfit : ∀ n, RowsFit parse cfg now ctx (run n)) :
    ∃ n, ∀ r, ¬ Missing parse cfg (run n) now ctx r := by
  by_contra hnone
  have hbuild : ∀ n, ∃ r, Missing parse cfg (run n) now ctx r ∧ ∃ key seq tips,
      run (n + 1) = buildRow cfg (run n) r key seq tips := fun n =>
    (hrun n).resolve_left fun hdone => hnone ⟨n, hdone.1⟩
  have hwf : ∀ n, WellFormed (strategies cfg) (run n).bundles := by
    intro n
    induction n with
    | zero => exact hstart
    | succ n ih =>
      obtain ⟨r, hr, key, seq, tips, hnext⟩ := hbuild n
      obtain ⟨s, hs, hrow⟩ := missing_row hr
      rw [hnext]
      exact ih.build hrow
  obtain ⟨n, hn⟩ := @exists_no_gain _ (ranks (strategies cfg) now.toNat) _
    fun n => Held (strategies cfg) now.toNat (run (n + 1)).bundles
  refine hn ?_
  -- the list before this pass is one that retention has left
  obtain ⟨r, hr, key, seq, tips, hnext⟩ := hbuild n
  obtain ⟨s, hs, hrow⟩ := missing_row hr
  have hsettled : Settled (strategies cfg) (run (n + 1)).bundles := by
    rw [hnext]
    exact (hwf n).settled hadmitted hrow
  obtain ⟨r', hr', key', seq', tips', hnext'⟩ := hbuild (n + 1)
  obtain ⟨s', hs', hrow'⟩ := missing_row hr'
  have hnamed := (hwf (n + 1)).named
  have hstays := (rowsStay_iff hadmitted hnamed).mpr (hfit (n + 1)) r' hr' key' seq' tips'
  rw [buildRow, hrow'.withBuilt] at hstays
  have hgain := hsettled.gain (hrow'.addition hadmitted hs' hnamed) hstays
  rwa [hnext', buildRow, hrow'.withBuilt]

end Rows

section Result

variable (parse : String → Except String Schedule) (cfg : List StrategyConfig) (now : ℤ)
  (ctx : PlanContext)

/-- Fewer than two bundles stand in the group of a missing unchained slot that are newer than it. -/
def NoneNewer (list : BundleList) : Prop :=
  ∀ r, Missing parse cfg list now ctx r → ∀ s ∈ cfg, s.name = r.strategy → s.kind = .incremental →
    s.chain = false → (newerInGroup (strategies cfg) list.bundles s.toBundleStrategy r.slot
      (r.baseId.getD "")).length < incrementalsKept

/-- When planning and retention agree. -/
structure PlanKept : Prop where
  stays : ∀ list : BundleList, Named list.bundles →
    (RowsStay parse cfg now ctx list ↔ RowsFit parse cfg now ctx list)
  settled : BaseFirst (strategies cfg) → ∀ list : BundleList,
    Settled (strategies cfg) list.bundles → Based (strategies cfg) list.bundles →
      (RowsStay parse cfg now ctx list ↔ NoneNewer parse cfg now ctx list)
  ends : ∀ run : ℕ → BundleList, WellFormed (strategies cfg) (run 0).bundles →
    (∀ n, BuildPass parse cfg now ctx (run n) (run (n + 1))) →
    (∀ n, RowsFit parse cfg now ctx (run n)) → ∃ n, ∀ r, ¬ Missing parse cfg (run n) now ctx r
  chains : ∀ name, ∃ l, chainUp (strategies cfg) 17 name = some l ∧
    chainUp (strategies cfg) (cfg.length + 1) name = some l ∧ ∀ list slot,
      slotChain (strategies cfg) list slot 17 name =
        some (l.findSome? fun x => baseForSlot list x slot)

variable {parse cfg now ctx}

theorem rowsFit_iff {list : BundleList} (hadmitted : Admitted (strategies cfg))
    (hfirst : BaseFirst (strategies cfg)) (hlist : Settled (strategies cfg) list.bundles)
    (hbased : Based (strategies cfg) list.bundles) :
    RowsFit parse cfg now ctx list ↔ NoneNewer parse cfg now ctx list := by
  refine forall₂_congr fun r hr => forall₄_congr fun s hs hname hkind => ?_
  obtain ⟨u, hu, hrow⟩ := missing_row hr
  have heq := eq_of_name hadmitted.names (mem_strategies hu) (mem_strategies hs)
    (hrow.strategy.symm.trans hname.symm)
  have hukind : u.kind = .incremental := (congrArg BundleStrategy.kind heq).trans hkind
  obtain ⟨b, hb, hbase⟩ := hrow.base hukind
  have hplanned : Planned (strategies cfg) list.bundles u.toBundleStrategy (entryOf r "" 0 []) :=
    hrow.planned hadmitted hu hukind hlist.named
  rw [← heq]
  exact hlist.room_iff hadmitted hfirst hbased hplanned hb (by simp [entryOf, hbase])

/-- The bundle of a missing row stays exactly when the list has room for it; passes that build only
what has room come to an end; and the walks up the bases end. -/
theorem plan_kept (h : validate parse cfg = .ok ()) (now : ℤ) (ctx : PlanContext) :
    PlanKept parse cfg now ctx where
  stays _ hnamed := rowsStay_iff (admitted_of_validate h) hnamed
  settled hfirst list hlist hbased :=
    (rowsStay_iff (admitted_of_validate h) hlist.named).trans
      (rowsFit_iff (admitted_of_validate h) hfirst hlist hbased)
  ends _ hstart hrun hfit := exists_done (admitted_of_validate h) hstart hrun hfit
  chains name := by
    obtain ⟨l, hl⟩ := chainUp_admitted (admitted_of_validate h) name
    refine ⟨l, hl, ?_, fun list slot => ?_⟩
    · have hstable := chainUp_stable hl
      rwa [strategies, List.length_map] at hstable
    · rw [slotChain_eq hl, baseForSlotChain_eq hl]

end Result

section Defaults

/-- The schedule that fires every `period` seconds, `phase` seconds after the epoch. -/
def periodic (period phase : ℤ) (hperiod : 0 < period) : Schedule where
  fires t := (t - phase) % period = 0
  next a := some (a + (period - (a - phase) % period))
  next_some {a f} h := by
    obtain rfl := Option.some.inj h
    have hnonneg := Int.emod_nonneg (a - phase) hperiod.ne'
    have hlt := Int.emod_lt_of_pos (a - phase) hperiod
    have hsplit := Int.mul_ediv_add_emod (a - phase) period
    refine ⟨?_, by omega, fun g hg hf => ?_⟩
    · have heq : a + (period - (a - phase) % period) - phase =
          period + period * ((a - phase) / period) := by omega
      simp [heq]
    · obtain ⟨k, hk⟩ := Int.dvd_of_emod_eq_zero (of_decide_eq_true hf)
      have hnext : (a - phase) / period < k := by
        by_contra hle
        have hmul := Int.mul_le_mul_of_nonneg_left (not_lt.mp hle) hperiod.le
        omega
      have hmul := Int.mul_le_mul_of_nonneg_left (Int.add_one_le_of_lt hnext) hperiod.le
      rw [Int.mul_add, Int.mul_one] at hmul
      omega
  next_none h := nomatch h

/-- The default schedules: Sundays and every day at 23:00, and every hour. -/
def calendar (expr : String) : Except String Schedule :=
  if expr = "0 0 23 * * Sun" then .ok (periodic 604800 342000 (by decide))
  else if expr = "0 0 23 * * *" then .ok (periodic 86400 82800 (by decide))
  else if expr = "@hourly" then .ok (periodic 3600 0 (by decide))
  else .error "unknown"

def defaults : List StrategyConfig := [weeklyDefault, dailyDefault, hourlyDefault]

def anyHost : PlanContext := ⟨none, true, true, none⟩

theorem defaults_kept : validate calendar defaults = .ok () ∧ BaseFirst (strategies defaults) ∧
    PlanKept calendar defaults 1787052000 anyHost :=
  ⟨by decide, by decide, plan_kept (by decide) 1787052000 anyHost⟩

/-- Sunday's weekly, Monday's daily and Tuesday's hourly of 11:00, and an hourly cut by hand at
11:15. -/
def manualCut : BundleList where
  bundles :=
    [⟨"weekly-1786921200", "w", "weekly", 1786921200, 1786921200, 1, "", []⟩,
      ⟨"daily-1787007600", "d", "daily", 1787007600, 1787007600, 2, "weekly-1786921200", []⟩,
      ⟨"hourly-1787050800", "h", "hourly", 1787050800, 1787050800, 3, "daily-1787007600", []⟩,
      ⟨"hourly-1787051700", "m", "hourly", 1787051700, 0, 4, "daily-1787007600", []⟩]
  skipped := []

/-- The hourly of 10:00, at 11:20. -/
def tenOClock : SlotPlan :=
  ⟨"hourly", .incremental, 1787047200, .missing, some "daily-1787007600"⟩

theorem missing_tenOClock : Missing calendar defaults manualCut 1787052000 anyHost tenOClock :=
  ⟨_, rfl, by decide, rfl⟩

theorem build_tenOClock : buildRow defaults manualCut tenOClock "t" 2 [] = manualCut := by decide

/-- The hourly of 10:00 is one of the two that are wanted, and the two newer ones push it out: every
pass builds it, and retention deletes it. -/
theorem manual_cut_rebuilds : validate calendar defaults = .ok () ∧
    ¬ RowsStay calendar defaults 1787052000 anyHost manualCut ∧
    ∃ run : ℕ → BundleList, run 0 = manualCut ∧
      (∀ n, BuildPass calendar defaults 1787052000 anyHost (run n) (run (n + 1))) ∧
      ∀ n, ∃ r, Missing calendar defaults (run n) 1787052000 anyHost r := by
  refine ⟨by decide, fun hstays => ?_, fun _ => manualCut, rfl, fun n => .inr ?_, fun n =>
    ⟨_, missing_tenOClock⟩⟩
  · have hmem := hstays _ missing_tenOClock "t" 2 []
    rw [build_tenOClock] at hmem
    exact absurd hmem (by decide)
  · exact ⟨_, missing_tenOClock, "t", 2, [], build_tenOClock.symm⟩

end Defaults

end Walgit.Bundles
