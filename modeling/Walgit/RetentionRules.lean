import Walgit.Retention

/-!
# The rules of retention

What stays, told by tokens and keep counts. A full stays while fewer than `keep`
of its strategy are newer; the fulls that stay cut the list into weeks. In a week
an unchained strategy keeps the two newest bundles whose base stays, and a chained
one the links newer than all that stays of its base strategy, each as long as the
link before it does. A list without two entries of one strategy and token is
pruned by these rules.
-/

namespace Walgit.Bundles

section Rules

variable (cfg : BundlesConfig) (list : List BundleEntry)

/-- A full stays while fewer than `keep` listed bundles of its strategy are newer, and the newest
stays in any case. -/
def FullStays (x : String) : Prop :=
  ∃ s ∈ cfg, s.kind = .full ∧ ∃ b ∈ list, b.id = x ∧ b.strategy = s.name ∧
    {d | d ∈ list ∧ d.strategy = s.name ∧ b.creationToken < d.creationToken}.ncard < max s.keep 1

/-- The tokens at which the weeks begin. -/
def weekStarts : Set ℕ :=
  {t | ∃ b ∈ list, FullStays cfg list b.id ∧ b.baseId = "" ∧ b.creationToken = t}

/-- The number of weeks that begin before a bundle's token; with a base they count from zero. -/
noncomputable def weekOf (T : Set ℕ) (b : BundleEntry) : ℕ :=
  {t | t ∈ T ∧ t < b.creationToken}.ncard - if b.baseId = "" then 0 else 1

section Week

-- `T` are the starts of the weeks, and `K` are the ids of which it is decided that they stay.
variable (T : Set ℕ) (s : BundleStrategy) (K : Set String) (g : ℕ)

structure InWeek (b : BundleEntry) : Prop where
  mem : b ∈ list
  strategy : b.strategy = s.name
  week : weekOf T b = g

def BaseStays (b : BundleEntry) : Prop := b.baseId = "" ∨ b.baseId ∈ K

/-- One of the two newest of the week whose base stays. -/
structure Recent (b : BundleEntry) : Prop where
  inWeek : InWeek list T s g b
  based : BaseStays K b
  newest : {d | InWeek list T s g d ∧ BaseStays K d ∧ b.creationToken < d.creationToken}.ncard < 2

/-- Newer than what stays of the base strategy in the week. -/
structure Beyond (b : BundleEntry) : Prop where
  inWeek : InWeek list T s g b
  pos : 0 < b.creationToken
  base : ∀ e ∈ list, s.base = some e.strategy → e.id ∈ K → weekOf T e = g →
    e.creationToken < b.creationToken

/-- A link stays for its base, as the first one of a week that a full begins, or for the link
before it. -/
inductive Link : BundleEntry → Prop
  | based {b : BundleEntry} : Beyond list T s K g b → BaseStays K b → Link b
  | first {b : BundleEntry} : Beyond list T s K g b →
      (∀ d, Beyond list T s K g d → b.creationToken ≤ d.creationToken) → g < T.ncard → Link b
  | next {b c : BundleEntry} : Beyond list T s K g b → Link c →
      c.creationToken < b.creationToken → b.baseId = c.id → Link b

/-- The ids that stay of a strategy in one week. -/
def inWeekStays : Set String :=
  {x | ∃ b, b.id = x ∧ if s.chain then Link list T s K g b else Recent list T s K g b}

def afterWeeks : ℕ → Set String
  | 0 => K
  | g + 1 => afterWeeks g ∪ inWeekStays list T s (afterWeeks g) g

end Week

/-- The incremental strategies in the order of the configuration. -/
def afterStrategies (T : Set ℕ) : List BundleStrategy → Set String → Set String
  | [], K => K
  | s :: ss, K => afterStrategies T ss (afterWeeks list T s K (T.ncard + 1))

def Stays (x : String) : Prop :=
  x ∈ afterStrategies list (weekStarts cfg list)
    (cfg.filter fun s => s.kind = .incremental) {x | FullStays cfg list x}

end Rules

theorem Link.beyond {list : List BundleEntry} {T : Set ℕ} {s : BundleStrategy} {K : Set String}
    {g : ℕ} {b : BundleEntry} (h : Link list T s K g b) : Beyond list T s K g b := by
  rcases h with ⟨hb, -⟩ | ⟨hb, -, -⟩ | ⟨hb, -, -, -⟩ <;> exact hb

section Newest

variable {α : Type} {f : α → ℕ} {l : List α} {a : α} {n : ℕ}

theorem mem_take_iff (h : l.Pairwise fun a b => f b < f a) :
    a ∈ l.take n ↔ a ∈ l ∧ (l.filter fun d => f a < f d).length < n := by
  induction l generalizing n with
  | nil => simp
  | cons b l ih =>
    obtain ⟨hb, hl⟩ := List.pairwise_cons.mp h
    cases n with
    | zero => simp
    | succ n =>
      rw [List.take_succ_cons, List.mem_cons, List.mem_cons, ih hl]
      by_cases hab : a = b
      · subst hab
        have hnone : (a :: l).filter (fun d => f a < f d) = [] := by
          refine List.filter_eq_nil_iff.mpr fun d hd => ?_
          rcases List.mem_cons.mp hd with rfl | hd
          · simp
          · simpa using (hb d hd).le
        rw [hnone]
        simp
      · refine (or_iff_right hab).trans ((and_congr_right fun ha => ?_).trans
          (and_congr_left' (or_iff_right hab).symm))
        rw [List.filter_cons, if_pos (by simpa using hb a ha), List.length_cons,
          Nat.add_lt_add_iff_right]

theorem length_filter_eq (h : l.Nodup) (p : α → Bool) :
    (l.filter p).length = {d | d ∈ l ∧ p d = true}.ncard := by
  classical
  rw [← List.toFinset_card_of_nodup (h.filter p), ← Set.ncard_coe_finset]
  congr 1
  ext d
  simp

end Newest

section Tokens

variable {cfg : BundlesConfig} {list : List BundleEntry} {n : String} {x : String}
  {b : BundleEntry} {keep : List String} {k : ℕ}

theorem entriesOf_strict (h : Distinct list) :
    (entriesOf list n).Pairwise fun a b => a.creationToken < b.creationToken := by
  have hsame : ((list.filter fun b => b.strategy = n).Pairwise fun a b =>
      a.creationToken ≠ b.creationToken) := by
    refine (List.Pairwise.and_mem.mp (h.filter _)).imp fun {a b} hab htoken => ?_
    obtain ⟨ha, hb, hne⟩ := hab
    have ha := of_decide_eq_true (List.mem_filter.mp ha).2
    have hb := of_decide_eq_true (List.mem_filter.mp hb).2
    exact hne ⟨ha.trans hb.symm, htoken⟩
  have hne : (entriesOf list n).Pairwise fun a b => a.creationToken ≠ b.creationToken :=
    hsame.perm (List.perm_insertionSort _ _).symm fun h => h.symm
  exact (entriesOf_sorted.and hne).imp fun h => lt_of_le_of_ne h.1 h.2

theorem nodup_of_strict {l : List BundleEntry}
    (h : l.Pairwise fun a b => a.creationToken < b.creationToken) : l.Nodup :=
  h.imp fun hlt he => by rw [he] at hlt; exact lt_irrefl _ hlt

theorem mem_newest_iff {l : List BundleEntry}
    (h : l.Pairwise fun a b => a.creationToken < b.creationToken) :
    b ∈ l.reverse.take k ↔
      b ∈ l ∧ {d | d ∈ l ∧ b.creationToken < d.creationToken}.ncard < k := by
  rw [mem_take_iff (List.pairwise_reverse.mpr h), List.mem_reverse, List.filter_reverse,
    List.length_reverse, length_filter_eq (nodup_of_strict h)]
  simp only [decide_eq_true_eq]

theorem fullStays_iff (h : Distinct list) : FullStays cfg list x ↔ x ∈ keptFulls cfg list := by
  simp only [FullStays, mem_keptFulls, mem_newest_iff (entriesOf_strict h), mem_entriesOf,
    and_assoc]
  refine exists_congr fun s => and_congr_right fun _ => and_congr_right fun _ => ?_
  refine exists_congr fun b => and_congr_right fun _ => ?_
  rw [and_left_comm, and_comm (a := b.id = x), and_left_comm]

theorem mem_fullTokens {t : ℕ} : t ∈ fullTokens list keep ↔
    ∃ b ∈ list, b.id ∈ keep ∧ b.baseId = "" ∧ b.creationToken = t := by
  simp [fullTokens, and_assoc]

theorem mem_weekStarts {t : ℕ} (h : Distinct list) :
    t ∈ weekStarts cfg list ↔ t ∈ fullTokens list (keptFulls cfg list) := by
  rw [mem_fullTokens]
  simp only [weekStarts, Set.mem_ofPred_eq, fullStays_iff h]

theorem fullTokens_sorted : (fullTokens list keep).Pairwise (· ≤ ·) :=
  (List.pairwise_insertionSort _ _).sublist (List.dedup_sublist _)

theorem fullTokens_nodup : (fullTokens list keep).Nodup := List.nodup_dedup _

theorem ncard_fullTokens :
    {t | t ∈ fullTokens list keep}.ncard = (fullTokens list keep).length := by
  have h := length_filter_eq (@fullTokens_nodup list keep) fun _ => true
  simpa using h.symm

theorem takeWhile_lt {l : List ℕ} (h : l.Pairwise (· ≤ ·)) :
    l.takeWhile (fun t => t < k) = l.filter fun t => t < k := by
  induction l with
  | nil => rfl
  | cons a l ih =>
    obtain ⟨ha, hl⟩ := List.pairwise_cons.mp h
    rw [List.takeWhile_cons, List.filter_cons, ih hl]
    split_ifs with hlt
    · rfl
    · refine (List.filter_eq_nil_iff.mpr fun t ht => ?_).symm
      simpa using (Nat.le_of_not_lt (by simpa using hlt)).trans (ha t ht)

theorem groupOf_eq_weekOf :
    groupOf (fullTokens list keep) b = weekOf {t | t ∈ fullTokens list keep} b := by
  have hbelow : ((fullTokens list keep).takeWhile fun t => t < b.creationToken).length =
      {t | t ∈ fullTokens list keep ∧ t < b.creationToken}.ncard := by
    rw [takeWhile_lt fullTokens_sorted, length_filter_eq fullTokens_nodup]
    simp only [decide_eq_true_eq]
  simp only [groupOf, weekOf, hbelow, Set.mem_ofPred_eq]
  split_ifs <;> rfl

end Tokens

section Steps

variable {cfg : BundlesConfig} {list : List BundleEntry} {keep fulls : List String}
  {s : BundleStrategy} {x : String} {b : BundleEntry} {g : ℕ} {T : Set ℕ} {tokens : List ℕ}

theorem mem_group (hT : ∀ b, groupOf tokens b = weekOf T b) :
    b ∈ groupEntries list tokens s g ↔ InWeek list T s g b := by
  rw [mem_groupEntries, hT]
  exact ⟨fun h => ⟨h.1, h.2.1, h.2.2⟩, fun h => ⟨h.mem, h.strategy, h.week⟩⟩

theorem group_strict (h : Distinct list) : (groupEntries list tokens s g).Pairwise
    fun a b => a.creationToken < b.creationToken := (entriesOf_strict h).filter _

theorem mem_chosen (h : Distinct list) (hT : ∀ b, groupOf tokens b = weekOf T b) :
    b ∈ chosen list tokens s keep g ↔ Recent list T s {x | x ∈ keep} g b := by
  have hrev : (groupEntries list tokens s g).reverse.filter
      (fun b => b.baseId = "" ∨ b.baseId ∈ keep) =
      ((groupEntries list tokens s g).filter fun b => b.baseId = "" ∨ b.baseId ∈ keep).reverse :=
    List.filter_reverse
  rw [chosen, hrev, mem_newest_iff ((group_strict h).filter _), List.mem_filter, mem_group hT,
    decide_eq_true_eq]
  have hset : {d | d ∈ (groupEntries list tokens s g).filter
      (fun b => b.baseId = "" ∨ b.baseId ∈ keep) ∧ b.creationToken < d.creationToken} =
      {d | InWeek list T s g d ∧ BaseStays {x | x ∈ keep} d ∧
        b.creationToken < d.creationToken} := by
    ext d
    simp only [Set.mem_ofPred_eq, List.mem_filter, mem_group hT, decide_eq_true_eq, and_assoc]
    rfl
  rw [hset]
  exact ⟨fun hb => ⟨hb.1.1, hb.1.2, hb.2⟩, fun hb => ⟨⟨hb.inWeek, hb.based⟩, hb.newest⟩⟩

theorem beyond_iff (hT : ∀ b, groupOf tokens b = weekOf T b) :
    Beyond list T s {x | x ∈ keep} g b ↔
      InWeek list T s g b ∧ baseNewest list tokens s keep g < b.creationToken := by
  constructor
  · rintro ⟨hb, hpos, hbase⟩
    refine ⟨hb, ?_⟩
    rcases Nat.eq_zero_or_pos (baseNewest list tokens s keep g) with hzero | hnewest
    · rwa [hzero]
    · obtain ⟨e, he, hs, hkeep, hg, htoken⟩ := baseNewest_spec hnewest
      rw [← htoken]
      exact hbase e he hs hkeep (hT e ▸ hg)
  · rintro ⟨hb, hlt⟩
    refine ⟨hb, (Nat.zero_le _).trans_lt hlt, fun e he hs hkeep hg => ?_⟩
    rw [← hT] at hg
    exact (hg ▸ le_baseNewest hs he hkeep).trans_lt hlt

theorem mem_keepChain_iff (K : Set String) (pre bs : List BundleEntry) {n : ℕ}
    {ok first : Bool} {kept : List String}
    (hsort : (pre ++ bs).Pairwise fun a b => a.creationToken < b.creationToken)
    (hmem : ∀ b, b ∈ pre ++ bs ↔ InWeek list T s g b)
    (hn : ∀ b, Beyond list T s K g b ↔ InWeek list T s g b ∧ n < b.creationToken)
    (hok : ok = true ↔ g < T.ncard)
    (hkept : ∀ x, x ∈ kept ↔ x ∈ K ∨ ∃ c ∈ pre, c.id = x ∧ Link list T s K g c)
    (hfirst : first = true ↔ ∀ c ∈ pre, ¬ Beyond list T s K g c) :
    x ∈ keepChain n ok first kept bs ↔
      x ∈ K ∨ ∃ c ∈ pre ++ bs, c.id = x ∧ Link list T s K g c := by
  induction bs generalizing pre first kept with
  | nil => rw [keepChain, hkept, List.append_nil]
  | cons b bs ih =>
    have hsplit : pre ++ b :: bs = (pre ++ [b]) ++ bs := by simp
    have hbWeek : InWeek list T s g b := (hmem b).mp (by simp)
    have hbefore : ∀ c ∈ pre, c.creationToken < b.creationToken := fun c hc =>
      (List.pairwise_append.mp hsort).2.2 c hc b List.mem_cons_self
    have hafter : ∀ c ∈ bs, b.creationToken < c.creationToken :=
      (List.pairwise_cons.mp (List.pairwise_append.mp hsort).2.1).1
    have hpre : ∀ c, Beyond list T s K g c → c.creationToken < b.creationToken → c ∈ pre := by
      intro c hc hlt
      rcases List.mem_append.mp ((hmem c).mpr hc.inWeek) with hc | hc
      · exact hc
      · rcases List.mem_cons.mp hc with rfl | hc
        · exact absurd hlt (lt_irrefl _)
        · exact absurd (hlt.trans (hafter c hc)) (lt_irrefl _)
    rw [hsplit] at hsort hmem ⊢
    rw [keepChain]
    by_cases hle : b.creationToken ≤ n
    · have hnot : ¬ Beyond list T s K g b := fun hb => absurd ((hn b).mp hb).2 (by omega)
      rw [if_pos hle]
      refine ih (pre ++ [b]) hsort hmem (fun x => ?_) ?_
      · rw [hkept]
        simp only [List.mem_append, List.mem_singleton, or_and_right, exists_or, exists_eq_left]
        exact or_congr_right (iff_self_or.mpr fun hb => absurd hb.2.beyond hnot)
      · rw [hfirst]
        simp only [List.mem_append, List.mem_singleton, or_imp, forall_and, forall_eq]
        exact (and_iff_left hnot).symm
    · have hb : Beyond list T s K g b := (hn b).mpr ⟨hbWeek, Nat.lt_of_not_le hle⟩
      rw [if_neg hle]
      have hnone : false = true ↔ ∀ c ∈ pre ++ [b], ¬ Beyond list T s K g c :=
        ⟨fun h => absurd h Bool.false_ne_true, fun hall => absurd hb (hall b (by simp))⟩
      -- the test of the code, at this link, is `Link`
      have hlink : (b.baseId = "" ∨ b.baseId ∈ kept ∨ (first = true ∧ ok = true)) ↔
          Link list T s K g b := by
        rw [hkept, hfirst, hok]
        constructor
        · rintro (hroot | (hK | ⟨c, hc, hid, hl⟩) | ⟨hnone, hg⟩)
          · exact .based hb (.inl hroot)
          · exact .based hb (.inr hK)
          · exact .next hb hl (hbefore c hc) hid.symm
          · refine .first hb (fun d hd => Nat.le_of_not_lt fun hlt => ?_) hg
            exact hnone d (hpre d hd hlt) hd
        · rintro (⟨-, hroot | hK⟩ | ⟨-, hfirst, hg⟩ | ⟨-, hl, hlt, hid⟩)
          · exact .inl hroot
          · exact .inr (.inl (.inl hK))
          · refine .inr (.inr ⟨fun c hc hcb => ?_, hg⟩)
            exact absurd (hfirst c hcb) (Nat.not_le_of_lt (hbefore c hc))
          · exact .inr (.inl (.inr ⟨_, hpre _ hl.beyond hlt, hid.symm, hl⟩))
      split_ifs with hanchor
      · refine ih (pre ++ [b]) hsort hmem (fun x => ?_) hnone
        have hl := hlink.mp hanchor
        rw [List.mem_cons, hkept]
        simp only [List.mem_append, List.mem_singleton, or_and_right, exists_or, exists_eq_left]
        rw [and_iff_left hl, eq_comm, or_comm, or_assoc]
      · refine ih (pre ++ [b]) hsort hmem (fun x => ?_) hnone
        rw [hkept]
        simp only [List.mem_append, List.mem_singleton, or_and_right, exists_or, exists_eq_left]
        exact or_congr_right (iff_self_or.mpr fun hb => absurd (hlink.mpr hb.2) hanchor)

variable (h : Distinct list) (hT : ∀ b, groupOf tokens b = weekOf T b)
  (hlen : tokens.length = T.ncard)
include h hT hlen

theorem mem_keepGroup_iff : x ∈ keepGroup list tokens s keep g ↔
    x ∈ {x | x ∈ keep} ∪ inWeekStays list T s {x | x ∈ keep} g := by
  rw [Set.mem_union, Set.mem_ofPred_eq]
  cases hc : s.chain with
  | true =>
    rw [keepGroup_chained hc, mem_keepChain_iff {x | x ∈ keep} []
      (groupEntries list tokens s g) (group_strict h) (fun b => mem_group hT)
      (fun b => beyond_iff hT) (by simp [hlen]) (by simp) (by simp)]
    simp only [inWeekStays, hc, if_true, Set.mem_ofPred_eq, List.nil_append]
    refine or_congr_right (exists_congr fun c => ⟨fun hx => hx.2, fun hx => ⟨?_, hx⟩⟩)
    exact (mem_group hT).mpr hx.2.beyond.inWeek
  | false =>
    rw [keepGroup_unchained hc, List.mem_append, List.mem_map, or_comm]
    simp only [inWeekStays, hc, Bool.false_eq_true, if_false, Set.mem_ofPred_eq, mem_chosen h hT,
      and_comm]

theorem afterWeeks_eq (n : ℕ) : {x | x ∈ (List.range n).foldl (keepGroup list tokens s) keep} =
    afterWeeks list T s {x | x ∈ keep} n := by
  induction n with
  | zero => rfl
  | succ n ih =>
    rw [afterWeeks, ← ih, List.range_succ, List.foldl_append]
    ext x
    exact mem_keepGroup_iff h hT hlen

theorem afterStrategies_eq (ss : List BundleStrategy) :
    {x | x ∈ ss.foldl (keepStrategy list tokens) keep} =
      afterStrategies list T ss {x | x ∈ keep} := by
  induction ss generalizing keep with
  | nil => rfl
  | cons s ss ih =>
    rw [List.foldl_cons, afterStrategies, ih, keepStrategy, afterWeeks_eq h hT hlen, hlen]

end Steps

theorem stays_iff {cfg : BundlesConfig} {list : List BundleEntry} {x : String}
    (h : Distinct list) : Stays cfg list x ↔ x ∈ keepIds cfg list := by
  have hstarts : weekStarts cfg list = {t | t ∈ fullTokens list (keptFulls cfg list)} :=
    Set.ext fun t => mem_weekStarts h
  have hfulls : {x | FullStays cfg list x} = {x | x ∈ keptFulls cfg list} :=
    Set.ext fun x => fullStays_iff h
  rw [Stays, hstarts, hfulls,
    ← afterStrategies_eq h (fun b => groupOf_eq_weekOf) ncard_fullTokens.symm, keepIds_eq]
  rfl

end Walgit.Bundles
