import Walgit.Bundles

/-!
# What retention keeps

Retention decides the fulls first, then every incremental strategy in the
order of the configuration, group by group. Each step only adds ids, and what
it adds depends on the kept bundles alone. So the same steps, run on the kept
list, keep the same ids again.
-/

namespace Walgit.Bundles

section Sorting

variable {α : Type} {r : α → α → Prop} [DecidableRel r] {p : α → Bool} {a : α} {l : List α}

theorem orderedInsert_of_forall (h : ∀ b ∈ l, r a b) : l.orderedInsert r a = a :: l := by
  cases l with
  | nil => rfl
  | cons b l => exact List.orderedInsert_cons_of_le _ _ (h b List.mem_cons_self)

theorem filter_orderedInsert [IsTrans α r] (hl : l.Pairwise r) :
    (l.orderedInsert r a).filter p =
      if p a then (l.filter p).orderedInsert r a else l.filter p := by
  induction l with
  | nil => by_cases ha : p a <;> simp [ha]
  | cons b l ih =>
    obtain ⟨hb, hl⟩ := List.pairwise_cons.mp hl
    by_cases hab : r a b
    · have hle : ∀ c ∈ (b :: l).filter p, r a c := by
        intro c hc
        rcases List.mem_cons.mp (List.mem_filter.mp hc).1 with rfl | hc
        · exact hab
        · exact IsTrans.trans _ _ _ hab (hb c hc)
      rw [List.orderedInsert_cons_of_le _ _ hab, orderedInsert_of_forall hle]
      by_cases ha : p a <;> simp [ha]
    · rw [List.orderedInsert_of_not_le _ _ hab, List.filter_cons, ih hl, List.filter_cons]
      by_cases hp : p b
      · rw [if_pos hp, if_pos hp, List.orderedInsert_of_not_le _ _ hab]
        split_ifs <;> rfl
      · rw [if_neg hp, if_neg hp]

theorem filter_insertionSort [IsTrans α r] [Std.Total r] (l : List α) :
    (l.insertionSort r).filter p = (l.filter p).insertionSort r := by
  induction l with
  | nil => rfl
  | cons a l ih =>
    rw [List.insertionSort_cons, filter_orderedInsert (List.pairwise_insertionSort r l), ih,
      List.filter_cons]
    by_cases ha : p a <;> simp [ha]

theorem filter_swap {q : α → Bool} : (l.filter p).filter q = (l.filter q).filter p := by
  rw [List.filter_filter, List.filter_filter]
  congr 1
  funext b
  exact Bool.and_comm _ _

theorem take_filter {n : ℕ} (h : ∀ x ∈ l.take n, p x = true) : (l.filter p).take n = l.take n := by
  induction l generalizing n with
  | nil => rfl
  | cons a l ih =>
    cases n with
    | zero => rfl
    | succ n =>
      rw [List.take_succ_cons, List.forall_mem_cons] at h
      rw [List.filter_cons, if_pos h.1, List.take_succ_cons, List.take_succ_cons, ih h.2]

theorem le_newest {l : List ℕ} {n : ℕ} (h : n ∈ l) : n ≤ l.max?.getD 0 := by
  cases hmax : l.max? with
  | none => simp [List.max?_eq_none_iff.mp hmax] at h
  | some m => exact (List.max?_eq_some_iff.mp hmax).2 n h

theorem newest_mem {l : List ℕ} (h : 0 < l.max?.getD 0) : l.max?.getD 0 ∈ l := by
  cases hmax : l.max? with
  | none => simp [hmax] at h
  | some m => exact (List.max?_eq_some_iff.mp hmax).1

end Sorting

section Entries

variable {list : List BundleEntry} {n : String} {p : BundleEntry → Bool} {b : BundleEntry}

instance : Std.Total fun a b : BundleEntry => a.creationToken ≤ b.creationToken :=
  ⟨fun _ _ => le_total _ _⟩

instance : IsTrans BundleEntry fun a b => a.creationToken ≤ b.creationToken :=
  ⟨fun _ _ _ => le_trans⟩

theorem entriesOf_filter : entriesOf (list.filter p) n = (entriesOf list n).filter p := by
  rw [entriesOf, entriesOf, filter_insertionSort, filter_swap]

theorem mem_entriesOf : b ∈ entriesOf list n ↔ b ∈ list ∧ b.strategy = n := by
  rw [entriesOf, List.mem_insertionSort, List.mem_filter, decide_eq_true_eq]

theorem entriesOf_sorted :
    (entriesOf list n).Pairwise fun a b => a.creationToken ≤ b.creationToken :=
  List.pairwise_insertionSort _ _

end Entries

section Steps

variable {list : List BundleEntry} {tokens : List ℕ} {s : BundleStrategy} {keep kept : List String}
  {g n : ℕ} {ok first first' : Bool} {bs : List BundleEntry} {x : String}

/-- The token of the newest kept bundle of the base strategy in a group. -/
def baseNewest (list : List BundleEntry) (tokens : List ℕ) (s : BundleStrategy)
    (keep : List String) (g : ℕ) : ℕ :=
  s.base.elim 0 fun n =>
    (((entriesOf list n).filter fun b => b.id ∈ keep ∧ groupOf tokens b = g).map
      BundleEntry.creationToken).max?.getD 0

def groupEntries (list : List BundleEntry) (tokens : List ℕ) (s : BundleStrategy) (g : ℕ) :
    List BundleEntry := (entriesOf list s.name).filter fun b => groupOf tokens b = g

/-- The bundles an unchained strategy keeps in a group. -/
def chosen (list : List BundleEntry) (tokens : List ℕ) (s : BundleStrategy) (keep : List String)
    (g : ℕ) : List BundleEntry :=
  ((groupEntries list tokens s g).reverse.filter fun b => b.baseId = "" ∨ b.baseId ∈ keep).take
    incrementalsKept

theorem keepGroup_chained (h : s.chain = true) : keepGroup list tokens s keep g =
    keepChain (baseNewest list tokens s keep g) (g < tokens.length) true keep
      (groupEntries list tokens s g) := by
  rw [keepGroup, if_pos h]
  rfl

theorem keepGroup_unchained (h : s.chain = false) : keepGroup list tokens s keep g =
    (chosen list tokens s keep g).map BundleEntry.id ++ keep := by
  rw [keepGroup, if_neg (by simp [h])]
  rfl

theorem subset_keepChain (h : x ∈ keep) : x ∈ keepChain n ok first keep bs := by
  induction bs generalizing first keep with
  | nil => exact h
  | cons b bs ih =>
    rw [keepChain]
    split_ifs
    · exact ih h
    · exact ih (List.mem_cons_of_mem _ h)
    · exact ih h

theorem subset_keepGroup (h : x ∈ keep) : x ∈ keepGroup list tokens s keep g := by
  cases hc : s.chain with
  | true =>
    rw [keepGroup_chained hc]
    exact subset_keepChain h
  | false =>
    rw [keepGroup_unchained hc]
    exact List.mem_append_right _ h

theorem keepChain_first (h : (first && ok) = (first' && ok)) :
    keepChain n ok first keep bs = keepChain n ok first' keep bs := by
  induction bs generalizing first first' keep with
  | nil => rfl
  | cons b bs ih =>
    have hiff : (first = true ∧ ok = true) ↔ (first' = true ∧ ok = true) := by
      rw [← Bool.and_eq_true, ← Bool.and_eq_true, h]
    simp only [keepChain, hiff]
    rw [ih h]

theorem keepChain_filter (h : ∀ x ∈ keepChain n ok first keep bs, x ∈ kept) :
    keepChain n ok first keep (bs.filter fun b => b.id ∈ kept) =
      keepChain n ok first keep bs := by
  induction bs generalizing first keep with
  | nil => rfl
  | cons b bs ih =>
    rw [List.filter_cons]
    rw [keepChain] at h
    split_ifs at h with hle hanchor
    · have hskip : keepChain n ok first keep (b :: bs) = keepChain n ok first keep bs := by
        rw [keepChain, if_pos hle]
      split_ifs
      · rw [keepChain, if_pos hle, hskip, ih h]
      · rw [hskip, ih h]
    · have hb : b.id ∈ kept := h _ (subset_keepChain List.mem_cons_self)
      rw [if_pos (by simpa using hb), keepChain, keepChain, if_neg hle, if_neg hle, if_pos hanchor,
        if_pos hanchor, ih h]
    · have hskip : keepChain n ok first keep (b :: bs) = keepChain n ok false keep bs := by
        rw [keepChain, if_neg hle, if_neg hanchor]
      have hfirst : (first && ok) = (false && ok) := by
        cases first <;> cases ok <;> simp_all
      split_ifs
      · rw [keepChain, if_neg hle, if_neg hanchor, hskip, ih h]
      · rw [hskip, keepChain_first hfirst, ih h]

theorem groupEntries_filter {p : BundleEntry → Bool} :
    groupEntries (list.filter p) tokens s g = (groupEntries list tokens s g).filter p := by
  rw [groupEntries, groupEntries, entriesOf_filter, filter_swap]

theorem baseNewest_filter (h : ∀ x ∈ keep, x ∈ kept) :
    baseNewest (list.filter fun b => b.id ∈ kept) tokens s keep g =
      baseNewest list tokens s keep g := by
  unfold baseNewest
  congr 1
  funext n
  rw [entriesOf_filter, List.filter_filter]
  congr 3
  refine List.filter_congr fun b _ => ?_
  by_cases hb : b.id ∈ keep
  · simp [hb, h _ hb]
  · simp [hb]

theorem chosen_filter (h : ∀ b ∈ chosen list tokens s keep g, b.id ∈ kept) :
    chosen (list.filter fun b => b.id ∈ kept) tokens s keep g = chosen list tokens s keep g := by
  rw [chosen, groupEntries_filter, ← List.filter_reverse, filter_swap]
  exact take_filter fun b hb => decide_eq_true (h b hb)

theorem keepGroup_filter (h : ∀ x ∈ keepGroup list tokens s keep g, x ∈ kept) :
    keepGroup (list.filter fun b => b.id ∈ kept) tokens s keep g =
      keepGroup list tokens s keep g := by
  have hkeep : ∀ x ∈ keep, x ∈ kept := fun x hx => h x (subset_keepGroup hx)
  cases hc : s.chain with
  | true =>
    rw [keepGroup_chained hc] at h
    rw [keepGroup_chained hc, keepGroup_chained hc, baseNewest_filter hkeep, groupEntries_filter,
      keepChain_filter h]
  | false =>
    rw [keepGroup_unchained hc] at h
    rw [keepGroup_unchained hc, keepGroup_unchained hc, chosen_filter fun b hb =>
      h _ (List.mem_append_left _ (List.mem_map_of_mem hb))]

end Steps

section Passes

variable {cfg : BundlesConfig} {list : List BundleEntry} {tokens : List ℕ} {s : BundleStrategy}
  {keep kept : List String} {x : String} {b : BundleEntry}

/-- One incremental strategy, group by group. -/
def keepStrategy (list : List BundleEntry) (tokens : List ℕ) (keep : List String)
    (s : BundleStrategy) : List String :=
  (List.range (tokens.length + 1)).foldl (keepGroup list tokens s) keep

theorem subset_foldl {α : Type} {f : List String → α → List String}
    (hf : ∀ keep a x, x ∈ keep → x ∈ f keep a) {l : List α} {keep : List String} (h : x ∈ keep) :
    x ∈ l.foldl f keep := by
  induction l generalizing keep with
  | nil => exact h
  | cons a l ih => exact ih (hf keep a x h)

theorem mem_foldl {α : Type} {f : List String → α → List String}
    (hf : ∀ keep a x, x ∈ keep → x ∈ f keep a) {l : List α} {keep : List String}
    (h : x ∈ l.foldl f keep) :
    x ∈ keep ∨ ∃ a ∈ l, ∃ mid, (∀ y ∈ keep, y ∈ mid) ∧ (∀ y ∈ f mid a, y ∈ l.foldl f keep) ∧
      x ∉ mid ∧ x ∈ f mid a := by
  induction l generalizing keep with
  | nil => exact .inl h
  | cons a l ih =>
    rcases ih h with hx | ⟨c, hc, mid, hsub, hstep, hnot, hx⟩
    · by_cases hk : x ∈ keep
      · exact .inl hk
      · refine .inr ⟨a, List.mem_cons_self, keep, fun _ hy => hy, fun y hy => ?_, hk, hx⟩
        rw [List.foldl_cons]
        exact subset_foldl hf hy
    · exact .inr ⟨c, List.mem_cons_of_mem a hc, mid, fun y hy => hsub y (hf _ _ _ hy), hstep,
        hnot, hx⟩

/-- Steps on two lists that agree as long as they stay within a set. -/
theorem foldl_agree {α : Type} {f f' : List String → α → List String}
    (hf : ∀ keep a x, x ∈ keep → x ∈ f keep a) {l : List α} {keep : List String}
    (hagree : ∀ keep a, (∀ x ∈ f keep a, x ∈ kept) → f' keep a = f keep a)
    (h : ∀ x ∈ l.foldl f keep, x ∈ kept) : l.foldl f' keep = l.foldl f keep := by
  induction l generalizing keep with
  | nil => rfl
  | cons a l ih =>
    rw [List.foldl_cons] at h
    rw [List.foldl_cons, List.foldl_cons, hagree keep a fun x hx => h x (subset_foldl hf hx), ih h]

theorem subset_keepStrategy (h : x ∈ keep) : x ∈ keepStrategy list tokens keep s :=
  subset_foldl (fun _ _ _ hx => subset_keepGroup hx) h

theorem keepStrategy_filter (h : ∀ x ∈ keepStrategy list tokens keep s, x ∈ kept) :
    keepStrategy (list.filter fun b => b.id ∈ kept) tokens keep s =
      keepStrategy list tokens keep s :=
  foldl_agree (fun _ _ _ hx => subset_keepGroup hx) (fun _ _ hx => keepGroup_filter hx) h

theorem keepIds_eq : keepIds cfg list = (cfg.filter fun s => s.kind = .incremental).foldl
    (keepStrategy list (fullTokens list (keptFulls cfg list))) (keptFulls cfg list) := rfl

theorem keptFulls_subset (h : x ∈ keptFulls cfg list) : x ∈ keepIds cfg list :=
  subset_foldl (fun _ _ _ hx => subset_keepStrategy hx) h

theorem mem_keptFulls : x ∈ keptFulls cfg list ↔ ∃ s ∈ cfg, s.kind = .full ∧
    ∃ b ∈ (entriesOf list s.name).reverse.take (max s.keep 1), b.id = x := by
  simp only [keptFulls, List.mem_flatMap, List.mem_filter, decide_eq_true_eq, List.mem_map,
    and_assoc]

theorem keptFulls_filter (h : ∀ x ∈ keptFulls cfg list, x ∈ kept) :
    keptFulls cfg (list.filter fun b => b.id ∈ kept) = keptFulls cfg list := by
  rw [keptFulls, keptFulls]
  refine List.flatMap_congr fun s hs => ?_
  obtain ⟨hs, hkind⟩ := List.mem_filter.mp hs
  rw [entriesOf_filter, ← List.filter_reverse, take_filter]
  intro b hb
  exact decide_eq_true (h _ (mem_keptFulls.mpr ⟨s, hs, by simpa using hkind, b, hb, rfl⟩))

theorem fullTokens_filter (h : ∀ x ∈ keep, x ∈ kept) :
    fullTokens (list.filter fun b => b.id ∈ kept) keep = fullTokens list keep := by
  rw [fullTokens, fullTokens, List.filter_filter]
  congr 3
  refine List.filter_congr fun b _ => ?_
  by_cases hb : b.id ∈ keep
  · simp [hb, h _ hb]
  · simp [hb]

theorem keepIds_retain : keepIds cfg (retain cfg list) = keepIds cfg list := by
  have hfulls : keptFulls cfg (retain cfg list) = keptFulls cfg list :=
    keptFulls_filter fun _ => keptFulls_subset
  rw [keepIds_eq, hfulls, retain, fullTokens_filter fun _ => keptFulls_subset]
  exact foldl_agree (fun _ _ _ hx => subset_keepStrategy hx) (fun _ _ hx => keepStrategy_filter hx)
    fun _ hx => hx

end Passes

section Links

variable {cfg : BundlesConfig} {list : List BundleEntry} {tokens : List ℕ} {s : BundleStrategy}
  {keep kept : List String} {x : String} {b c : BundleEntry} {g n : ℕ} {ok first : Bool}
  {bs : List BundleEntry}

theorem mem_keepChain (h : x ∈ keepChain n ok first keep bs) :
    x ∈ keep ∨ ∃ pre b post, bs = pre ++ b :: post ∧ b.id = x ∧ n < b.creationToken ∧
      (b.baseId = "" ∨ b.baseId ∈ keepChain n ok first keep bs ∨
        first = true ∧ ∀ d ∈ pre, d.creationToken ≤ n) := by
  induction bs generalizing first keep with
  | nil => exact .inl h
  | cons a bs ih =>
    rw [keepChain] at h ⊢
    split_ifs at h ⊢ with hle hanchor
    · rcases ih h with hx | ⟨pre, b, post, rfl, hid, hlt, hb⟩
      · exact .inl hx
      · refine .inr ⟨a :: pre, b, post, rfl, hid, hlt, hb.imp_right fun hb => hb.imp_right ?_⟩
        exact fun hb => ⟨hb.1, List.forall_mem_cons.mpr ⟨hle, hb.2⟩⟩
    · rcases ih h with hx | ⟨pre, b, post, rfl, hid, hlt, hb⟩
      · rcases List.mem_cons.mp hx with rfl | hx
        · refine .inr ⟨[], a, bs, rfl, rfl, by omega, hanchor.imp_right fun hb => ?_⟩
          rcases hb with hb | hb
          · exact .inl (subset_keepChain (List.mem_cons_of_mem _ hb))
          · exact .inr ⟨hb.1, nofun⟩
        · exact .inl hx
      · refine .inr ⟨a :: pre, b, post, rfl, hid, hlt, hb.imp_right fun hb => ?_⟩
        rcases hb with hb | hb
        · exact .inl hb
        · cases hb.1
    · rcases ih h with hx | ⟨pre, b, post, rfl, hid, hlt, hb⟩
      · exact .inl hx
      · refine .inr ⟨a :: pre, b, post, rfl, hid, hlt, hb.imp_right fun hb => ?_⟩
        rcases hb with hb | hb
        · exact .inl hb
        · cases hb.1

theorem le_baseNewest {e : BundleEntry} (hs : s.base = some e.strategy) (he : e ∈ list)
    (hkeep : e.id ∈ keep) : e.creationToken ≤ baseNewest list tokens s keep (groupOf tokens e) := by
  rw [baseNewest, hs, Option.elim_some]
  exact le_newest (List.mem_map_of_mem
    (List.mem_filter.mpr ⟨mem_entriesOf.mpr ⟨he, rfl⟩, by simp [hkeep]⟩))

theorem baseNewest_spec (h : 0 < baseNewest list tokens s keep g) : ∃ e ∈ list,
    s.base = some e.strategy ∧ e.id ∈ keep ∧ groupOf tokens e = g ∧
      e.creationToken = baseNewest list tokens s keep g := by
  unfold baseNewest at h ⊢
  cases hs : s.base with
  | none => simp [hs] at h
  | some n =>
    rw [hs, Option.elim_some] at h
    obtain ⟨e, he, htoken⟩ := List.mem_map.mp (newest_mem h)
    obtain ⟨he, hin⟩ := List.mem_filter.mp he
    obtain ⟨hlist, rfl⟩ := mem_entriesOf.mp he
    obtain ⟨hkeep, hg⟩ : e.id ∈ keep ∧ groupOf tokens e = g := by simpa using hin
    exact ⟨e, hlist, rfl, hkeep, hg, htoken⟩

theorem mem_groupEntries : b ∈ groupEntries list tokens s g ↔
    b ∈ list ∧ b.strategy = s.name ∧ groupOf tokens b = g := by
  rw [groupEntries, List.mem_filter, mem_entriesOf, decide_eq_true_eq, and_assoc]

/-- Why one step keeps a bundle, in terms of the ids it has kept in the end. -/
structure KeptBy (list : List BundleEntry) (tokens : List ℕ) (s : BundleStrategy)
    (keep : List String) (g : ℕ) (c : BundleEntry) : Prop where
  mem : c ∈ groupEntries list tokens s g
  base : c.baseId = "" ∨ c.baseId ∈ keepGroup list tokens s keep g ∨
    s.chain = true ∧ ∀ d ∈ groupEntries list tokens s g, d.creationToken < c.creationToken →
      d.creationToken ≤ baseNewest list tokens s keep g
  newer : s.chain = true → baseNewest list tokens s keep g < c.creationToken

theorem mem_keepGroup (h : x ∈ keepGroup list tokens s keep g) :
    x ∈ keep ∨ ∃ c, c.id = x ∧ KeptBy list tokens s keep g c := by
  cases hc : s.chain with
  | true =>
    rw [keepGroup_chained hc] at h
    rcases mem_keepChain h with hx | ⟨pre, c, post, heq, hid, hlt, hbase⟩
    · exact .inl hx
    · have hmem : c ∈ groupEntries list tokens s g := heq ▸ List.mem_append_cons_self
      refine .inr ⟨c, hid, hmem, ?_, fun _ => hlt⟩
      rw [keepGroup_chained hc]
      refine hbase.imp_right fun hb => hb.imp_right fun hb => ⟨hc, fun d hd hdc => ?_⟩
      -- The entries are in token order, so an older one stands before.
      have hsorted := List.Pairwise.filter (fun b => decide (groupOf tokens b = g))
        (@entriesOf_sorted list s.name)
      rw [← groupEntries, heq] at hsorted
      rw [heq] at hd
      rcases List.mem_append.mp hd with hd | hd
      · exact hb.2 d hd
      · have hle := List.pairwise_cons.mp (List.pairwise_append.mp hsorted).2.1
        rcases List.mem_cons.mp hd with rfl | hd
        · omega
        · exact absurd (hle.1 d hd) (by omega)
  | false =>
    rw [keepGroup_unchained hc] at h
    rcases List.mem_append.mp h with h | h
    · obtain ⟨c, hchosen, hid⟩ := List.mem_map.mp h
      obtain ⟨hmem, hbase⟩ := List.mem_filter.mp (List.mem_of_mem_take hchosen)
      refine .inr ⟨c, hid, List.mem_reverse.mp hmem, ?_, by simp [hc]⟩
      rcases of_decide_eq_true hbase with hb | hb
      · exact .inl hb
      · exact .inr (.inl (subset_keepGroup hb))
    · exact .inl h

theorem mem_keepIds (h : x ∈ keepIds cfg list) : x ∈ keptFulls cfg list ∨
    ∃ s ∈ cfg, s.kind = .incremental ∧ ∃ keep g c, c.id = x ∧
      (∀ y ∈ keptFulls cfg list, y ∈ keep) ∧
      (∀ y ∈ keepGroup list (fullTokens list (keptFulls cfg list)) s keep g,
        y ∈ keepIds cfg list) ∧
      KeptBy list (fullTokens list (keptFulls cfg list)) s keep g c := by
  rw [keepIds_eq] at h
  rcases mem_foldl (fun _ _ _ hx => subset_keepStrategy hx) h with hx | hx
  · exact .inl hx
  obtain ⟨s, hs, mid, hfulls, hsub, hnot, hx⟩ := hx
  rcases mem_foldl (fun _ _ _ hx => subset_keepGroup hx) hx with hx | hx
  · exact absurd hx hnot
  obtain ⟨g, -, mid', hmid, hsub', hnot', hx⟩ := hx
  rcases mem_keepGroup hx with hx | ⟨c, hid, hc⟩
  · exact absurd hx hnot'
  obtain ⟨hs, hkind⟩ := List.mem_filter.mp hs
  exact .inr ⟨s, hs, by simpa using hkind, mid', g, c, hid, fun y hy => hmid y (hfulls y hy),
    fun y hy => hsub y (hsub' y hy), hc⟩

end Links

section Soundness

variable (cfg : BundlesConfig) (list : List BundleEntry)

/-- The entries whose keys `retain` returns. -/
def dropped : List BundleEntry := list.filter fun b => b.id ∉ keepIds cfg list

/-- The group of a bundle: the full before it, of those that are kept. -/
def group (b : BundleEntry) : ℕ := groupOf (fullTokens list (keptFulls cfg list)) b

/-- The bundle is newer than the oldest of the fulls that are kept. -/
def AfterFull (c : BundleEntry) : Prop :=
  ∃ F ∈ list, F.id ∈ keptFulls cfg list ∧ F.baseId = "" ∧ F.creationToken < c.creationToken

/-- An older link of the same group is no newer than a kept bundle of the base strategy. -/
def FirstLink (s : BundleStrategy) (c : BundleEntry) : Prop :=
  s.chain = true ∧ ∀ d ∈ list, d.strategy = s.name → group cfg list d = group cfg list c →
    d.creationToken < c.creationToken → d.creationToken = 0 ∨
      ∃ e ∈ retain cfg list, s.base = some e.strategy ∧ group cfg list e = group cfg list c ∧
        d.creationToken ≤ e.creationToken

/-- What holds of a kept incremental. Without a kept full before it, the first link of a group may
lack its base. -/
structure Linked (s : BundleStrategy) (c : BundleEntry) : Prop where
  newer : s.chain = true → ∀ F ∈ list, F.id ∈ keptFulls cfg list → s.base = some F.strategy →
    group cfg list F = group cfg list c → F.creationToken < c.creationToken
  unchained : s.chain = false → c.baseId = "" ∨ ∃ e ∈ retain cfg list, e.id = c.baseId
  base : AfterFull cfg list c →
    c.baseId = "" ∨ (∃ e ∈ retain cfg list, e.id = c.baseId) ∨ FirstLink cfg list s c

variable {cfg list} {x : String} {s : BundleStrategy} {c : BundleEntry} {keep : List String} {g : ℕ}

theorem exists_kept (h : x ∈ keepIds cfg list) : ∃ b ∈ retain cfg list, b.id = x := by
  have hlisted : ∃ b ∈ list, b.id = x := by
    rcases mem_keepIds h with hx | ⟨s, -, -, keep, g, c, hid, -, -, hc⟩
    · obtain ⟨s, -, -, b, hb, hid⟩ := mem_keptFulls.mp hx
      exact ⟨b, (mem_entriesOf.mp (List.mem_reverse.mp (List.mem_of_mem_take hb))).1, hid⟩
    · exact ⟨c, (mem_groupEntries.mp hc.mem).1, hid⟩
  obtain ⟨b, hb, rfl⟩ := hlisted
  exact ⟨b, mem_retain.mpr ⟨hb, h⟩, rfl⟩

theorem KeptBy.linked (hc : KeptBy list (fullTokens list (keptFulls cfg list)) s keep g c)
    (hfulls : ∀ y ∈ keptFulls cfg list, y ∈ keep)
    (hsub : ∀ y ∈ keepGroup list (fullTokens list (keptFulls cfg list)) s keep g,
      y ∈ keepIds cfg list) : Linked cfg list s c := by
  obtain ⟨-, -, rfl⟩ := mem_groupEntries.mp hc.mem
  refine ⟨fun hchain F hF hkept hs hgroup => ?_, fun hchain => hc.base.imp_right fun hbase => ?_,
    fun _ => hc.base.imp_right fun hbase => ?_⟩
  · have hle : F.creationToken ≤ baseNewest list _ s keep (group cfg list F) :=
      le_baseNewest hs hF (hfulls _ hkept)
    have hnew := hc.newer hchain
    rw [hgroup] at hle
    exact hle.trans_lt hnew
  · rcases hbase with hb | ⟨hchained, -⟩
    · exact exists_kept (hsub _ hb)
    · exact absurd hchained (by simp [hchain])
  · rcases hbase with hb | ⟨hchain, hfirst⟩
    · exact .inl (exists_kept (hsub _ hb))
    · refine .inr ⟨hchain, fun d hd hstrategy hgroup hlt => ?_⟩
      have hle := hfirst d (mem_groupEntries.mpr ⟨hd, hstrategy, hgroup⟩) hlt
      rcases Nat.eq_zero_or_pos d.creationToken with hzero | hpos
      · exact .inl hzero
      · obtain ⟨e, he, hs, hkeep, hg, htoken⟩ := baseNewest_spec (hpos.trans_le hle)
        exact .inr ⟨e, mem_retain.mpr ⟨he, hsub _ (subset_keepGroup hkeep)⟩, hs, hg,
          hle.trans htoken.ge⟩

def cut (id strategy : String) (token : ℕ) (baseId : String) : BundleEntry :=
  ⟨id, id, strategy, token, token, 0, baseId, []⟩

end Soundness

end Walgit.Bundles
