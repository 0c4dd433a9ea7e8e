import Walgit.BundleConfig
import Walgit.Lib.Commuting
import Walgit.Retention

/-!
# Retention and the order of the configuration

An incremental strategy reads the ids that are kept when its turn comes: those
its own bundles name as their base, and those of its base strategy. It adds ids
of its own bundles. Two orders of the strategies keep the same bundles when
they agree on every pair in which one reads what the other adds. Validation
does not ask for the order that the bases give, so with two incrementals some
list is pruned differently in another order.
-/

namespace Walgit.Bundles

open Orders

section Frame

variable {list : List BundleEntry} {tokens : List ℕ} {s u : BundleStrategy}
  {keep keep' : List String} {g n n' : ℕ} {ok first : Bool} {bs : List BundleEntry} {x : String}

/-- The ids whose keeping decides what a strategy keeps. -/
def Reads (list : List BundleEntry) (s : BundleStrategy) (x : String) : Prop :=
  (∃ c ∈ list, c.strategy = s.name ∧ c.baseId = x) ∨
    ∃ e ∈ list, s.base = some e.strategy ∧ e.id = x

/-- The ids a strategy may add. -/
def Writes (list : List BundleEntry) (s : BundleStrategy) (x : String) : Prop :=
  ∃ c ∈ list, c.strategy = s.name ∧ c.id = x

/-- One of two strategies reads what the other may add. -/
def Dependent (list : List BundleEntry) (s u : BundleStrategy) : Prop :=
  ∃ x, Reads list s x ∧ Writes list u x ∨ Reads list u x ∧ Writes list s x

/-- The lists hold the same ids among those that the strategy reads. -/
def AgreeOn (p : String → Prop) (keep keep' : List String) : Prop :=
  ∀ x, p x → (x ∈ keep ↔ x ∈ keep')

/-- Two results of a step: each has added the same ids, all of them the strategy's. -/
def SameAdded (p : String → Prop) (keep keep' after after' : List String) : Prop :=
  ∃ new : List String, (∀ x ∈ new, p x) ∧ (∀ x, x ∈ after ↔ x ∈ new ∨ x ∈ keep) ∧
    ∀ x, x ∈ after' ↔ x ∈ new ∨ x ∈ keep'

theorem AgreeOn.extend {p q : String → Prop} {after after' : List String}
    (h : AgreeOn p keep keep') (hadd : SameAdded q keep keep' after after') :
    AgreeOn p after after' := by
  obtain ⟨new, -, hafter, hafter'⟩ := hadd
  intro x hx
  rw [hafter, hafter', h x hx]

theorem SameAdded.refl {p : String → Prop} : SameAdded p keep keep' keep keep' :=
  ⟨[], nofun, fun x => by simp, fun x => by simp⟩

theorem SameAdded.trans {p : String → Prop} {mid mid' after after' : List String}
    (h : SameAdded p keep keep' mid mid') (h' : SameAdded p mid mid' after after') :
    SameAdded p keep keep' after after' := by
  obtain ⟨new, hnew, hmid, hmid'⟩ := h
  obtain ⟨more, hmore, hafter, hafter'⟩ := h'
  refine ⟨more ++ new, ?_, fun x => ?_, fun x => ?_⟩
  · intro x hx
    exact (List.mem_append.mp hx).elim (hmore x) (hnew x)
  · rw [hafter, hmid, List.mem_append, or_assoc]
  · rw [hafter', hmid', List.mem_append, or_assoc]

theorem SameAdded.cons {p : String → Prop} (hx : p x) :
    SameAdded p keep keep' (x :: keep) (x :: keep') :=
  ⟨[x], by simpa using hx, fun y => by simp, fun y => by simp⟩

theorem keepChain_frame {p : String → Prop} (hp : ∀ b ∈ bs, p b.id)
    (hbase : ∀ b ∈ bs, b.baseId ∈ keep ↔ b.baseId ∈ keep') :
    SameAdded p keep keep' (keepChain n ok first keep bs) (keepChain n ok first keep' bs) := by
  induction bs generalizing first keep keep' with
  | nil => exact .refl
  | cons b bs ih =>
    rw [List.forall_mem_cons] at hp hbase
    have hanchor : (b.baseId = "" ∨ b.baseId ∈ keep ∨ first = true ∧ ok = true) ↔
        (b.baseId = "" ∨ b.baseId ∈ keep' ∨ first = true ∧ ok = true) := by
      rw [hbase.1]
    rw [keepChain, keepChain]
    by_cases hle : b.creationToken ≤ n
    · rw [if_pos hle, if_pos hle]
      exact ih hp.2 hbase.2
    · rw [if_neg hle, if_neg hle]
      by_cases hb : b.baseId = "" ∨ b.baseId ∈ keep ∨ first = true ∧ ok = true
      · rw [if_pos hb, if_pos (hanchor.mp hb)]
        refine (SameAdded.cons hp.1).trans (ih hp.2 fun c hc => ?_)
        rw [List.mem_cons, List.mem_cons, hbase.2 c hc]
      · rw [if_neg hb, if_neg fun h => hb (hanchor.mpr h)]
        exact ih hp.2 hbase.2

theorem baseNewest_frame (h : AgreeOn (Reads list s) keep keep') :
    baseNewest list tokens s keep g = baseNewest list tokens s keep' g := by
  unfold baseNewest
  cases hs : s.base with
  | none => rfl
  | some name =>
    rw [Option.elim_some, Option.elim_some]
    congr 3
    refine List.filter_congr fun e he => ?_
    obtain ⟨hmem, rfl⟩ := mem_entriesOf.mp he
    exact decide_eq_decide.mpr (and_congr_left' (h e.id (.inr ⟨e, hmem, hs, rfl⟩)))

theorem chosen_frame (h : AgreeOn (Reads list s) keep keep') :
    chosen list tokens s keep g = chosen list tokens s keep' g := by
  unfold chosen
  congr 1
  refine List.filter_congr fun c hc => ?_
  obtain ⟨hmem, hstrategy, -⟩ := mem_groupEntries.mp (List.mem_reverse.mp hc)
  exact decide_eq_decide.mpr (or_congr_right (h c.baseId (.inl ⟨c, hmem, hstrategy, rfl⟩)))

theorem keepGroup_frame (h : AgreeOn (Reads list s) keep keep') :
    SameAdded (Writes list s) keep keep' (keepGroup list tokens s keep g)
      (keepGroup list tokens s keep' g) := by
  have hwrites : ∀ b ∈ groupEntries list tokens s g, Writes list s b.id := by
    intro b hb
    obtain ⟨hmem, hstrategy, -⟩ := mem_groupEntries.mp hb
    exact ⟨b, hmem, hstrategy, rfl⟩
  cases hc : s.chain with
  | true =>
    rw [keepGroup_chained hc, keepGroup_chained hc, baseNewest_frame h]
    refine keepChain_frame hwrites fun b hb => ?_
    obtain ⟨hmem, hstrategy, -⟩ := mem_groupEntries.mp hb
    exact h b.baseId (.inl ⟨b, hmem, hstrategy, rfl⟩)
  | false =>
    rw [keepGroup_unchained hc, keepGroup_unchained hc, chosen_frame h]
    refine ⟨_, fun x hx => ?_, fun x => List.mem_append, fun x => List.mem_append⟩
    obtain ⟨b, hb, rfl⟩ := List.mem_map.mp hx
    exact hwrites b (List.mem_reverse.mp (List.mem_filter.mp (List.mem_of_mem_take hb)).1)

theorem keepStrategy_frame (h : AgreeOn (Reads list s) keep keep') :
    SameAdded (Writes list s) keep keep' (keepStrategy list tokens keep s)
      (keepStrategy list tokens keep' s) := by
  unfold keepStrategy
  induction List.range (tokens.length + 1) generalizing keep keep' with
  | nil => exact .refl
  | cons g gs ih =>
    have hstep := @keepGroup_frame list tokens s keep keep' g h
    exact hstep.trans (ih (h.extend hstep))

/-- Kept ids, whatever their order. -/
def SameIds (keep keep' : List String) : Prop := ∀ x, x ∈ keep ↔ x ∈ keep'

theorem sameIds_equivalence : Equivalence SameIds :=
  ⟨fun _ _ => Iff.rfl, fun h x => (h x).symm, fun h h' x => (h x).trans (h' x)⟩

theorem AgreeOn.refl {p : String → Prop} : AgreeOn p keep keep := fun _ _ => Iff.rfl

theorem mem_keepStrategy (h : x ∈ keepStrategy list tokens keep s) :
    x ∈ keep ∨ Writes list s x := by
  obtain ⟨new, hnew, hafter, -⟩ := @keepStrategy_frame list tokens s keep keep .refl
  exact ((hafter x).mp h).symm.imp_right (hnew x)

theorem agreeOn_keepStrategy (h : ∀ x, Reads list s x → ¬ Writes list u x) :
    AgreeOn (Reads list s) keep (keepStrategy list tokens keep u) := fun x hx =>
  ⟨subset_keepStrategy, fun hmem => (mem_keepStrategy hmem).resolve_right (h x hx)⟩

theorem keepStrategy_commuting :
    Commuting SameIds (keepStrategy list tokens) (Dependent list) where
  equivalence := sameIds_equivalence
  congr {keep keep' s} h x := by
    obtain ⟨new, -, hnew, hnew'⟩ := @keepStrategy_frame list tokens s keep keep'
      fun x _ => h x
    rw [hnew, hnew', h x]
  comm {keep s u} h x := by
    have hs : ∀ x, Reads list s x → ¬ Writes list u x := fun x hr hw => h ⟨x, .inl ⟨hr, hw⟩⟩
    have hu : ∀ x, Reads list u x → ¬ Writes list s x := fun x hr hw => h ⟨x, .inr ⟨hr, hw⟩⟩
    obtain ⟨new, -, hs1, hs2⟩ := @keepStrategy_frame list tokens s keep _
      (agreeOn_keepStrategy hs)
    obtain ⟨more, -, hu1, hu2⟩ := @keepStrategy_frame list tokens u keep _
      (agreeOn_keepStrategy hu)
    rw [hu2, hs1, hs2, hu1]
    exact or_left_comm

end Frame

section Agreeing

variable {cfg cfg' : BundlesConfig} {list : List BundleEntry} {tokens : List ℕ}
  {keep keep' : List String} {x : String} {b : BundleEntry}

theorem keptFulls_perm (h : cfg.Perm cfg') :
    SameIds (keptFulls cfg list) (keptFulls cfg' list) := by
  intro x
  rw [mem_keptFulls, mem_keptFulls]
  exact exists_congr fun s => and_congr_left' h.mem_iff

theorem fullTokens_congr (h : SameIds keep keep') :
    fullTokens list keep = fullTokens list keep' := by
  unfold fullTokens
  congr 3
  exact List.filter_congr fun c _ => decide_eq_decide.mpr (and_congr_left' (h c.id))

/-- The incremental strategies, in the order of the configuration. -/
def incrementals (cfg : BundlesConfig) : BundlesConfig := cfg.filter fun s => s.kind = .incremental

/-- The two configurations list dependent strategies in the same order. -/
def SameOrder (list : List BundleEntry) (cfg cfg' : BundlesConfig) : Prop :=
  ∀ s u, Dependent list s u → [s, u].Sublist (incrementals cfg) →
    [s, u].Sublist (incrementals cfg')

theorem keepIds_perm (h : cfg.Perm cfg') (hn : (cfg.map BundleStrategy.name).Nodup)
    (horder : SameOrder list cfg cfg') : SameIds (keepIds cfg list) (keepIds cfg' list) := by
  have hfulls : SameIds (keptFulls cfg list) (keptFulls cfg' list) := keptFulls_perm h
  rw [keepIds_eq, keepIds_eq, fullTokens_congr hfulls]
  exact sameIds_equivalence.trans
    (keepStrategy_commuting.foldl_perm (h.filter _) (hn.of_map.filter _) horder)
    (keepStrategy_commuting.foldl_congr hfulls)

theorem mem_retain_perm (h : cfg.Perm cfg') (hn : (cfg.map BundleStrategy.name).Nodup)
    (horder : SameOrder list cfg cfg') : b ∈ retain cfg list ↔ b ∈ retain cfg' list := by
  rw [mem_retain, mem_retain, keepIds_perm h hn horder b.id]

theorem sameOrder_of_length (h : (incrementals cfg).length ≤ 1) : SameOrder list cfg cfg' := by
  intro s u _ hsub
  have hlen := hsub.length_le
  simp only [List.length_cons, List.length_nil] at hlen
  omega

end Agreeing

section Crossing

variable {A B F s : BundleStrategy} {cfg rest : BundlesConfig} {list : List BundleEntry}
  {tokens : List ℕ} {keep : List String} {x : String} {c : BundleEntry} {g m : ℕ}

theorem baseNewest_le (h : ∀ e ∈ list, s.base = some e.strategy → e.id ∈ keep →
    e.creationToken ≤ m) : baseNewest list tokens s keep g ≤ m := by
  rcases Nat.eq_zero_or_pos (baseNewest list tokens s keep g) with hzero | hpos
  · omega
  · obtain ⟨e, he, hs, hkeep, -, htoken⟩ := baseNewest_spec hpos
    exact htoken ▸ h e he hs hkeep

/-- A full; a bundle of `B` on it; and two of `A`, one on the full, one on the bundle of `B`. -/
def crossing (A B F : BundleStrategy) : List BundleEntry :=
  [cut "f" F.name 10 "", cut "b" B.name 20 "f", cut "a0" A.name 25 "f", cut "a" A.name 30 "b"]

/-- The strategies have names of their own. -/
structure Apart (A B F : BundleStrategy) : Prop where
  ab : A.name ≠ B.name
  af : A.name ≠ F.name
  bf : B.name ≠ F.name

theorem fullTokens_crossing : fullTokens (crossing A B F) ["f"] = [10] := rfl

theorem mem_crossing : c ∈ crossing A B F ↔ c = cut "f" F.name 10 "" ∨ c = cut "b" B.name 20 "f" ∨
    c = cut "a0" A.name 25 "f" ∨ c = cut "a" A.name 30 "b" := by
  simp [crossing]

theorem crossing_base (h : Apart A B F) :
    groupEntries (crossing A B F) [10] B 0 = [cut "b" B.name 20 "f"] := by
  have hb := h.ab
  have hf := h.bf.symm
  simp [groupEntries, entriesOf, crossing, cut, hb, hf, groupOf]

theorem crossing_links (h : Apart A B F) : groupEntries (crossing A B F) [10] A 0 =
    [cut "a0" A.name 25 "f", cut "a" A.name 30 "b"] := by
  have hb := h.ab.symm
  have hf := h.af.symm
  simp [groupEntries, entriesOf, crossing, cut, hb, hf, groupOf]

theorem mem_keepStrategy_group (h : x ∈ keepGroup list [m] s keep 0) :
    x ∈ keepStrategy list [m] keep s :=
  subset_keepGroup h

theorem crossing_keeps_base (h : Apart A B F) :
    "b" ∈ keepStrategy (crossing A B F) [10] ["f"] B := by
  have hle : baseNewest (crossing A B F) [10] B ["f"] 0 ≤ 10 := by
    refine baseNewest_le fun e he _ hkeep => ?_
    rcases mem_crossing.mp he with rfl | rfl | rfl | rfl <;> simp_all [cut]
  refine mem_keepStrategy_group ?_
  cases hc : B.chain with
  | true =>
    rw [keepGroup_chained hc, crossing_base h]
    have hnew : ¬ (cut "b" B.name 20 "f").creationToken ≤
        baseNewest (crossing A B F) [10] B ["f"] 0 := by
      have htoken : (cut "b" B.name 20 "f").creationToken = 20 := rfl
      omega
    rw [keepChain, if_neg hnew, if_pos (.inr (.inl (by simp [cut])))]
    exact List.mem_cons_self
  | false =>
    rw [keepGroup_unchained hc, chosen, crossing_base h]
    simp [cut, incrementalsKept]

theorem crossing_keeps_link (h : Apart A B F) (hf : "f" ∈ keep) (hb : "b" ∈ keep)
    (hids : ∀ x ∈ keep, x = "f" ∨ x = "b") :
    "a" ∈ keepStrategy (crossing A B F) [10] keep A := by
  have hle : baseNewest (crossing A B F) [10] A keep 0 ≤ 20 := by
    refine baseNewest_le fun e he _ hkeep => ?_
    have hid := hids _ hkeep
    rcases mem_crossing.mp he with rfl | rfl | rfl | rfl <;> simp_all [cut]
  refine mem_keepStrategy_group ?_
  cases hc : A.chain with
  | true =>
    rw [keepGroup_chained hc, crossing_links h]
    have htoken : (cut "a0" A.name 25 "f").creationToken = 25 := rfl
    have htoken' : (cut "a" A.name 30 "b").creationToken = 30 := rfl
    rw [keepChain, if_neg (by omega), if_pos (.inr (.inl (by simpa [cut] using hf))), keepChain,
      if_neg (by omega), if_pos (.inr (.inl (by simp [cut, hb])))]
    exact List.mem_cons_self
  | false =>
    rw [keepGroup_unchained hc, chosen, crossing_links h]
    simp [cut, incrementalsKept, hf, hb]

theorem crossing_drops_link (h : Apart A B F) (hbase : A.base ≠ some A.name) :
    "a" ∉ keepStrategy (crossing A B F) [10] ["f"] A := by
  intro hmem
  have hnob : "b" ∉ keepStrategy (crossing A B F) [10] ["f"] A := by
    intro hb
    rcases mem_keepStrategy hb with hb | ⟨c, hc, hstrategy, hid⟩
    · simp at hb
    · have hne := h.ab
      rcases mem_crossing.mp hc with rfl | rfl | rfl | rfl <;> simp_all [cut]
  rcases mem_foldl (fun _ _ _ hx => subset_keepGroup hx) hmem with ha | hstep
  · simp at ha
  obtain ⟨g, -, mid, -, hsub, hnot, ha⟩ := hstep
  rcases mem_keepGroup ha with ha | ⟨c, hid, hc⟩
  · exact hnot ha
  obtain ⟨hlist, -, hg⟩ := mem_groupEntries.mp hc.mem
  obtain rfl : c = cut "a" A.name 30 "b" := by
    rcases mem_crossing.mp hlist with rfl | rfl | rfl | rfl <;> simp_all [cut]
  obtain rfl : 0 = g := hg
  rcases hc.base with hempty | hb | ⟨-, hfirst⟩
  · simp [cut] at hempty
  · exact hnob (hsub _ hb)
  · have hle : baseNewest (crossing A B F) [10] A mid 0 ≤ 20 := by
      refine baseNewest_le fun e he hs _ => ?_
      rcases mem_crossing.mp he with rfl | rfl | rfl | rfl <;> simp_all [cut]
    have hold := hfirst (cut "a0" A.name 25 "f") (by rw [crossing_links h]; simp)
      (by simp [cut])
    have htoken : (cut "a0" A.name 25 "f").creationToken = 25 := rfl
    omega

theorem eq_of_name (hn : (cfg.map BundleStrategy.name).Nodup) (hA : A ∈ cfg) (hB : B ∈ cfg)
    (h : A.name = B.name) : A = B :=
  List.inj_on_of_nodup_map hn hA hB h

/-- The names are distinct, and the three strategies are of the configuration. -/
structure Placed (cfg : BundlesConfig) (A B F : BundleStrategy) : Prop where
  names : (cfg.map BundleStrategy.name).Nodup
  a : A ∈ cfg
  b : B ∈ cfg
  full : F ∈ cfg
  kindA : A.kind = .incremental
  kindB : B.kind = .incremental
  kindF : F.kind = .full
  ne : A ≠ B

theorem Placed.apart (h : Placed cfg A B F) : Apart A B F := by
  have hkind : ∀ {s : BundleStrategy}, s.kind = .incremental → s ≠ F := by
    rintro s hs rfl
    cases hs.symm.trans h.kindF
  exact ⟨fun heq => h.ne (eq_of_name h.names h.a h.b heq),
    fun heq => hkind h.kindA (eq_of_name h.names h.a h.full heq),
    fun heq => hkind h.kindB (eq_of_name h.names h.b h.full heq)⟩

theorem crossing_fulls (h : Placed cfg A B F) :
    SameIds (keptFulls cfg (crossing A B F)) ["f"] := by
  have other : ∀ {s u : BundleStrategy}, s ∈ cfg → u ∈ cfg → s.kind = .full →
      u.kind = .incremental → u.name ≠ s.name := by
    intro s u hs hu hsf hui heq
    rw [eq_of_name h.names hu hs heq, hsf] at hui
    cases hui
  intro x
  rw [mem_keptFulls, List.mem_singleton]
  constructor
  · rintro ⟨s, hs, hkind, c, hc, rfl⟩
    obtain ⟨hlist, hstrategy⟩ := mem_entriesOf.mp (List.mem_reverse.mp (List.mem_of_mem_take hc))
    rcases mem_crossing.mp hlist with rfl | rfl | rfl | rfl
    · rfl
    · exact absurd hstrategy (other hs h.b hkind h.kindB)
    · exact absurd hstrategy (other hs h.a hkind h.kindA)
    · exact absurd hstrategy (other hs h.a hkind h.kindA)
  · rintro rfl
    have hone : entriesOf (crossing A B F) F.name = [cut "f" F.name 10 ""] := by
      have ha := h.apart.af
      have hb := h.apart.bf
      simp [entriesOf, crossing, cut, ha, hb]
    obtain ⟨k, hk⟩ := Nat.exists_eq_add_of_le (le_max_right F.keep 1)
    exact ⟨F, h.full, h.kindF, cut "f" F.name 10 "", by simp [hone, hk, Nat.add_comm 1 k], rfl⟩

theorem mem_strategies_run {l : BundlesConfig} (h : x ∈ l.foldl (keepStrategy list tokens) keep) :
    x ∈ keep ∨ ∃ s ∈ l, Writes list s x := by
  rcases mem_foldl (fun _ _ _ hx => subset_keepStrategy hx) h with hx | hx
  · exact .inl hx
  · obtain ⟨s, hs, mid, -, -, hnot, hx⟩ := hx
    exact .inr ⟨s, hs, (mem_keepStrategy hx).resolve_left hnot⟩

theorem keepIds_crossing (h : Placed cfg A B F) : SameIds (keepIds cfg (crossing A B F))
    ((incrementals cfg).foldl (keepStrategy (crossing A B F) [10]) ["f"]) := by
  have hfulls := crossing_fulls h
  rw [keepIds_eq, fullTokens_congr hfulls, fullTokens_crossing]
  exact keepStrategy_commuting.foldl_congr hfulls

theorem crossing_kept (h : Placed (B :: A :: rest) A B F) :
    cut "a" A.name 30 "b" ∈ retain (B :: A :: rest) (crossing A B F) := by
  refine mem_retain.mpr ⟨by simp [crossing], (keepIds_crossing h _).mpr ?_⟩
  have hlist : incrementals (B :: A :: rest) = B :: A :: incrementals rest := by
    simp [incrementals, h.kindA, h.kindB]
  rw [hlist, List.foldl_cons, List.foldl_cons]
  refine subset_foldl (fun _ _ _ hx => subset_keepStrategy hx) ?_
  refine crossing_keeps_link h.apart (subset_keepStrategy (by simp))
    (crossing_keeps_base h.apart) fun x hx => ?_
  rcases mem_keepStrategy hx with hx | ⟨c, hc, hstrategy, rfl⟩
  · exact .inl (by simpa using hx)
  · have hab := h.apart.ab
    have hbf := h.apart.bf
    rcases mem_crossing.mp hc with rfl | rfl | rfl | rfl <;> simp_all [cut]

theorem crossing_dropped (h : Placed (A :: B :: rest) A B F) (hbase : A.base ≠ some A.name) :
    cut "a" A.name 30 "b" ∉ retain (A :: B :: rest) (crossing A B F) := by
  intro hmem
  have hkeep := (keepIds_crossing h _).mp (mem_retain.mp hmem).2
  have hlist : incrementals (A :: B :: rest) = A :: incrementals (B :: rest) := by
    simp [incrementals, h.kindA]
  rw [hlist, List.foldl_cons] at hkeep
  rcases mem_strategies_run hkeep with hx | ⟨s, hs, c, hc, hstrategy, hid⟩
  · exact crossing_drops_link h.apart hbase hx
  · have hname : A.name = s.name := by
      rcases mem_crossing.mp hc with rfl | rfl | rfl | rfl <;> simp_all [cut]
    have hs' : s ∈ B :: rest := (List.mem_filter.mp hs).1
    obtain ⟨hnot, -⟩ := List.nodup_cons.mp h.names
    exact hnot (hname ▸ List.mem_map_of_mem hs')

end Crossing

section Order

variable {cfg : BundlesConfig} {A B : BundleStrategy} {n : ℕ}

theorem Rooted.exists_full {s : BundleStrategy} (h : Rooted cfg n s) :
    ∃ F ∈ cfg, F.kind = .full := by
  induction n generalizing s with
  | zero => cases h
  | succ n ih =>
    obtain ⟨b, hb, -, hfull | hroot⟩ := h
    · exact ⟨b, hb, hfull⟩
    · exact ih hroot

theorem Rooted.base_ne {s : BundleStrategy} (hn : (cfg.map BundleStrategy.name).Nodup)
    (hs : s ∈ cfg) (hkind : s.kind = .incremental) (h : Rooted cfg n s) :
    s.base ≠ some s.name := by
  intro hself
  induction n with
  | zero => cases h
  | succ n ih =>
    obtain ⟨b, hb, hbase, hfull | hroot⟩ := h
    · have hname : s.name = b.name := Option.some.inj (hself.symm.trans hbase)
      rw [eq_of_name hn hs hb hname, hfull] at hkind
      cases hkind
    · have hname : s.name = b.name := Option.some.inj (hself.symm.trans hbase)
      exact ih (eq_of_name hn hs hb hname ▸ hroot)

theorem exists_front {cfg : List StrategyConfig}
    (h : 2 ≤ (incrementals (strategies cfg)).length) : ∃ (a b : StrategyConfig)
      (rest : List StrategyConfig), a.kind = .incremental ∧ b.kind = .incremental ∧
      cfg.Perm (a :: b :: rest) := by
  let p : StrategyConfig → Bool := fun s => s.kind = .incremental
  have hperm : (cfg.filter p ++ cfg.filter fun s => !p s).Perm cfg := List.filter_append_perm p cfg
  have hlen : (incrementals (strategies cfg)).length = (cfg.filter p).length := by
    rw [incrementals, strategies, List.filter_map, List.length_map]
    rfl
  have hmem : ∀ s ∈ cfg.filter p, s.kind = .incremental := fun s hs =>
    of_decide_eq_true (List.mem_filter.mp hs).2
  rw [hlen] at h
  rcases hl : cfg.filter p with _ | ⟨a, _ | ⟨b, l⟩⟩
  · simp [hl] at h
  · simp [hl] at h
  · rw [hl] at hperm hmem
    exact ⟨a, b, _, hmem a (by simp), hmem b (by simp), hperm.symm⟩

/-- No order of an admitted configuration prunes any list differently exactly when it has one
incremental strategy at most. For a given list, orders that agree on the strategies that read each
other's ids keep the same bundles. -/
theorem retain_order_iff {σ : Type} (parse : String → Except String σ) (cfg : List StrategyConfig)
    (h : validate parse cfg = .ok ()) :
    ((∀ cfg', cfg.Perm cfg' → ∀ list b,
        b ∈ retain (strategies cfg) list ↔ b ∈ retain (strategies cfg') list) ↔
      (incrementals (strategies cfg)).length ≤ 1) ∧
    ∀ cfg' list, cfg.Perm cfg' → SameOrder list (strategies cfg) (strategies cfg') →
      ∀ b, b ∈ retain (strategies cfg) list ↔ b ∈ retain (strategies cfg') list := by
  have hadmitted := admitted_of_validate h
  have hsame : ∀ cfg' list, cfg.Perm cfg' → SameOrder list (strategies cfg) (strategies cfg') →
      ∀ b, b ∈ retain (strategies cfg) list ↔ b ∈ retain (strategies cfg') list :=
    fun cfg' list hperm horder b => mem_retain_perm (hperm.map _) hadmitted.names horder
  refine ⟨⟨fun hall => ?_, fun hone cfg' hperm list b =>
    hsame cfg' list hperm (sameOrder_of_length hone) b⟩, hsame⟩
  by_contra hmany
  obtain ⟨a, b, rest, ha, hb, hperm⟩ := exists_front (not_le.mp hmany)
  obtain ⟨hA, hB⟩ : a ∈ cfg ∧ b ∈ cfg :=
    ⟨hperm.mem_iff.mpr (by simp), hperm.mem_iff.mpr (by simp)⟩
  obtain ⟨hkeep, hroot⟩ := hadmitted.incremental _ (mem_strategies hA) ha
  obtain ⟨F, hF, hfull⟩ := hroot.exists_full
  have hswap : cfg.Perm (b :: a :: rest) := hperm.trans (List.Perm.swap b a rest)
  have hne : a.toBundleStrategy ≠ b.toBundleStrategy := by
    intro heq
    have hnames : ((strategies (a :: b :: rest)).map BundleStrategy.name).Nodup :=
      ((hperm.map _).map _).nodup_iff.mp hadmitted.names
    exact (List.nodup_cons.mp hnames).1 (by simp [heq])
  have hplaced : ∀ {l : List StrategyConfig}, cfg.Perm l →
      Placed (strategies l) a.toBundleStrategy b.toBundleStrategy F := by
    intro l hl
    have hstrategies : (strategies cfg).Perm (strategies l) := hl.map _
    exact ⟨(hstrategies.map _).nodup_iff.mp hadmitted.names, hstrategies.mem_iff.mp
      (mem_strategies hA), hstrategies.mem_iff.mp (mem_strategies hB), hstrategies.mem_iff.mp hF,
      ha, hb, hfull, hne⟩
  have hdropped := crossing_dropped (hplaced hperm)
    (hroot.base_ne hadmitted.names (mem_strategies hA) ha)
  have hkept := crossing_kept (hplaced hswap)
  exact hdropped ((hall _ hperm _ _).mp ((hall _ hswap _ _).mpr hkept))

/-- The default strategies. -/
def weeklyDefault : StrategyConfig :=
  ⟨⟨"weekly", .full, none, 2, false, []⟩, "0 0 23 * * Sun", none⟩

def dailyDefault : StrategyConfig :=
  ⟨⟨"daily", .incremental, some "weekly", 0, true, []⟩, "0 0 23 * * *", none⟩

def hourlyDefault : StrategyConfig :=
  ⟨⟨"hourly", .incremental, some "daily", 0, false, []⟩, "@hourly", none⟩

/-- A parser that takes every schedule. -/
def anySchedule (_ : String) : Except String Unit := .ok ()

theorem weekly_daily_order : validate anySchedule [weeklyDefault, dailyDefault] = .ok () ∧
    ∀ cfg', [weeklyDefault, dailyDefault].Perm cfg' → ∀ list b,
      b ∈ retain (strategies [weeklyDefault, dailyDefault]) list ↔
        b ∈ retain (strategies cfg') list :=
  ⟨by decide,
    (retain_order_iff anySchedule [weeklyDefault, dailyDefault] (by decide)).1.mpr (by decide)⟩

/-- A week, a day on it, and an hour on the day. -/
def oneOfEach : List BundleEntry :=
  [cut "w" "weekly" 10 "", cut "d" "daily" 20 "w", cut "h" "hourly" 30 "d"]

/-- The default strategies with the hourlies before the dailies they are cut on. -/
def hourlyFirst : List StrategyConfig := [weeklyDefault, hourlyDefault, dailyDefault]

/-- The file loads, and every hourly on a daily is pruned. -/
theorem hourly_first_prunes : validate anySchedule hourlyFirst = .ok () ∧
    [weeklyDefault, dailyDefault, hourlyDefault].Perm hourlyFirst ∧
    (retain (strategies [weeklyDefault, dailyDefault, hourlyDefault]) oneOfEach).map
      BundleEntry.id = ["w", "d", "h"] ∧
    (retain (strategies hourlyFirst) oneOfEach).map BundleEntry.id = ["w", "d"] :=
  ⟨by decide, List.Perm.cons _ (List.Perm.swap _ _ _), by decide, by decide⟩

end Order

end Walgit.Bundles
