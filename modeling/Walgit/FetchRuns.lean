import Walgit.FetchCommits

/-!
# Completeness of a fetch

The set of `compute_object_set` and the set of `enumerate` hold every object
that the client is owed when no wanted tag leads to a commit whose tree the
client lacks, no tree is met first one level beyond the depth of a filter and asked
for above it, and the diffs of two commits that enter one tree agree on its entries.
Each of the three conditions is one reason for which the code leaves a tree out:
the walk skips a commit that peeling a tag put into the set, and a tree that the
set holds is not entered again, at whatever depth it was met and against whatever
parents it was entered first. The wanted trees are walked before the commits, so
what the commits meet does not harm them.
-/

namespace Walgit.Objects

variable {O : Type} (G : Graph O)

/-- No wanted tag leads to a commit whose tree the client lacks, or trees are not asked for. -/
def TagCommitsClear (filter : PackFilter) (New : O → Prop) (wants : List O) : Prop :=
  filter = .tree 0 ∨
    ∀ a b t, Explicit G wants a → G.Target a b → G.TreeOf b t → ¬ New t

/-- The diff of a walked commit: its tree against the trees of its parents. -/
def CommitDiff (Walked : O → Prop) (root : O) (olds : List (Old O)) : Prop :=
  ∃ c ps, Walked c ∧ G.obj c = some (.commit root ps) ∧ olds = parentOlds G ps

/-- The tree of a walked commit, walked whole. -/
def CommitWhole (Walked : O → Prop) (root : O) (olds : List (Old O)) : Prop :=
  (∃ c, Walked c ∧ G.TreeOf c root) ∧ olds = []

/-- A diff of a wanted tree, or of the walk. -/
def Asked (wants : List O) (C : O → List (Old O) → Prop) (root : O) (olds : List (Old O)) : Prop :=
  Wanted G wants root olds ∨ C root olds

/-- No tree is met first one level too deep where a walk that comes later, or is the same, asks for
its entries: first the wanted trees are walked, then the commits by the diffs of `C`. -/
structure DepthsClear [DecidableEq O] (filter : PackFilter) (New : O → Prop) (wants : List O)
    (C : O → List (Old O) → Prop) : Prop where
  wanted : DepthClear G filter New (Asked G wants C) (Wanted G wants)
  walked : DepthClear G filter New C C

variable {G} {filter : PackFilter} {New : O → Prop} {wants haves cs : List O}
variable {C : O → List (Old O) → Prop}

theorem walkFrom_cases {β : Type} {rw : RevWalk G} {step : β → O → Except (GitError O) β}
    {tips hidden : List O} {init last : β} (h : walkFrom rw step tips hidden init = .ok last) :
    tips = [] ∧ init = last ∨
      ∃ cs, rw.walk tips hidden = some cs ∧ cs.foldlM step init = .ok last := by
  unfold walkFrom at h
  by_cases htips : tips = []
  · rw [if_pos htips] at h
    cases h
    exact .inl ⟨htips, rfl⟩
  · rw [if_neg htips] at h
    cases hwalk : rw.walk tips hidden with
    | none => simp [hwalk] at h
    | some cs =>
      simp only [hwalk] at h
      exact .inr ⟨cs, rfl, h⟩

section Runs

variable [DecidableEq O]

theorem depthsClear_none (wants : List O) (C : O → List (Old O) → Prop) :
    DepthsClear G .none New wants C := by
  constructor <;>
  · intro d root olds root' olds' t k path subs subs' hf
    cases hf

theorem diffsAgree_whole {D E : O → List (Old O) → Prop}
    (hE : ∀ root olds, E root olds → olds = []) :
    DiffsAgree G filter New D E := by
  intro root olds root' olds' t k k' subs subs' es e _ _ hdiff hch _ _ _ _ _ _ hun
  obtain rfl := hE root' olds' hdiff
  rw [hch.nil_subs] at hun
  cases hun

theorem diffs_wanted (hG : G.Closed) (hnew : ∀ {k a b}, G.Under k a b → New b → New a)
    (hdepth : DepthsClear G filter New wants C) :
    Diffs G filter New (Asked G wants C) (Wanted G wants) :=
  ⟨hG, .inl, hnew, hdepth.wanted, diffsAgree_whole fun _ _ h => h.2⟩

theorem diffs_whole {Walked : O → Prop} (hG : G.Closed)
    (hnew : ∀ {k a b}, G.Under k a b → New b → New a)
    (hdepth : DepthsClear G filter New wants (CommitWhole G Walked)) :
    Diffs G filter New (CommitWhole G Walked) (CommitWhole G Walked) :=
  ⟨hG, fun h => h, hnew, hdepth.walked, diffsAgree_whole fun _ _ h => h.2⟩

theorem WantsDone.commitsDone {TreesClear : Prop} {set : Finset O} {tips : List O}
    (h : WantsDone filter New (Asked G wants C) wants G TreesClear wants set tips)
    (htrees : TreesClear) (hcommits : TagCommitsClear G filter New wants) :
    CommitsDone G filter New C set := by
  refine ⟨fun t ht => (h.expanded htrees t ht).anti fun _ _ => .inr, fun hf c hc t ht hn => ?_⟩
  obtain ⟨a, ha, hac⟩ := h.tagged c hc (isCommit_of_treeOf ht)
  exact absurd hn (hcommits.resolve_left hf a c t ha hac ht)

theorem WantsDone.explicit {TreesClear : Prop} {set : Finset O} {tips : List O} {o : O}
    (h : WantsDone filter New C wants G TreesClear wants set tips)
    (htips : ∀ c ∈ tips, G.IsCommit c) (ho : Explicit G wants o) (hc : ¬ G.IsCommit o) :
    o ∈ set := by
  obtain ⟨w, hw, hwo⟩ := ho
  exact (h.found htips w hw o hwo).2 hc

theorem WantsDone.covered {TreesClear : Prop} {set : Finset O} {tips : List O} {r o : O} {k : ℕ}
    (hd : Diffs G filter New (Asked G wants C) (Wanted G wants))
    (h : WantsDone filter New (Asked G wants C) wants G TreesClear wants set tips)
    (htrees : TreesClear) (htips : ∀ c ∈ tips, G.IsCommit c) (hr : Explicit G wants r)
    (htree : G.IsTree r) (hu : G.Under k r o) (hn : New o) (hkeep : filter.Keeps G k o) :
    o ∈ set := by
  have hmem := h.explicit htips hr (not_isCommit_below hd.closed htree (.here r))
  rcases hd.covered (.inl ⟨⟨hr, htree⟩, rfl⟩) .root (h.expanded htrees).expandedBelow hmem hu hn
    (by rwa [Nat.zero_add]) with hin | hold
  · exact hin
  · exact absurd hold not_belowOld_nil

theorem CommitsDone.whole {Walked : O → Prop} {set : Finset O} {c t o : O} {k : ℕ}
    (hd : Diffs G filter New (CommitWhole G Walked) (CommitWhole G Walked))
    (hset : CommitsDone G filter New (CommitWhole G Walked) set) (hw : Walked c) (hc : c ∈ set)
    (ht : G.TreeOf c t) (hu : G.Under k t o) (hn : New o) (hkeep : filter.Keeps G k o) :
    o ∈ set := by
  have hf : filter ≠ .tree 0 := by
    rintro rfl
    exact Nat.not_lt_zero _ hkeep
  have hmem := hset.trees hf c hc t ht (hd.new hu hn)
  rcases hd.covered ⟨⟨c, hw, ht⟩, rfl⟩ .root hset.expanded.expandedBelow hmem hu hn
    (by rwa [Nat.zero_add]) with hin | hold
  · exact hin
  · exact absurd hold not_belowOld_nil

/-! ## What a call did -/

theorem walkFrom_walked {TreesClear : Prop} {rw : RevWalk G} {β : Type}
    {step : β → O → Except (GitError O) β} {set : Finset O} {tips hidden : List O} {init last : β}
    (hG : G.Closed) (h : WantsDone filter New C wants G TreesClear wants set tips)
    (hwalk : walkFrom rw step tips hidden init = .ok last) :
    ∃ cs : List O, cs.foldlM step init = .ok last ∧ (∀ c ∈ tips, G.IsCommit c) ∧
      ∀ c, c ∈ cs ↔ Requested G wants c ∧ G.IsCommit c ∧ ¬ ∃ d ∈ hidden, G.Ancestor d c := by
  rcases walkFrom_cases hwalk with ⟨rfl, hlast⟩ | ⟨cs, hcs, hfold⟩
  · refine ⟨[], hlast ▸ rfl, fun _ ht => absurd ht List.not_mem_nil, fun c => ?_⟩
    refine ⟨fun hc => absurd hc List.not_mem_nil, fun ⟨hreq, hc, _⟩ => ?_⟩
    obtain ⟨d, ⟨w, hw, hwd⟩, hd, -⟩ := hreq.ancestor hG hc
    exact absurd ((h.found (fun _ ht => absurd ht List.not_mem_nil) w hw d hwd).1 hd)
      List.not_mem_nil
  · have hcommits : ∀ c ∈ tips, G.IsCommit c := fun _ ht => rw.tips hcs ht
    refine ⟨cs, hfold, hcommits, fun c => ?_⟩
    rw [rw.mem_iff hcs]
    constructor
    · rintro ⟨⟨t, ht, htc⟩, hhidden⟩
      exact ⟨(h.tips t ht).requested.trans (Graph.Ancestor.reach htc),
        isCommit_of_ancestor hG (hcommits t ht) htc, hhidden⟩
    · rintro ⟨hreq, hc, hhidden⟩
      obtain ⟨d, ⟨w, hw, hwd⟩, hd, hdc⟩ := hreq.ancestor hG hc
      exact ⟨⟨d, (h.found hcommits w hw d hwd).1 hd, hdc⟩, hhidden⟩

theorem computeObjectSet_steps {R : Repo O} {rw : RevWalk R.graph} {refs wants haves : List O}
    {filter : Option String} {includeTag : Bool} {deepen : Option ℕ} {set : Finset O}
    (h : computeObjectSet R rw refs wants haves filter includeTag deepen = .ok set) :
    ∃ set₀ tips exclude set₁,
      wants.foldlM (wantObject R (filterOf filter)) (∅, []) = .ok (set₀, tips) ∧
      boundary R wants deepen = .ok exclude ∧
      walkFrom rw (walkCommit R (filterOf filter)
        (filter.isNone && deepen.isNone && haves.isEmpty)) tips (haves ++ exclude) set₀
        = .ok set₁ ∧
      set₁ ⊆ set ∧ ∀ c ∈ set, R.graph.IsCommit c → c ∈ set₁ := by
  unfold computeObjectSet at h
  obtain ⟨⟨set₀, tips⟩, hwants, h⟩ := bind_eq_ok h
  obtain ⟨exclude, hexclude, h⟩ := bind_eq_ok h
  obtain ⟨set₁, hset, h⟩ := bind_eq_ok h
  refine ⟨set₀, tips, exclude, set₁, hwants, hexclude, hset, ?_⟩
  cases h
  split_ifs
  · exact ⟨includeTags_sub R refs set₁, fun c hc => includeTags_commit hc⟩
  · exact ⟨subset_rfl, fun c hc _ => hc⟩

/-- What `enumerate` hides: the haves that are not shallow on the client, and the boundary. -/
def hiddenOf (req : UploadPackRequest O) (haves exclude : List O) : List O :=
  (haves.filter fun h => h ∉ req.shallow) ++ exclude

theorem enumerate_steps {R : Repo O} {rw : RevWalk R.graph} {refs haves : List O}
    {req : UploadPackRequest O} {faulter : Option (Faulter O)} {set : Finset O} {n : ℕ}
    {diffed : Bool} (hpath : ¬ (haves = [] ∧ faulter.isNone))
    (h : enumerate R rw refs req haves faulter = .ok (.done set n diffed)) :
    ∃ st₀ tips exclude st₁,
      req.wants.foldlM (enumerateWant R (filterOf req.filter) faulter) (⟨∅, []⟩, [])
        = .ok (st₀, tips) ∧
      boundary R req.wants req.deepen = .ok exclude ∧
      walkFrom rw (enumerateCommit R (filterOf req.filter) (!haves.isEmpty)
        (hiddenOf req haves exclude)) tips (hiddenOf req haves exclude) (st₀, 0) = .ok st₁ ∧
      st₁.1.missing = [] ∧ st₁.1.set ⊆ set ∧
      ∀ c ∈ set, R.graph.IsCommit c → c ∈ st₁.1.set := by
  unfold enumerate at h
  rw [if_neg hpath] at h
  obtain ⟨⟨st₀, tips⟩, hwants, h⟩ := bind_eq_ok h
  obtain ⟨exclude, hexclude, h⟩ := bind_eq_ok h
  obtain ⟨st₁, hset, h⟩ := bind_eq_ok h
  refine ⟨st₀, tips, exclude, st₁, hwants, hexclude, hset, ?_⟩
  by_cases hmiss : st₁.1.missing = []
  · simp only [hmiss, if_true] at h
    cases h
    refine ⟨hmiss, ?_⟩
    split_ifs
    · exact ⟨includeTags_sub R refs st₁.1.set, fun c hc => includeTags_commit hc⟩
    · exact ⟨subset_rfl, fun c hc _ => hc⟩
  · simp only [hmiss, if_false] at h
    cases h

/-! ## Completeness -/

/-- Below the tree of a commit whose diff fits in, what the filter asks for is sent, or it stands
below the tree of a parent. -/
theorem commit_covered {Walked : O → Prop}
    (hd : Diffs G filter New (CommitDiff G Walked) (CommitDiff G Walked)) {set : Finset O}
    (hset : CommitsDone G filter New (CommitDiff G Walked) set) {c t o : O} {k : ℕ}
    (hw : Walked c) (hc : c ∈ set) (ht : G.TreeOf c t) (hu : G.Under k t o) (hn : New o)
    (hkeep : filter.Keeps G k o) :
    o ∈ set ∨ ∃ p t' i, G.Parent c p ∧ G.TreeOf p t' ∧ G.Under i t' o ∧ filter.Keeps G i o := by
  have hf : filter ≠ .tree 0 := by
    rintro rfl
    exact Nat.not_lt_zero _ hkeep
  have hmem := hset.trees hf c hc t ht (hd.new hu hn)
  obtain ⟨ps, hobj⟩ := ht
  rcases hd.covered ⟨c, ps, hw, hobj, rfl⟩ .root hset.expanded.expandedBelow hmem hu hn
    (by rwa [Nat.zero_add]) with hin' | ⟨r, i, hr, hur, hi⟩
  · exact .inl hin'
  · obtain ⟨p, hp, hpt⟩ := mem_parentOlds.mp hr
    rw [Nat.zero_add] at hi
    exact .inr ⟨p, r, i, ⟨t, ps, hobj, hp⟩, hpt, hur, hi.keeps hkeep⟩

/-- Over a set of commits that holds every parent the client lacks, everything is sent. The
induction is from the oldest commit on. -/
theorem commits_covered {Walked Sent : O → Prop}
    (hd : Diffs G filter New (CommitDiff G Walked) (CommitDiff G Walked)) {set : Finset O}
    (hset : CommitsDone G filter New (CommitDiff G Walked) set)
    (hsent : ∀ c, Sent c → Walked c ∧ c ∈ set)
    (hparent : ∀ c p t t' j k o, Sent c → G.TreeOf c t → G.Under j t o → G.Parent c p →
      G.TreeOf p t' → G.Under k t' o → New o → Sent p)
    {c t o : O} {k : ℕ} (hc : Sent c) (ht : G.TreeOf c t) (hu : G.Under k t o) (hn : New o)
    (hkeep : filter.Keeps G k o) : o ∈ set := by
  suffices hsuff : ∀ n c t k, G.height c < n → Sent c → G.TreeOf c t → G.Under k t o →
      filter.Keeps G k o → o ∈ set from hsuff _ c t k (Nat.lt_succ_self _) hc ht hu hkeep
  intro n
  induction n with
  | zero => exact fun c t k h => absurd h (Nat.not_lt_zero _)
  | succ n ih =>
    intro c t k hlt hc ht hu hkeep
    obtain ⟨hw, hmem⟩ := hsent c hc
    rcases commit_covered hd hset hw hmem ht hu hn hkeep with hmem |
      ⟨p, t', i, hp, ht', hu', hkeep'⟩
    · exact hmem
    · have hpc := (Graph.link_parent hp).height_lt
      exact ih p t' i (by omega) (hparent c p t t' k i o hc ht hu hp ht' hu' hn) ht' hu' hkeep'

end Runs

end Walgit.Objects
