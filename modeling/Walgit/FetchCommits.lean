import Walgit.FetchWalk

/-!
# The commits of an enumeration

Every commit of the walk goes into the set with its tree, unless the set holds
the commit already. When the diffs of the commits fit together, an object below
the tree of a walked commit is sent, or stands below the tree of a parent.
-/

namespace Walgit.Objects

variable {O : Type} {G : Graph O} {filter : PackFilter} {New : O → Prop}
variable {D E : O → List (Old O) → Prop} {wants : List O}

/-- The old trees of a commit: the trees of its parents. -/
def parentOlds (G : Graph O) (ps : List O) : List (Old O) :=
  ps.filterMap fun p =>
    match G.obj p with
    | some (.commit t _) => some (.tree t)
    | _ => none

theorem mem_parentOlds {ps : List O} {t : O} :
    Old.tree t ∈ parentOlds G ps ↔ ∃ p ∈ ps, G.TreeOf p t := by
  unfold parentOlds Graph.TreeOf
  rw [List.mem_filterMap]
  constructor
  · rintro ⟨p, hp, h⟩
    cases hx : G.obj p with
    | none => simp [hx] at h
    | some x =>
      cases x with
      | commit t' ps' =>
        simp only [hx, Option.some.injEq, Old.tree.injEq] at h
        exact ⟨p, hp, ps', by rw [hx, h]⟩
      | tree _ => simp [hx] at h
      | blob _ => simp [hx] at h
      | tag _ => simp [hx] at h
  · rintro ⟨p, hp, ps', hx⟩
    exact ⟨p, hp, by simp [hx]⟩

theorem isCommit_of_treeOf {c t : O} (h : G.TreeOf c t) : G.IsCommit c := by
  obtain ⟨ps, hc⟩ := h
  exact ⟨t, ps, hc⟩

theorem treeOf_unique {c t t' : O} (h : G.TreeOf c t) (h' : G.TreeOf c t') : t = t' := by
  obtain ⟨ps, hc⟩ := h
  obtain ⟨ps', hc'⟩ := h'
  rw [hc] at hc'
  injection hc' with hobj
  injection hobj

theorem parentTrees_eq {R : Repo O} {ps : List O} {olds : List (Old O)}
    (h : parentTrees R ps = .ok (olds, [])) : olds = parentOlds R.graph ps := by
  unfold parentTrees at h
  refine foldlM_taken (I := fun done acc => acc.2 = [] → acc.1 = parentOlds R.graph done)
    ?_ h (fun _ => rfl) rfl
  intro done p acc acc' _ hI hstep hlost
  cases hf : R.find p with
  | none =>
    simp only [hf, Except.ok.injEq] at hstep
    subst hstep
    simp at hlost
  | some x =>
    have hx := Repo.graph_of_find hf
    cases x with
    | commit t _ =>
      simp only [hf, Except.ok.injEq] at hstep
      subst hstep
      simp [hI hlost, parentOlds, hx]
    | tree _ => simp [hf] at hstep
    | blob _ => simp [hf] at hstep
    | tag _ => simp [hf] at hstep

section Walk

variable [DecidableEq O]

variable (G filter New D) in
/-- The trees of the set are expanded, and the set holds the tree of each of its commits that
the client lacks. -/
structure CommitsDone (set : Finset O) : Prop where
  expanded : AllExpanded G filter New D set
  trees : filter ≠ .tree 0 → ∀ c ∈ set, ∀ t, G.TreeOf c t → New t → t ∈ set

theorem CommitsDone.add {set : Finset O} {c t : O} (h : CommitsDone G filter New D set)
    (hc : G.TreeOf c t) (ht : filter = .tree 0 ∨ t ∈ set) :
    CommitsDone G filter New D (insert c set) := by
  refine ⟨h.expanded.insert (expanded_of_not_tree ?_), ?_⟩
  · rintro ⟨es, hes⟩
    obtain ⟨ps, hc⟩ := hc
    simp [hc] at hes
  · intro hf d hd t' ht' hn
    rcases Finset.mem_insert.mp hd with rfl | hd
    · obtain rfl := treeOf_unique hc ht'
      exact Finset.mem_insert_of_mem (ht.resolve_left hf)
    · exact Finset.mem_insert_of_mem (h.trees hf d hd t' ht' hn)

theorem CommitsDone.walk {set set' : Finset O} {c t : O} (hG : G.Closed)
    (h : CommitsDone G filter New D set) (hc : G.TreeOf c t)
    (hwalk : Walks G filter New D (insert t (insert c set)) set' t) :
    CommitsDone G filter New D set' := by
  have ht := isTree_of_treeOf hG hc
  refine ⟨hwalk.allExpanded ?_, ?_⟩
  · intro x hx hne
    have hx := (Finset.mem_insert.mp hx).resolve_left hne
    refine Expanded.mono (Finset.subset_insert _ _) ?_
    refine AllExpanded.insert h.expanded (expanded_of_not_tree ?_) x hx
    rintro ⟨es, hes⟩
    obtain ⟨ps, hc⟩ := hc
    simp [hc] at hes
  · intro hf d hd t' ht' hn
    have hcommit := isCommit_of_treeOf ht'
    by_cases hmem : d ∈ insert t (insert c set)
    · have hdt : d ≠ t := by
        rintro rfl
        exact not_isCommit_below hG ht (.here d) hcommit
      rcases Finset.mem_insert.mp ((Finset.mem_insert.mp hmem).resolve_left hdt) with rfl | hd
      · obtain rfl := treeOf_unique hc ht'
        exact hwalk.1.sub (Finset.mem_insert_self _ _)
      · refine hwalk.1.sub (Finset.mem_insert_of_mem (Finset.mem_insert_of_mem ?_))
        exact h.trees hf d hd t' ht' hn
    · obtain ⟨j, hj⟩ := hwalk.1.below d hd hmem
      exact absurd hcommit (not_isCommit_below hG ht hj)

/-! ## `compute_object_set` -/

theorem walkCommit_done {R : Repo O} (hd : Diffs R.graph filter New D E) {set set' : Finset O}
    {c : O} (hE : ∀ t, R.graph.TreeOf c t → E t [])
    (h : CommitsDone R.graph filter New D set)
    (hstep : walkCommit R filter false set c = .ok set') :
    CommitsDone R.graph filter New D set' ∧ insert c set ⊆ set' := by
  simp only [walkCommit, Bool.false_eq_true, if_false] at hstep
  by_cases hmem : c ∈ set
  · rw [if_pos hmem] at hstep
    cases hstep
    exact ⟨h, by rw [Finset.insert_eq_of_mem hmem]⟩
  rw [if_neg hmem] at hstep
  cases hf : R.find c with
  | none => simp [hf] at hstep
  | some x =>
    have hx := Repo.graph_of_find hf
    cases x with
    | tree _ => simp [hf] at hstep
    | blob _ => simp [hf] at hstep
    | tag _ => simp [hf] at hstep
    | commit t ps =>
      have hc : R.graph.TreeOf c t := ⟨ps, hx⟩
      simp only [hf] at hstep
      split_ifs at hstep with hzero htree
      · cases hstep
        exact ⟨h.add hc (.inl hzero), subset_rfl⟩
      · cases hstep
        have htc : t ≠ c := by
          rintro rfl
          obtain ⟨es, hes⟩ := isTree_of_treeOf hd.closed hc
          simp [hx] at hes
        exact ⟨h.add hc (.inr ((Finset.mem_insert.mp htree).resolve_left htc)), subset_rfl⟩
      · have hset : ∀ y ∈ insert t (insert c set), y ≠ t →
            Expanded R.graph filter New D (insert t (insert c set)) y := by
          intro y hy hne
          refine Expanded.mono (Finset.subset_insert _ _) ?_
          refine AllExpanded.insert h.expanded (expanded_of_not_tree ?_) y
            ((Finset.mem_insert.mp hy).resolve_left hne)
          rintro ⟨es, hes⟩
          simp [hx] at hes
        have hwalk := walkTree_walks hd (hE t hc) (.start (Finset.mem_insert_self _ _)) hset hstep
        exact ⟨h.walk hd.closed hc hwalk, (Finset.subset_insert _ _).trans hwalk.1.sub⟩

theorem walkCommits_done {R : Repo O} (hd : Diffs R.graph filter New D E)
    {set set' : Finset O} {cs : List O} (hE : ∀ c ∈ cs, ∀ t, R.graph.TreeOf c t → E t [])
    (h : CommitsDone R.graph filter New D set)
    (hwalk : cs.foldlM (walkCommit R filter false) set = .ok set') :
    CommitsDone R.graph filter New D set' ∧ set ⊆ set' ∧ ∀ c ∈ cs, c ∈ set' :=
  foldlM_taken (I := fun done s => CommitsDone R.graph filter New D s ∧ set ⊆ s ∧
      ∀ c ∈ done, c ∈ s)
    (fun done c s s' hc hI hstep => by
      obtain ⟨hdone, hsub, hin⟩ := hI
      obtain ⟨hdone', hsub'⟩ := walkCommit_done hd (hE c hc) hdone hstep
      have hmono := (Finset.subset_insert c s).trans hsub'
      refine ⟨hdone', hsub.trans hmono, fun d hd => ?_⟩
      rcases List.mem_append.mp hd with hd | hd
      · exact hmono (hin d hd)
      · exact hsub' (List.mem_singleton.mp hd ▸ Finset.mem_insert_self _ _))
    hwalk ⟨h, subset_rfl, fun _ hc => absurd hc List.not_mem_nil⟩

theorem enterTree_missing {R : Repo O} {t : O} {olds : List (Old O)} (st : Collected O)
    (h : (enterTree R filter t olds st).missing = []) : st.missing = [] := by
  unfold enterTree at h
  split_ifs at h
  · exact h
  · exact diffTree_missing t olds (st.insert t) h

theorem enterTree_done {R : Repo O} (hd : Diffs R.graph filter New D E) {st : Collected O}
    {c t : O} {olds : List (Old O)} (hE : E t olds) (hc : R.graph.TreeOf c t)
    (h : CommitsDone R.graph filter New D st.set)
    (hmiss : (enterTree R filter t olds (st.insert c)).missing = []) :
    CommitsDone R.graph filter New D (enterTree R filter t olds (st.insert c)).set ∧
      insert c st.set ⊆ (enterTree R filter t olds (st.insert c)).set := by
  have htree := isTree_of_treeOf hd.closed hc
  have hne : t ≠ c := by
    rintro rfl
    exact not_isCommit_below hd.closed htree (.here t) (isCommit_of_treeOf hc)
  unfold enterTree at hmiss ⊢
  split_ifs at hmiss ⊢ with hmem
  · exact ⟨h.add hc (.inr ((Finset.mem_insert.mp hmem).resolve_left hne)), subset_rfl⟩
  · have hexp : AllExpanded R.graph filter New D (st.insert c).set := by
      refine AllExpanded.insert h.expanded (expanded_of_not_tree ?_)
      rintro ⟨es, hes⟩
      obtain ⟨ps, hc⟩ := hc
      simp [hc] at hes
    have hwalk := diffTree_walks hd rfl _ (Nat.lt_succ_self _) hE .root stops_zero
      (.start (Finset.mem_insert_self _ _)) hexp.below hmiss
    exact ⟨h.walk hd.closed hc hwalk, (Finset.subset_insert _ _).trans hwalk.1.sub⟩

/-- The old trees that the tree of a commit is diffed against. -/
def oldsOf (G : Graph O) (diffMode : Bool) (ps : List O) : List (Old O) :=
  if diffMode then parentOlds G ps else []

theorem enumerateCommit_missing {R : Repo O} {diffMode : Bool} {hidden : List O}
    {st st' : Collected O × ℕ} {c : O}
    (h : enumerateCommit R filter diffMode hidden st c = .ok st') (hmiss : st'.1.missing = []) :
    st.1.missing = [] := by
  unfold enumerateCommit at h
  by_cases hskip : c ∈ hidden ∨ c ∈ st.1.set
  · rw [if_pos hskip] at h
    cases h
    exact hmiss
  rw [if_neg hskip] at h
  cases hf : R.find c with
  | none =>
    simp only [hf] at h
    cases h
    simp at hmiss
  | some x =>
    cases x with
    | tree _ => simp [hf] at h
    | blob _ => simp [hf] at h
    | tag _ => simp [hf] at h
    | commit t ps =>
      simp only [hf] at h
      split_ifs at h with hzero hfull
      · cases h
        exact hmiss
      · cases h
        exact enterTree_missing (st.1.insert c) hmiss
      · obtain ⟨⟨olds, lost⟩, -, h⟩ := bind_eq_ok h
        split_ifs at h with hlost
        · cases h
          exact enterTree_missing (st.1.insert c) hmiss
        · cases h
          exact absurd (List.append_eq_nil_iff.mp hmiss).2 hlost

theorem enumerateCommits_missing {R : Repo O} {diffMode : Bool} {hidden cs : List O}
    {st st' : Collected O × ℕ}
    (h : cs.foldlM (enumerateCommit R filter diffMode hidden) st = .ok st')
    (hmiss : st'.1.missing = []) : st.1.missing = [] := by
  induction cs generalizing st with
  | nil =>
    cases h
    exact hmiss
  | cons c cs ih =>
    rw [List.foldlM_cons] at h
    obtain ⟨mid, hmid, hrest⟩ := bind_eq_ok h
    exact enumerateCommit_missing hmid (ih hrest)

theorem enumerateCommit_done {R : Repo O} (hd : Diffs R.graph filter New D E)
    {diffMode : Bool} {hidden : List O} {st st' : Collected O × ℕ} {c : O} (hc : c ∉ hidden)
    (hE : ∀ t ps, R.graph.obj c = some (.commit t ps) → E t (oldsOf R.graph diffMode ps))
    (h : CommitsDone R.graph filter New D st.1.set)
    (hstep : enumerateCommit R filter diffMode hidden st c = .ok st')
    (hmiss : st'.1.missing = []) :
    CommitsDone R.graph filter New D st'.1.set ∧ insert c st.1.set ⊆ st'.1.set := by
  unfold enumerateCommit at hstep
  by_cases hskip : c ∈ hidden ∨ c ∈ st.1.set
  · rw [if_pos hskip] at hstep
    cases hstep
    exact ⟨h, by rw [Finset.insert_eq_of_mem (hskip.resolve_left hc)]⟩
  rw [if_neg hskip] at hstep
  cases hf : R.find c with
  | none =>
    simp only [hf] at hstep
    cases hstep
    simp at hmiss
  | some x =>
    have hx := Repo.graph_of_find hf
    cases x with
    | tree _ => simp [hf] at hstep
    | blob _ => simp [hf] at hstep
    | tag _ => simp [hf] at hstep
    | commit t ps =>
      have htree : R.graph.TreeOf c t := ⟨ps, hx⟩
      have hdiff := hE t ps hx
      simp only [hf] at hstep
      split_ifs at hstep with hzero hfull
      · cases hstep
        exact ⟨h.add htree (.inl hzero), subset_rfl⟩
      · cases hstep
        have holds : oldsOf R.graph diffMode ps = [] := by
          rcases hfull with rfl | rfl
          · cases diffMode <;> rfl
          · rfl
        exact enterTree_done hd (holds ▸ hdiff) htree h hmiss
      · obtain ⟨⟨olds, lost⟩, hparents, hstep⟩ := bind_eq_ok hstep
        split_ifs at hstep with hlost
        · cases hstep
          subst hlost
          have hmode : diffMode = true := by
            cases hm : diffMode
            · exact absurd (.inr hm) hfull
            · rfl
          have holds : oldsOf R.graph diffMode ps = olds := by
            rw [parentTrees_eq hparents, hmode]
            rfl
          exact enterTree_done hd (holds ▸ hdiff) htree h hmiss
        · cases hstep
          exact absurd (List.append_eq_nil_iff.mp hmiss).2 hlost

theorem enumerateCommits_done {R : Repo O} (hd : Diffs R.graph filter New D E)
    {diffMode : Bool} {hidden cs : List O} {st st' : Collected O × ℕ} (hcs : ∀ c ∈ cs, c ∉ hidden)
    (hE : ∀ c ∈ cs, ∀ t ps, R.graph.obj c = some (.commit t ps) →
      E t (oldsOf R.graph diffMode ps))
    (h : CommitsDone R.graph filter New D st.1.set)
    (hwalk : cs.foldlM (enumerateCommit R filter diffMode hidden) st = .ok st')
    (hmiss : st'.1.missing = []) :
    CommitsDone R.graph filter New D st'.1.set ∧ st.1.set ⊆ st'.1.set ∧
      ∀ c ∈ cs, c ∈ st'.1.set :=
  foldlM_taken (I := fun done s => s.1.missing = [] → CommitsDone R.graph filter New D s.1.set ∧
      st.1.set ⊆ s.1.set ∧ ∀ c ∈ done, c ∈ s.1.set)
    (fun done c s s' hc hI hstep hm => by
      obtain ⟨hdone, hsub, hin⟩ := hI (enumerateCommit_missing hstep hm)
      obtain ⟨hdone', hsub'⟩ := enumerateCommit_done hd (hcs c hc) (hE c hc) hdone hstep hm
      have hmono := (Finset.subset_insert c s.1.set).trans hsub'
      refine ⟨hdone', hsub.trans hmono, fun d hd => ?_⟩
      rcases List.mem_append.mp hd with hd | hd
      · exact hmono (hin d hd)
      · exact hsub' (List.mem_singleton.mp hd ▸ Finset.mem_insert_self _ _))
    hwalk (fun _ => ⟨h, subset_rfl, fun _ hc => absurd hc List.not_mem_nil⟩) hmiss

theorem includeTags_sub (R : Repo O) (refs : List O) (set : Finset O) :
    set ⊆ includeTags R refs set := by
  unfold includeTags
  induction refs generalizing set with
  | nil => exact subset_rfl
  | cons r refs ih =>
    rw [List.foldl_cons]
    refine Finset.Subset.trans ?_ (ih _)
    split_ifs
    · exact subset_rfl
    · split
      · split_ifs
        · exact Finset.subset_insert _ _
        · exact subset_rfl
      · exact subset_rfl

theorem includeTags_commit {R : Repo O} {refs : List O} {set : Finset O} {c : O}
    (h : c ∈ includeTags R refs set) (hc : R.graph.IsCommit c) : c ∈ set := by
  unfold includeTags at h
  induction refs generalizing set with
  | nil => exact h
  | cons r refs ih =>
    rw [List.foldl_cons] at h
    have hmem := ih h
    split_ifs at hmem
    · exact hmem
    · split at hmem
      case h_1 target hf =>
        split_ifs at hmem
        · rcases Finset.mem_insert.mp hmem with rfl | hmem
          · cases isCommit_kind (Repo.graph_of_find hf) hc
          · exact hmem
        · exact hmem
      · exact hmem

end Walk

end Walgit.Objects
