import Walgit.FetchSpec

/-!
# The wants and the commits of an enumeration

Peeling the wants puts every object that is wanted by name into the set or among
the tips of the walk, and leaves the trees of the set expanded. Each commit of
the walk then adds itself and its tree, and keeps the trees expanded.
-/

namespace Walgit.Objects

variable {O : Type} {G : Graph O} {filter : PackFilter} {New : O → Prop}
variable {D E : O → List (Old O) → Prop} {wants : List O}

theorem peel_self {w o : O} (hw : ∀ b, ¬ G.Target w b) (h : G.Peel w o) : o = w := by
  rcases Relation.ReflTransGen.cases_head h with rfl | ⟨b, hb, -⟩
  · rfl
  · exact absurd hb (hw b)

theorem not_target_of_kind {w b : O} {x : Obj O} (hx : G.obj w = some x) (hk : x.kind ≠ .tag) :
    ¬ G.Target w b := by
  intro hb
  obtain rfl : x = .tag b := Option.some.inj (hx.symm.trans hb)
  exact hk rfl

theorem isCommit_kind {o : O} {x : Obj O} (hx : G.obj o = some x) (h : G.IsCommit o) :
    x.kind = .commit := by
  obtain ⟨t, ps, ho⟩ := h
  obtain rfl : x = .commit t ps := Option.some.inj (hx.symm.trans ho)
  rfl

theorem not_isCommit_below (hG : G.Closed) {t o : O} {k : ℕ} (ht : G.IsTree t)
    (hu : G.Under k t o) : ¬ G.IsCommit o := by
  rintro ⟨t', ps, ho⟩
  rcases tree_or_blob hG ht hu with ⟨es, hes⟩ | ⟨n, hn⟩
  · simp [ho] at hes
  · simp [ho] at hn

section Walk

variable [DecidableEq O]

variable (G filter New D) in
def AllExpanded (set : Finset O) : Prop := ∀ t ∈ set, Expanded G filter New D set t

variable (G wants) in
/-- The diff of a wanted tree: it is walked whole. -/
def Wanted (root : O) (olds : List (Old O)) : Prop :=
  (Explicit G wants root ∧ G.IsTree root) ∧ olds = []

theorem AllExpanded.below {set : Finset O} {t : O} (h : AllExpanded G filter New D set) :
    ExpandedBelow G filter New D (insert t set) (G.height t) := by
  intro x hx hlt
  rcases Finset.mem_insert.mp hx with rfl | hx
  · exact absurd hlt (lt_irrefl _)
  · exact (h x hx).mono (Finset.subset_insert _ _)

theorem AllExpanded.expandedBelow {set : Finset O} {r : ℕ}
    (h : AllExpanded G filter New D set) : ExpandedBelow G filter New D set r :=
  fun t ht _ => h t ht

theorem AllExpanded.insert {set : Finset O} {o : O} (h : AllExpanded G filter New D set)
    (ho : Expanded G filter New D (insert o set) o) :
    AllExpanded G filter New D (insert o set) := by
  intro x hx
  rcases Finset.mem_insert.mp hx with rfl | hx
  · exact ho
  · exact (h x hx).mono (Finset.subset_insert _ _)

theorem expanded_of_tree_zero {set : Finset O} {t : O} :
    Expanded G (.tree 0) New D set t := by
  intro root olds k subs es e _ _ _ _ _ _ hkeep
  exact absurd hkeep (Nat.not_lt_zero _)

theorem expanded_of_held {set : Finset O} {t : O}
    (h : Diffs G filter New D E) (ht : ¬ New t) : Expanded G filter New D set t := by
  intro root olds k subs es e _ _ hes he hm hn _
  exact absurd (h.new (.entry hes he hm (.here _)) hn) ht

/-- A walk from `t` leaves every tree expanded when all but `t` were. -/
theorem Walks.allExpanded {set set' : Finset O} {t : O}
    (hset : ∀ x ∈ set, x ≠ t → Expanded G filter New D set x)
    (h : Walks G filter New D set set' t) : AllExpanded G filter New D set' := by
  obtain ⟨hgrow, hsmall, ht⟩ := h
  intro x hx
  by_cases hxt : x = t
  · exact hxt ▸ ht
  by_cases hmem : x ∈ set
  · exact (hset x hmem hxt).mono hgrow.sub
  · obtain ⟨j, hj⟩ := hgrow.below x hx hmem
    have := hj.height_le
    exact hsmall x hx (by omega)

theorem walkTree_walks {R : Repo O} (h : Diffs R.graph filter New D E)
    {t : O} {set set' : Finset O} (hE : E t [])
    (hpass : Passed R.graph filter New t [] set ([] ++ [0]))
    (hset : ∀ x ∈ set, x ≠ t → Expanded R.graph filter New D set x)
    (hw : walkTree R filter t set = .ok set') :
    Walks R.graph filter New D set set' t := by
  have hdiff := walk_eq_diff [] hw
  have hexp : ExpandedBelow R.graph filter New D set (R.graph.height t) := by
    intro x hx hlt
    refine hset x hx ?_
    rintro rfl
    exact absurd hlt (lt_irrefl _)
  have hwalk := diffTree_walks h rfl ⟨set, []⟩ (Nat.lt_succ_self _) hE .root stops_zero hpass hexp
    (congrArg Collected.missing hdiff)
  simpa only [List.length_nil, Nat.succ_eq_add_one, hdiff] using hwalk

theorem diffs_nothing (hG : G.Closed) : Diffs G filter (fun _ => False) D D where
  closed := hG
  asks := fun h => h
  new := fun _ h => h
  depth := fun _ _ _ _ _ _ _ _ _ _ _ hn => absurd hn id
  agree := fun _ _ _ _ _ _ _ _ _ _ _ _ _ _ _ _ _ _ _ hn => absurd hn id

theorem walkTree_grows {R : Repo O} (hG : R.graph.Closed) {t : O} {set set' : Finset O}
    (hw : walkTree R filter t set = .ok set') : Grows R.graph set set' t := by
  have hd : Diffs R.graph filter (fun _ => False) (fun _ _ => True) (fun _ _ => True) :=
    diffs_nothing hG
  refine (walkTree_walks hd trivial (fun _ _ _ _ _ h => absurd h id) (fun x _ _ => ?_) hw).1
  exact fun _ _ _ _ _ _ _ _ _ _ _ h => absurd h id

/-! ## The wants -/

variable (filter New D wants) in
/-- The wants `ws` are taken: each object wanted by name is in the set, or among the tips of the
walk when it is a commit. -/
structure WantsDone (G : Graph O) (TreesClear : Prop) (ws : List O) (set : Finset O)
    (tips : List O) : Prop where
  expanded : TreesClear → AllExpanded G filter New D set
  found : (∀ c ∈ tips, G.IsCommit c) → ∀ w ∈ ws, ∀ o, G.Peel w o →
    (G.IsCommit o → o ∈ tips) ∧ (¬ G.IsCommit o → o ∈ set)
  tips : ∀ c ∈ tips, Explicit G wants c
  tagged : ∀ c ∈ set, G.IsCommit c → ∃ a, Explicit G wants a ∧ G.Target a c

theorem WantsDone.start (TreesClear : Prop) : WantsDone filter New D wants G TreesClear [] ∅ [] :=
  ⟨fun _ _ ht => absurd ht (Finset.notMem_empty _), fun _ _ hw => absurd hw List.not_mem_nil,
    fun _ hc => absurd hc List.not_mem_nil, fun _ hc => absurd hc (Finset.notMem_empty _)⟩

theorem WantsDone.commit {TreesClear : Prop} {ws : List O} {w : O} {set : Finset O}
    {tips : List O} {t : O} {ps : List O}
    (h : WantsDone filter New D wants G TreesClear ws set tips)
    (hw : w ∈ wants) (hx : G.obj w = some (.commit t ps)) :
    WantsDone filter New D wants G TreesClear (ws ++ [w]) set (tips ++ [w]) := by
  refine ⟨h.expanded, ?_, ?_, h.tagged⟩
  · intro hcs w' hw' o ho
    have hcs' : ∀ c ∈ tips, G.IsCommit c := fun c hc => hcs c (List.mem_append_left _ hc)
    rcases List.mem_append.mp hw' with hw' | hw'
    · obtain ⟨h1, h2⟩ := h.found hcs' w' hw' o ho
      exact ⟨fun hc => List.mem_append_left _ (h1 hc), h2⟩
    · obtain rfl := List.mem_singleton.mp hw'
      obtain rfl := peel_self (fun b => not_target_of_kind hx (by simp [Obj.kind])) ho
      exact ⟨fun _ => by simp, fun hn => absurd ⟨t, ps, hx⟩ hn⟩
  · intro c hc
    rcases List.mem_append.mp hc with hc | hc
    · exact h.tips c hc
    · obtain rfl := List.mem_singleton.mp hc
      exact ⟨c, hw, .refl⟩

theorem WantsDone.direct {TreesClear : Prop} {ws : List O} {w : O} {set set' : Finset O}
    {tips : List O} (h : WantsDone filter New D wants G TreesClear ws set tips)
    (hcommit : ¬ G.IsCommit w) (htag : ∀ b, ¬ G.Target w b) (hsub : insert w set ⊆ set')
    (hnew : ∀ c ∈ set', c ∉ set → ¬ G.IsCommit c)
    (hexp : TreesClear → AllExpanded G filter New D set') :
    WantsDone filter New D wants G TreesClear (ws ++ [w]) set' tips := by
  refine ⟨hexp, ?_, h.tips, ?_⟩
  · intro hcs w' hw' o ho
    rcases List.mem_append.mp hw' with hw' | hw'
    · obtain ⟨h1, h2⟩ := h.found hcs w' hw' o ho
      exact ⟨h1, fun hn => hsub (Finset.mem_insert_of_mem (h2 hn))⟩
    · obtain rfl := List.mem_singleton.mp hw'
      obtain rfl := peel_self htag ho
      exact ⟨fun hc => absurd hc hcommit, fun _ => hsub (Finset.mem_insert_self _ _)⟩
  · intro c hc hcc
    by_cases hmem : c ∈ set
    · exact h.tagged c hmem hcc
    · exact absurd hcc (hnew c hc hmem)

theorem WantsDone.absent {TreesClear : Prop} {ws : List O} {w : O} {set : Finset O}
    {tips : List O} (h : WantsDone filter New D wants G TreesClear ws set tips)
    (hx : G.obj w = none) :
    WantsDone filter New D wants G TreesClear (ws ++ [w]) (insert w set) tips := by
  have hcommit : ¬ G.IsCommit w := by
    rintro ⟨t, ps, hc⟩
    simp [hx] at hc
  refine h.direct hcommit ?_ subset_rfl ?_ fun hc => (h.expanded hc).insert ?_
  · intro b hb
    simp [Graph.Target, hx] at hb
  · intro c hc hnc
    rwa [(Finset.mem_insert.mp hc).resolve_right hnc]
  · refine expanded_of_not_tree ?_
    rintro ⟨es, hes⟩
    simp [hx] at hes

theorem WantsDone.leaf {TreesClear : Prop} {ws : List O} {w : O} {set : Finset O}
    {tips : List O} {x : Obj O} (h : WantsDone filter New D wants G TreesClear ws set tips)
    (hx : G.obj w = some x) (hk : x.kind = .blob ∨ (x.kind = .tree ∧ filter = .tree 0)) :
    WantsDone filter New D wants G TreesClear (ws ++ [w]) (insert w set) tips := by
  have hcommit : ¬ G.IsCommit w := by
    intro hc
    have := isCommit_kind hx hc
    rcases hk with hk | ⟨hk, -⟩ <;> simp [hk] at this
  refine h.direct hcommit (fun b => not_target_of_kind hx ?_) subset_rfl ?_
    fun hc => (h.expanded hc).insert ?_
  · rcases hk with hk | ⟨hk, -⟩ <;> simp [hk]
  · intro c hc hnc
    rwa [(Finset.mem_insert.mp hc).resolve_right hnc]
  · rcases hk with hk | ⟨-, rfl⟩
    · refine expanded_of_not_tree ?_
      rintro ⟨es, hes⟩
      obtain rfl : x = .tree es := Option.some.inj (hx.symm.trans hes)
      cases hk
    · exact expanded_of_tree_zero

theorem WantsDone.tree {TreesClear : Prop} {R : Repo O} {ws : List O} {w : O}
    {set set' : Finset O} {tips : List O} {es : List (Entry O)}
    (hd : Diffs R.graph filter New D (Wanted R.graph wants))
    (h : WantsDone filter New D wants R.graph TreesClear ws set tips) (hw : w ∈ wants)
    (hx : R.graph.obj w = some (.tree es))
    (hset : walkTree R filter w (insert w set) = .ok set') :
    WantsDone filter New D wants R.graph TreesClear (ws ++ [w]) set' tips := by
  have hroot : Wanted R.graph wants w [] := ⟨⟨⟨w, hw, .refl⟩, ⟨es, hx⟩⟩, rfl⟩
  have hgrow := walkTree_grows hd.closed hset
  refine h.direct ?_ (fun b => not_target_of_kind hx (by simp [Obj.kind])) hgrow.sub ?_ ?_
  · intro hc
    have := isCommit_kind hx hc
    cases this
  · intro c hc hnc
    by_cases hcw : c = w
    · subst hcw
      intro hcc
      cases isCommit_kind hx hcc
    · obtain ⟨j, hj⟩ := hgrow.below c hc (by simp [hcw, hnc])
      exact not_isCommit_below hd.closed ⟨es, hx⟩ hj
  · intro hclear
    have hpass : Passed R.graph filter New w [] (insert w set) ([] ++ [0]) :=
      .start (Finset.mem_insert_self w set)
    refine (walkTree_walks hd hroot hpass ?_ hset).allExpanded ?_ <;>
    · intro x hx' hne
      rcases Finset.mem_insert.mp hx' with rfl | hx'
      · exact absurd rfl hne
      · exact (h.expanded hclear x hx').mono (Finset.subset_insert _ _)

theorem WantsDone.tag {TreesClear : Prop} {ws : List O} {w : O} {set set' : Finset O}
    {tips tips' : List O} (h : WantsDone filter New D wants G TreesClear ws set tips)
    (hsub : set ⊆ set') (htips : ∀ c ∈ tips, c ∈ tips')
    (hpeel : ∀ o, G.Peel w o → o ∈ set' ∧ (G.IsCommit o → o ∈ tips'))
    (hnew : ∀ o ∈ set', o ∉ set → G.IsCommit o → ∃ a, Explicit G wants a ∧ G.Target a o)
    (hexpl : ∀ c ∈ tips', c ∉ tips → Explicit G wants c)
    (hexp : TreesClear → AllExpanded G filter New D set') :
    WantsDone filter New D wants G TreesClear (ws ++ [w]) set' tips' := by
  refine ⟨hexp, ?_, ?_, ?_⟩
  · intro hcs w' hw' o ho
    rcases List.mem_append.mp hw' with hw' | hw'
    · obtain ⟨h1, h2⟩ := h.found (fun c hc => hcs c (htips c hc)) w' hw' o ho
      exact ⟨fun hc => htips o (h1 hc), fun hn => hsub (h2 hn)⟩
    · obtain rfl := List.mem_singleton.mp hw'
      obtain ⟨h1, h2⟩ := hpeel o ho
      exact ⟨h2, fun _ => h1⟩
  · intro c hc
    by_cases hmem : c ∈ tips
    · exact h.tips c hmem
    · exact hexpl c hc hmem
  · intro c hc hcc
    by_cases hmem : c ∈ set
    · exact h.tagged c hmem hcc
    · exact hnew c hc hmem hcc

theorem followTag_spec {R : Repo O} {n : ℕ} {cur cur' : O} {set set' : Finset O}
    (h : followTag R n cur set = .ok (cur', set')) :
    R.graph.Peel cur cur' ∧ (∃ x, R.find cur' = some x ∧ x.kind ≠ .tag) ∧ set ⊆ set' ∧
    (∀ o, R.graph.Peel cur o → o = cur ∨ o ∈ set') ∧
    (∀ o, R.graph.Peel cur o → R.graph.IsCommit o → o = cur') ∧
    ∀ o ∈ set', o ∉ set → ∃ a, R.graph.Peel cur a ∧ R.graph.Target a o := by
  induction n generalizing cur set with
  | zero => cases h
  | succ n ih =>
    simp only [followTag] at h
    cases hf : R.find cur with
    | none => simp [hf] at h
    | some x =>
      have hx := Repo.graph_of_find hf
      cases hk : x.kind with
      | tag =>
        cases x with
        | tag target =>
          simp only [hf] at h
          have htarget : R.graph.Target cur target := hx
          obtain ⟨hpeel, hend, hsub, hall, hcommit, hnew⟩ := ih h
          refine ⟨.head htarget hpeel, hend, (Finset.subset_insert _ _).trans hsub, ?_, ?_, ?_⟩
          · intro o ho
            rcases Relation.ReflTransGen.cases_head ho with rfl | ⟨b, hb, hbo⟩
            · exact .inl rfl
            · obtain rfl : target = b := Obj.tag.inj (Option.some.inj (hx.symm.trans hb))
              rcases hall o hbo with rfl | hmem
              · exact .inr (hsub (Finset.mem_insert_self _ _))
              · exact .inr hmem
          · intro o ho hc
            rcases Relation.ReflTransGen.cases_head ho with rfl | ⟨b, hb, hbo⟩
            · cases isCommit_kind hx hc
            · obtain rfl : target = b := Obj.tag.inj (Option.some.inj (hx.symm.trans hb))
              exact hcommit o hbo hc
          · intro o ho hno
            by_cases hot : o = target
            · exact ⟨cur, .refl, hot ▸ htarget⟩
            · obtain ⟨a, ha, hao⟩ := hnew o ho (by simp [hot, hno])
              exact ⟨a, .head htarget ha, hao⟩
        | commit _ _ => cases hk
        | tree _ => cases hk
        | blob _ => cases hk
      | _ =>
        have hend : cur = cur' ∧ set = set' := by
          cases x with
          | tag target => cases hk
          | commit _ _ => simpa [hf] using h
          | tree _ => simpa [hf] using h
          | blob _ => simpa [hf] using h
        obtain ⟨rfl, rfl⟩ := hend
        have hself : ∀ o, R.graph.Peel cur o → o = cur :=
          fun o ho => peel_self (fun b => not_target_of_kind hx (by simp [hk])) ho
        exact ⟨.refl, ⟨x, hf, by simp [hk]⟩, subset_rfl, fun o ho => .inl (hself o ho),
          fun o ho _ => hself o ho, fun o ho hno => absurd ho hno⟩

variable (G filter New wants) in
/-- No wanted tag leads to a tree that the client lacks, or no entry of a tree is asked for. -/
def TagTreesClear : Prop :=
  filter = .tree 0 ∨ ∀ a b, Explicit G wants a → G.Target a b → New b → ¬ G.IsTree b

theorem expanded_of_tagTreesClear {set : Finset O} {a b : O}
    (hd : Diffs G filter New D (Wanted G wants))
    (h : TagTreesClear G filter New wants) (ha : Explicit G wants a) (hab : G.Target a b) :
    Expanded G filter New D set b := by
  rcases h with rfl | h
  · exact expanded_of_tree_zero
  by_cases hn : New b
  · exact expanded_of_not_tree (h a b ha hab hn)
  · exact expanded_of_held hd hn

theorem WantsDone.wantObject {R : Repo O} {ws : List O} {w : O} {st st' : Finset O × List O}
    (hd : Diffs R.graph filter New D (Wanted R.graph wants))
    (hlocal : ∀ o, (R.graph.obj o).isSome → R.isLocal o)
    (h : WantsDone filter New D wants R.graph (TagTreesClear R.graph filter New wants) ws st.1 st.2)
    (hw : w ∈ wants) (hstep : wantObject R filter st w = .ok st') :
    WantsDone filter New D wants R.graph (TagTreesClear R.graph filter New wants) (ws ++ [w])
      st'.1 st'.2 := by
  unfold Objects.wantObject at hstep
  cases hf : R.find w with
  | none =>
    simp only [hf, Except.ok.injEq] at hstep
    subst hstep
    refine h.absent ?_
    by_contra hne
    have := hlocal w (Option.isSome_iff_ne_none.mpr hne)
    rw [Repo.find, if_pos this] at hf
    exact hne hf
  | some x =>
    have hx := Repo.graph_of_find hf
    cases x with
    | commit t ps =>
      simp only [hf, Except.ok.injEq] at hstep
      subst hstep
      exact h.commit hw hx
    | blob n =>
      simp only [hf, Except.ok.injEq] at hstep
      subst hstep
      exact h.leaf hx (.inl rfl)
    | tree es =>
      simp only [hf] at hstep
      split_ifs at hstep with hzero
      · simp only [Except.ok.injEq] at hstep
        subst hstep
        exact h.leaf hx (.inr ⟨rfl, hzero⟩)
      · obtain ⟨set, hwalk, rfl⟩ := map_eq_ok hstep
        exact h.tree hd hw hx hwalk
    | tag target =>
      simp only [hf] at hstep
      obtain ⟨⟨cur, set⟩, hfollow, hrest⟩ := bind_eq_ok hstep
      obtain ⟨hpeel, ⟨y, hy, hkind⟩, hsub, hall, hcommit, hnew⟩ := followTag_spec hfollow
      have hexpl : ∀ {o}, R.graph.Peel w o → Explicit R.graph wants o := fun ho => ⟨w, hw, ho⟩
      have htarget : ∀ o ∈ set, o ∉ st.1 → o = w ∨
          ∃ a, Explicit R.graph wants a ∧ R.graph.Target a o := by
        intro o ho hno
        by_cases how : o = w
        · exact .inl how
        · obtain ⟨a, ha, hao⟩ := hnew o ho (by simp [how, hno])
          exact .inr ⟨a, hexpl ha, hao⟩
      have hsub' : st.1 ⊆ set := (Finset.subset_insert _ _).trans hsub
      have hmem : ∀ o, R.graph.Peel w o → o ∈ set := by
        intro o ho
        rcases hall o ho with rfl | hmem
        · exact hsub (Finset.mem_insert_self _ _)
        · exact hmem
      have hexp : TagTreesClear R.graph filter New wants →
          AllExpanded R.graph filter New D set := by
        intro hclear o ho
        by_cases hold : o ∈ st.1
        · exact (h.expanded hclear o hold).mono hsub'
        rcases htarget o ho hold with rfl | ⟨a, ha, hao⟩
        · refine expanded_of_not_tree ?_
          rintro ⟨es, hes⟩
          simp [hx] at hes
        · exact expanded_of_tagTreesClear hd hclear ha hao
      have hnewc : ∀ o ∈ set, o ∉ st.1 → R.graph.IsCommit o →
          ∃ a, Explicit R.graph wants a ∧ R.graph.Target a o := by
        intro o ho hno hc
        rcases htarget o ho hno with rfl | hao
        · cases isCommit_kind hx hc
        · exact hao
      have hyx := Repo.graph_of_find hy
      cases y with
      | tag _ => exact absurd rfl hkind
      | commit t ps =>
        simp only [hy] at hrest
        cases hrest
        refine h.tag hsub' (fun c hc => List.mem_append_left _ hc) ?_ hnewc ?_ hexp
        · exact fun o ho => ⟨hmem o ho, fun hc => by simp [hcommit o ho hc]⟩
        · intro c hc hnc
          obtain rfl := List.mem_singleton.mp ((List.mem_append.mp hc).resolve_left hnc)
          exact hexpl hpeel
      | _ =>
        simp only [hy] at hrest
        cases hrest
        refine h.tag hsub' (fun c hc => hc) ?_ hnewc (fun c hc hnc => absurd hc hnc) hexp
        intro o ho
        refine ⟨hmem o ho, fun hc => ?_⟩
        obtain rfl := hcommit o ho hc
        cases isCommit_kind hyx hc

/-! ## The wants of `enumerate` -/

variable (filter New D wants) in
/-- What peeling `cur` did to the set and the tips. -/
structure Peeled (G : Graph O) (cur : O) (st : Collected O) (tips : List O) (st' : Collected O)
    (tips' : List O) : Prop where
  expanded : AllExpanded G filter New D st'.set
  sub : st.set ⊆ st'.set
  kept : ∀ c ∈ tips, c ∈ tips'
  found : ∀ o, G.Peel cur o → o ∈ st'.set ∧ (G.IsCommit o → o ∈ tips')
  tagged : ∀ o ∈ st'.set, o ∉ st.set → G.IsCommit o → ∃ a, Explicit G wants a ∧ G.Target a o
  explicit : ∀ c ∈ tips', c ∉ tips → Explicit G wants c

theorem peelWant_missing {R : Repo O} {n : ℕ} {cur : O} (st : Collected O) {st' : Collected O}
    {tips tips' : List O} (h : peelWant R filter n cur (st, tips) = .ok (st', tips'))
    (hmiss : st'.missing = []) : st.missing = [] := by
  induction n generalizing cur st with
  | zero => cases h
  | succ n ih =>
    simp only [peelWant] at h
    cases hf : R.find cur with
    | none =>
      simp only [hf, Except.ok.injEq, Prod.mk.injEq] at h
      obtain ⟨rfl, rfl⟩ := h
      simp at hmiss
    | some x =>
      cases x with
      | commit _ _ =>
        simp only [hf, Except.ok.injEq, Prod.mk.injEq] at h
        exact h.1 ▸ hmiss
      | blob _ =>
        simp only [hf, Except.ok.injEq, Prod.mk.injEq] at h
        obtain ⟨rfl, -⟩ := h
        exact hmiss
      | tree _ =>
        simp only [hf] at h
        obtain ⟨set, hwalk, hpair⟩ := map_eq_ok h
        cases hpair
        exact hmiss
      | tag target =>
        simp only [hf] at h
        exact ih (st.insert target) h

theorem peelWant_peeled {R : Repo O}
    (hd : Diffs R.graph filter New D (Wanted R.graph wants)) {n : ℕ}
    {cur : O} {st st' : Collected O} {tips tips' : List O}
    (h : peelWant R filter n cur (st, tips) = .ok (st', tips')) (hmiss : st'.missing = [])
    (hcur : Explicit R.graph wants cur) (hmem : cur ∈ st.set)
    (hexp : ∀ x ∈ st.set, x ≠ cur →
      Expanded R.graph filter New D st.set x) :
    Peeled filter New D wants R.graph cur st tips st' tips' := by
  induction n generalizing cur st with
  | zero => cases h
  | succ n ih =>
    simp only [peelWant] at h
    cases hf : R.find cur with
    | none =>
      simp only [hf, Except.ok.injEq, Prod.mk.injEq] at h
      obtain ⟨rfl, rfl⟩ := h
      simp at hmiss
    | some x =>
      have hx := Repo.graph_of_find hf
      have hleaf : ¬ R.graph.IsTree cur →
          AllExpanded R.graph filter New D st.set := by
        intro hnt y hy
        by_cases hyc : y = cur
        · exact hyc ▸ expanded_of_not_tree hnt
        · exact hexp y hy hyc
      have hself : x.kind ≠ .tag → ∀ o, R.graph.Peel cur o → o = cur :=
        fun hk o ho => peel_self (fun b => not_target_of_kind hx hk) ho
      cases x with
      | commit t ps =>
        simp only [hf, Except.ok.injEq, Prod.mk.injEq] at h
        obtain ⟨rfl, rfl⟩ := h
        refine ⟨hleaf ?_, subset_rfl, fun c hc => List.mem_append_left _ hc, ?_,
          fun o ho hno => absurd ho hno, ?_⟩
        · rintro ⟨es, hes⟩
          simp [hx] at hes
        · intro o ho
          obtain rfl := hself (by simp [Obj.kind]) o ho
          exact ⟨hmem, fun _ => by simp⟩
        · intro c hc hnc
          obtain rfl := List.mem_singleton.mp ((List.mem_append.mp hc).resolve_left hnc)
          exact hcur
      | blob size =>
        simp only [hf, Except.ok.injEq, Prod.mk.injEq] at h
        obtain ⟨rfl, rfl⟩ := h
        have hins : (st.insert cur).set = st.set := Finset.insert_eq_of_mem hmem
        refine ⟨?_, Finset.subset_insert _ _, fun c hc => hc, ?_, ?_,
          fun c hc hnc => absurd hc hnc⟩
        · rw [hins]
          refine hleaf ?_
          rintro ⟨es, hes⟩
          simp [hx] at hes
        · intro o ho
          obtain rfl := hself (by simp [Obj.kind]) o ho
          exact ⟨Finset.mem_insert_self _ _, fun hc => by cases isCommit_kind hx hc⟩
        · intro o ho hno
          rw [hins] at ho
          exact absurd ho hno
      | tree es =>
        simp only [hf] at h
        obtain ⟨set, hwalk, hpair⟩ := map_eq_ok h
        cases hpair
        rw [Finset.insert_eq_of_mem hmem] at hwalk
        have hwalks := walkTree_walks hd ⟨⟨hcur, ⟨es, hx⟩⟩, rfl⟩ (.start hmem) hexp hwalk
        refine ⟨hwalks.allExpanded hexp, hwalks.1.sub, fun c hc => hc, ?_, ?_,
          fun c hc hnc => absurd hc hnc⟩
        · intro o ho
          obtain rfl := hself (by simp [Obj.kind]) o ho
          exact ⟨hwalks.1.sub hmem, fun hc => by cases isCommit_kind hx hc⟩
        · intro o ho hno hc
          obtain ⟨j, hj⟩ := hwalks.1.below o ho hno
          exact absurd hc (not_isCommit_below hd.closed ⟨es, hx⟩ hj)
      | tag target =>
        simp only [hf] at h
        have htarget : R.graph.Target cur target := hx
        have hexpl : Explicit R.graph wants target := by
          obtain ⟨w, hw, hwc⟩ := hcur
          exact ⟨w, hw, hwc.tail htarget⟩
        have hnt : ¬ R.graph.IsTree cur := by
          rintro ⟨es, hes⟩
          simp [hx] at hes
        have hp := ih h hexpl (Finset.mem_insert_self _ _) (fun y hy hne =>
          (hleaf hnt y ((Finset.mem_insert.mp hy).resolve_left hne)).mono
            (Finset.subset_insert _ _))
        refine ⟨hp.expanded, (Finset.subset_insert _ _).trans hp.sub, hp.kept, ?_, ?_,
          hp.explicit⟩
        · intro o ho
          rcases Relation.ReflTransGen.cases_head ho with rfl | ⟨b, hb, hbo⟩
          · refine ⟨hp.sub (Finset.mem_insert_of_mem hmem), fun hc => ?_⟩
            cases isCommit_kind hx hc
          · obtain rfl : target = b := Obj.tag.inj (Option.some.inj (hx.symm.trans hb))
            exact hp.found o hbo
        · intro o ho hno hc
          by_cases hot : o = target
          · exact ⟨cur, hcur, hot ▸ htarget⟩
          · exact hp.tagged o ho (by simp [hot, hno]) hc

/-- What is not local can be faulted in. -/
def Served (R : Repo O) (faulter : Option (Faulter O)) : Prop :=
  ∀ o, (R.graph.obj o).isSome → R.isLocal o = true ∨ faulter.any (fun contains => contains o) = true

theorem enumerateWant_missing {R : Repo O} {faulter : Option (Faulter O)} {w : O}
    {st st' : Collected O × List O} (h : enumerateWant R filter faulter st w = .ok st')
    (hmiss : st'.1.missing = []) : st.1.missing = [] := by
  unfold enumerateWant at h
  cases hf : R.find w with
  | none =>
    simp only [hf] at h
    split_ifs at h
    all_goals
      cases h
      exact hmiss
  | some x =>
    cases x with
    | commit _ _ =>
      simp only [hf] at h
      cases h
      exact hmiss
    | blob _ =>
      simp only [hf] at h
      cases h
      exact hmiss
    | tree _ =>
      simp only [hf] at h
      split_ifs at h with hzero
      · cases h
        exact hmiss
      · obtain ⟨set, hwalk, rfl⟩ := map_eq_ok h
        exact hmiss
    | tag _ =>
      simp only [hf] at h
      exact peelWant_missing (st.1.insert w) h hmiss

theorem WantsDone.enumerateWant {R : Repo O} {faulter : Option (Faulter O)} {ws : List O} {w : O}
    {st st' : Collected O × List O}
    (hd : Diffs R.graph filter New D (Wanted R.graph wants))
    (hserved : Served R faulter)
    (h : WantsDone filter New D wants R.graph True ws st.1.set st.2) (hw : w ∈ wants)
    (hstep : enumerateWant R filter faulter st w = .ok st') (hmiss : st'.1.missing = []) :
    WantsDone filter New D wants R.graph True (ws ++ [w]) st'.1.set st'.2 := by
  unfold Objects.enumerateWant at hstep
  cases hf : R.find w with
  | none =>
    simp only [hf] at hstep
    split_ifs at hstep with hfault
    · simp only [Except.ok.injEq] at hstep
      subst hstep
      refine ⟨h.expanded, ?_, ?_, h.tagged⟩
      · intro hcs w' hw' o ho
        have hcs' : ∀ c ∈ st.2, R.graph.IsCommit c :=
          fun c hc => hcs c (List.mem_append_left _ hc)
        rcases List.mem_append.mp hw' with hw' | hw'
        · obtain ⟨h1, h2⟩ := h.found hcs' w' hw' o ho
          exact ⟨fun hc => List.mem_append_left _ (h1 hc), h2⟩
        · obtain rfl := List.mem_singleton.mp hw'
          obtain ⟨t, ps, hx⟩ := hcs w' (by simp)
          obtain rfl := peel_self (fun b => not_target_of_kind hx (by simp [Obj.kind])) ho
          exact ⟨fun _ => by simp, fun hn => absurd ⟨t, ps, hx⟩ hn⟩
      · intro c hc
        rcases List.mem_append.mp hc with hc | hc
        · exact h.tips c hc
        · obtain rfl := List.mem_singleton.mp hc
          exact ⟨c, hw, .refl⟩
    · simp only [Except.ok.injEq] at hstep
      subst hstep
      have hnone : R.graph.obj w = none := by
        by_contra hne
        rcases hserved w (Option.isSome_iff_ne_none.mpr hne) with hl | hl
        · rw [Repo.find, if_pos hl] at hf
          exact hne hf
        · exact hfault hl
      exact h.absent hnone
  | some x =>
    have hx := Repo.graph_of_find hf
    cases x with
    | commit t ps =>
      simp only [hf, Except.ok.injEq] at hstep
      subst hstep
      exact h.commit hw hx
    | blob n =>
      simp only [hf, Except.ok.injEq] at hstep
      subst hstep
      exact h.leaf hx (.inl rfl)
    | tree es =>
      simp only [hf] at hstep
      split_ifs at hstep with hzero
      · simp only [Except.ok.injEq] at hstep
        subst hstep
        exact h.leaf hx (.inr ⟨rfl, hzero⟩)
      · obtain ⟨set, hwalk, rfl⟩ := map_eq_ok hstep
        exact h.tree hd hw hx hwalk
    | tag target =>
      simp only [hf] at hstep
      have hnt : ¬ R.graph.IsTree w := by
        rintro ⟨es, hes⟩
        simp [hx] at hes
      have hp := peelWant_peeled hd hstep hmiss ⟨w, hw, .refl⟩ (Finset.mem_insert_self _ _)
        (fun y hy _ => (h.expanded trivial).insert (expanded_of_not_tree hnt) y hy)
      refine h.tag ((Finset.subset_insert _ _).trans hp.sub) hp.kept hp.found ?_ hp.explicit
        fun _ => hp.expanded
      intro o ho hno hc
      by_cases how : o = w
      · subst how
        cases isCommit_kind hx hc
      · exact hp.tagged o ho (by simp [how, hno]) hc

/-! ## All the wants -/

theorem foldlM_taken {ε α β : Type} {f : β → α → Except ε β} {I : List α → β → Prop}
    {xs : List α} (hstep : ∀ ys x s s', x ∈ xs → I ys s → f s x = .ok s' → I (ys ++ [x]) s')
    {s s' : β} (h : xs.foldlM f s = .ok s') (hs : I [] s) : I xs s' := by
  suffices hsuff : ∀ rest ys s, ys ++ rest = xs → I ys s → rest.foldlM f s = .ok s' → I xs s' from
    hsuff xs [] s rfl hs h
  intro rest
  induction rest with
  | nil =>
    rintro ys s hys hI ⟨⟩
    rw [List.append_nil] at hys
    exact hys ▸ hI
  | cons x rest ih =>
    intro ys s hys hI hrest
    rw [List.foldlM_cons] at hrest
    obtain ⟨t, ht, hrest⟩ := bind_eq_ok hrest
    refine ih (ys ++ [x]) t (by simp [hys]) ?_ hrest
    exact hstep ys x s t (hys ▸ by simp) hI ht

theorem wants_taken {R : Repo O}
    (hd : Diffs R.graph filter New D (Wanted R.graph wants))
    (hlocal : ∀ o, (R.graph.obj o).isSome → R.isLocal o) {st : Finset O × List O}
    (h : wants.foldlM (wantObject R filter) (∅, []) = .ok st) :
    WantsDone filter New D wants R.graph (TagTreesClear R.graph filter New wants) wants st.1 st.2 :=
  foldlM_taken (I := fun ws st => WantsDone filter New D wants R.graph
    (TagTreesClear R.graph filter New wants) ws st.1 st.2)
    (fun _ _ _ _ hw hI hstep => hI.wantObject hd hlocal hw hstep) h (.start _)

theorem enumerate_wants_taken {R : Repo O} {faulter : Option (Faulter O)}
    (hd : Diffs R.graph filter New D (Wanted R.graph wants))
    (hserved : Served R faulter) {st : Collected O × List O}
    (h : wants.foldlM (enumerateWant R filter faulter) (⟨∅, []⟩, []) = .ok st)
    (hmiss : st.1.missing = []) :
    WantsDone filter New D wants R.graph True wants st.1.set st.2 :=
  foldlM_taken (I := fun ws st => st.1.missing = [] →
    WantsDone filter New D wants R.graph True ws st.1.set st.2)
    (fun _ _ _ _ hw hI hstep hm =>
      (hI (enumerateWant_missing hstep hm)).enumerateWant hd hserved hw hstep hm)
    h (fun _ => .start _) hmiss

end Walk

end Walgit.Objects
