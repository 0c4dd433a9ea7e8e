import Walgit.FetchCommits

/-!
# A fetch from a local repository succeeds

When every object is local and the haves and the boundary are commits, nothing
fails and nothing is missing.
-/

namespace Walgit.Objects

variable {O : Type} {R : Repo O} {filter : PackFilter}

/-- Every object of the graph is in the object database. -/
def AllLocal (R : Repo O) : Prop := ∀ o, (R.graph.obj o).isSome → R.isLocal o = true

theorem AllLocal.find (h : AllLocal R) (o : O) : R.find o = R.graph.obj o := by
  unfold Repo.find
  split_ifs with hl
  · rfl
  · by_contra hne
    exact hl (h o (Option.isSome_iff_ne_none.mpr (Ne.symm hne)))

/-- A fold succeeds when its steps do, from every state that an invariant allows. -/
theorem foldlM_ok {ε α β : Type} {f : β → α → Except ε β} {I : β → Prop} {l : List α}
    (hstep : ∀ s, I s → ∀ x ∈ l, ∃ s', f s x = .ok s' ∧ I s') {s : β} (hs : I s) :
    ∃ s', l.foldlM f s = .ok s' ∧ I s' := by
  induction l generalizing s with
  | nil => exact ⟨s, rfl, hs⟩
  | cons x l ih =>
    obtain ⟨t, ht, hIt⟩ := hstep s hs x List.mem_cons_self
    obtain ⟨s', hs', hIs'⟩ := ih (fun s hs y hy => hstep s hs y (List.mem_cons_of_mem _ hy)) hIt
    exact ⟨s', by rw [List.foldlM_cons, ht]; exact hs', hIs'⟩

theorem isTree_of_entry (hG : R.graph.Closed) {t : O} {es : List (Entry O)} {e : Entry O}
    (ht : R.graph.obj t = some (.tree es)) (he : e ∈ es) (hm : e.mode = .tree) :
    R.graph.IsTree e.oid := by
  obtain ⟨x, hx⟩ := Option.isSome_iff_exists.mp
    (hG (Graph.link_entry ht he (by rw [hm]; decide)))
  have hkind := R.graph.entry_kind ht he hx
  rw [hm] at hkind
  cases x with
  | tree es' => exact ⟨es', hx⟩
  | commit _ _ => cases hkind
  | blob _ => cases hkind
  | tag _ => cases hkind

theorem walkFrom_ok {β : Type} {G : Graph O} (rw : RevWalk G)
    (step : β → O → Except (GitError O) β) {I : β → Prop} {tips : List O} (hidden : List O)
    (init : β) (hG : G.Closed) (ht : ∀ c ∈ tips, G.IsCommit c) (hh : ∀ c ∈ hidden, G.IsCommit c)
    (hstep : ∀ s, I s → ∀ c, G.IsCommit c → ∃ s', step s c = .ok s' ∧ I s') (hinit : I init) :
    ∃ s, walkFrom rw step tips hidden init = .ok s ∧ I s := by
  unfold walkFrom
  split_ifs
  · exact ⟨init, rfl, hinit⟩
  · obtain ⟨cs, hcs⟩ := Option.isSome_iff_exists.mp (rw.total ht hh)
    simp only [hcs]
    refine foldlM_ok (fun s hs c hc => hstep s hs c ?_) hinit
    obtain ⟨⟨t, htip, hanc⟩, -⟩ := (rw.mem_iff hcs).mp hc
    exact isCommit_of_ancestor hG (ht t htip) hanc

theorem treeEntries_some (hl : AllLocal R) {t : O} (ht : (R.graph.obj t).isSome) :
    ∃ es, treeEntries R t = some es ∧ (es = [] ∨ R.graph.obj t = some (.tree es)) := by
  obtain ⟨x, hx⟩ := Option.isSome_iff_exists.mp ht
  unfold treeEntries
  rw [hl.find, hx]
  cases x with
  | tree es => exact ⟨es, rfl, .inr rfl⟩
  | commit _ _ => exact ⟨[], rfl, .inl rfl⟩
  | blob _ => exact ⟨[], rfl, .inl rfl⟩
  | tag _ => exact ⟨[], rfl, .inl rfl⟩

/-- The old trees are objects of the graph. -/
def OldsPresent (G : Graph O) (olds : List (Old O)) : Prop :=
  ∀ t, Old.tree t ∈ olds → (G.obj t).isSome

theorem OldsPresent.lost (hl : AllLocal R) {olds : List (Old O)} (h : OldsPresent R.graph olds) :
    lostOlds R olds = [] := by
  refine List.filterMap_eq_nil_iff.mpr fun old hold => ?_
  cases old with
  | absent => rfl
  | tree t =>
    obtain ⟨es, hes, -⟩ := treeEntries_some hl (h t hold)
    simp [hes]

theorem OldsPresent.subs (hG : R.graph.Closed) {olds : List (Old O)} (name : String) :
    OldsPresent R.graph ((olds.map (entriesOf R.graph)).map (subOld name)) := by
  intro t ht
  simp only [List.map_map, List.mem_map, Function.comp_apply] at ht
  obtain ⟨old, -, hsub⟩ := ht
  unfold subOld at hsub
  cases hat : entryAt (entriesOf R.graph old) name with
  | none => simp [hat] at hsub
  | some e =>
    simp only [hat] at hsub
    split_ifs at hsub with hm
    obtain rfl : e.oid = t := Old.tree.inj hsub
    have hmem := (entryAt_mem hat).1
    cases old with
    | absent => simp [entriesOf] at hmem
    | tree oid =>
      unfold entriesOf at hmem
      cases hobj : R.graph.obj oid with
      | none => simp [hobj] at hmem
      | some x =>
        cases x <;> simp only [hobj, List.not_mem_nil] at hmem
        exact hG (Graph.link_entry hobj hmem (by rw [hm]; decide))

theorem parentTrees_ok (hl : AllLocal R) {ps : List O} (hps : ∀ p ∈ ps, R.graph.IsCommit p) :
    parentTrees R ps = .ok (parentOlds R.graph ps, []) := by
  have htotal : ∃ found, parentTrees R ps = .ok found ∧ found.2 = [] := by
    refine foldlM_ok (I := fun acc : List (Old O) × List O => acc.2 = []) (fun acc hacc p hp => ?_)
      (s := ([], [])) rfl
    obtain ⟨t, ps', hp⟩ := hps p hp
    simp only [hl.find, hp]
    exact ⟨_, rfl, hacc⟩
  obtain ⟨⟨olds, lost⟩, hok, hlost⟩ := htotal
  obtain rfl : lost = [] := hlost
  rw [hok, parentTrees_eq hok]

section Total

variable [DecidableEq O]

theorem walkTreeWithFilter_ok (hG : R.graph.Closed) (hl : AllLocal R) {n : ℕ} {t : O} (depth : ℕ)
    (set : Finset O) (ht : R.graph.IsTree t) (hn : R.graph.height t < n) :
    ∃ set', walkTreeWithFilter R filter n t depth set = .ok set' := by
  induction n generalizing t depth set with
  | zero => omega
  | succ n ih =>
    obtain ⟨es, hes⟩ := ht
    simp only [walkTreeWithFilter, hl.find, hes]
    obtain ⟨set', hset', -⟩ := foldlM_ok (I := fun _ => True) (l := es) (s := set)
      (f := walkEntry (fun o s => walkTreeWithFilter R filter n o (depth + 1) s) R filter depth)
      (fun s _ e he => by
        unfold walkEntry
        split_ifs with hm hstop hmem hgit hskip
        · exact ⟨_, rfl, trivial⟩
        · exact ⟨_, rfl, trivial⟩
        · have hlt := (Graph.link_entry hes he (by rw [hm]; decide)).height_lt
          obtain ⟨s', hs'⟩ := ih (depth + 1) (insert e.oid s)
            (isTree_of_entry hG hes he hm) (by omega)
          exact ⟨s', hs', trivial⟩
        · exact ⟨_, rfl, trivial⟩
        · exact ⟨_, rfl, trivial⟩
        · exact ⟨_, rfl, trivial⟩) trivial
    exact ⟨set', hset'⟩

variable (filter) in
theorem walkTree_ok (hG : R.graph.Closed) (hl : AllLocal R) {t : O} (set : Finset O)
    (ht : R.graph.IsTree t) : ∃ set', walkTree R filter t set = .ok set' :=
  walkTreeWithFilter_ok hG hl 0 set ht (Nat.lt_succ_self _)

theorem followTag_ok (hG : R.graph.Closed) (hl : AllLocal R) {n : ℕ} {cur : O} (set : Finset O)
    (hc : (R.graph.obj cur).isSome) (hn : R.graph.height cur < n) :
    ∃ st, followTag R n cur set = .ok st := by
  induction n generalizing cur set with
  | zero => omega
  | succ n ih =>
    obtain ⟨x, hx⟩ := Option.isSome_iff_exists.mp hc
    simp only [followTag, hl.find, hx]
    cases x with
    | tag target =>
      have hlink : R.graph.Link cur target := Graph.link_target hx
      have := hlink.height_lt
      exact ih _ (hG hlink) (by omega)
    | commit _ _ => exact ⟨_, rfl⟩
    | tree _ => exact ⟨_, rfl⟩
    | blob _ => exact ⟨_, rfl⟩

theorem wantObject_ok (hG : R.graph.Closed) (hl : AllLocal R) (st : Finset O × List O)
    (ht : ∀ c ∈ st.2, R.graph.IsCommit c) (w : O) :
    ∃ st', wantObject R filter st w = .ok st' ∧ ∀ c ∈ st'.2, R.graph.IsCommit c := by
  have hpush : ∀ {c : O}, R.graph.IsCommit c → ∀ d ∈ st.2 ++ [c], R.graph.IsCommit d := by
    intro c hc d hd
    rcases List.mem_append.mp hd with hd | hd
    · exact ht d hd
    · exact List.mem_singleton.mp hd ▸ hc
  unfold wantObject
  cases hx : R.find w with
  | none => exact ⟨_, rfl, ht⟩
  | some x =>
    have hobj := Repo.graph_of_find hx
    cases x with
    | commit t ps => exact ⟨_, rfl, hpush ⟨t, ps, hobj⟩⟩
    | blob _ => exact ⟨_, rfl, ht⟩
    | tree es =>
      dsimp only
      split_ifs
      · exact ⟨_, rfl, ht⟩
      · obtain ⟨set, hset⟩ := walkTree_ok filter hG hl (insert w st.1) ⟨es, hobj⟩
        exact ⟨(set, st.2), by rw [hset]; rfl, ht⟩
    | tag target =>
      obtain ⟨⟨cur, set⟩, hfollow⟩ := followTag_ok hG hl (insert w st.1)
        (by simp [hobj]) (Nat.lt_succ_self (R.graph.height w))
      simp only [hfollow]
      obtain ⟨-, ⟨y, hy, -⟩, -⟩ := followTag_spec hfollow
      have hyobj := Repo.graph_of_find hy
      cases y with
      | commit t ps =>
        exact ⟨(set, st.2 ++ [cur]), by simp [bind, Except.bind, hy, pure, Except.pure],
          hpush ⟨t, ps, hyobj⟩⟩
      | _ => exact ⟨(set, st.2), by simp [bind, Except.bind, hy, pure, Except.pure], ht⟩

variable (filter) in
theorem walkCommit_ok (hG : R.graph.Closed) (hl : AllLocal R) {plain : Bool} (set : Finset O)
    {c : O} (hc : R.graph.IsCommit c) : ∃ set', walkCommit R filter plain set c = .ok set' := by
  obtain ⟨t, ps, hobj⟩ := hc
  simp only [walkCommit, hl.find, hobj]
  split_ifs
  · exact ⟨_, rfl⟩
  · exact ⟨_, rfl⟩
  · exact ⟨_, rfl⟩
  · exact ⟨_, rfl⟩
  · exact walkTree_ok filter hG hl _ (isTree_of_treeOf hG ⟨ps, hobj⟩)

theorem computeObjectSet_ok (hG : R.graph.Closed) (hl : AllLocal R) (rw : RevWalk R.graph)
    (refs wants : List O) {haves exclude : List O} (hh : ∀ h ∈ haves, R.graph.IsCommit h)
    (filter : Option String) (includeTag : Bool) {deepen : Option ℕ}
    (hb : boundary R wants deepen = .ok exclude) (he : ∀ c ∈ exclude, R.graph.IsCommit c) :
    ∃ set, computeObjectSet R rw refs wants haves filter includeTag deepen = .ok set := by
  obtain ⟨⟨set, tips⟩, hwants, htips⟩ := foldlM_ok
    (f := wantObject R (filterOf filter)) (l := wants) (s := ((∅ : Finset O), ([] : List O)))
    (I := fun st => ∀ c ∈ st.2, R.graph.IsCommit c)
    (fun st hst w _ => wantObject_ok hG hl st hst w) (fun _ hc => absurd hc List.not_mem_nil)
  obtain ⟨set', hset', -⟩ := walkFrom_ok (I := fun _ : Finset O => True) rw
    (walkCommit R (filterOf filter) (filter.isNone && deepen.isNone && haves.isEmpty))
    (haves ++ exclude) set hG htips (fun c hc => (List.mem_append.mp hc).elim (hh c) (he c))
    (fun s _ c hc => by
      obtain ⟨s', hs'⟩ := walkCommit_ok (filterOf filter) hG hl s hc
      exact ⟨s', hs', trivial⟩) trivial
  refine ⟨if includeTag then includeTags R refs set' else set', ?_⟩
  unfold computeObjectSet
  rw [hwants, hb]
  change (walkFrom rw _ tips (haves ++ exclude) set >>= fun set => pure _) = _
  rw [hset']
  rfl

/-! ## `enumerate` -/

theorem diffTree_present (hG : R.graph.Closed) (hl : AllLocal R) {n : ℕ} {t : O}
    {subs : List (Old O)} {depth : ℕ} {st : Collected O} (ht : (R.graph.obj t).isSome)
    (hsubs : OldsPresent R.graph subs) (hst : st.missing = []) :
    (diffTreeNewObjects R filter n t subs depth st).missing = [] := by
  induction n generalizing t subs depth st with
  | zero => exact hst
  | succ n ih =>
    obtain ⟨es, hes, hobj⟩ := treeEntries_some hl ht
    have hlost := hsubs.lost hl
    simp only [diffTreeNewObjects, hes, hlost, if_true, oldEntries_eq rfl hlost]
    rcases hobj with rfl | hobj
    · exact hst
    suffices hfold : ∀ rest : List (Entry O), (∀ e ∈ rest, e ∈ es) → ∀ st : Collected O,
        st.missing = [] →
        (rest.foldl (diffEntry (fun o subs s => diffTreeNewObjects R filter n o subs (depth + 1) s)
          R filter depth (subs.map (entriesOf R.graph))) st).missing = [] from
      hfold es (fun _ h => h) st hst
    intro rest hrest
    induction rest with
    | nil => exact fun st h => h
    | cons e rest ihrest =>
      intro st hst
      rw [List.foldl_cons]
      refine ihrest (fun e' he' => hrest e' (List.mem_cons_of_mem _ he')) _ ?_
      have he := hrest e List.mem_cons_self
      unfold diffEntry
      split_ifs with hgit hun hm hstop hmem hskip
      · exact hst
      · exact hst
      · exact hst
      · exact hst
      · exact ih (hG (Graph.link_entry hobj he hgit)) (OldsPresent.subs hG e.name) hst
      · exact hst
      · exact hst

theorem enterTree_present (hG : R.graph.Closed) (hl : AllLocal R) {t : O} {olds : List (Old O)}
    {st : Collected O} (ht : (R.graph.obj t).isSome) (holds : OldsPresent R.graph olds)
    (hst : st.missing = []) : (enterTree R filter t olds st).missing = [] := by
  unfold enterTree
  split_ifs
  · exact hst
  · exact diffTree_present hG hl ht holds hst

theorem peelWant_ok (hG : R.graph.Closed) (hl : AllLocal R) {n : ℕ} {cur : O} (st : Collected O)
    {tips : List O} (hc : (R.graph.obj cur).isSome) (hn : R.graph.height cur < n)
    (hst : st.missing = []) (ht : ∀ c ∈ tips, R.graph.IsCommit c) :
    ∃ st', peelWant R filter n cur (st, tips) = .ok st' ∧ st'.1.missing = [] ∧
      ∀ c ∈ st'.2, R.graph.IsCommit c := by
  induction n generalizing cur st with
  | zero => omega
  | succ n ih =>
    obtain ⟨x, hx⟩ := Option.isSome_iff_exists.mp hc
    simp only [peelWant, hl.find, hx]
    cases x with
    | tag target =>
      have hlink : R.graph.Link cur target := Graph.link_target hx
      have := hlink.height_lt
      exact ih (st.insert target) (hG hlink) (by omega) hst
    | commit t ps =>
      refine ⟨_, rfl, hst, fun c hc => ?_⟩
      rcases List.mem_append.mp hc with hc | hc
      · exact ht c hc
      · exact List.mem_singleton.mp hc ▸ ⟨t, ps, hx⟩
    | blob _ => exact ⟨_, rfl, hst, ht⟩
    | tree es =>
      obtain ⟨set, hset⟩ := walkTree_ok filter hG hl (insert cur st.set) ⟨es, hx⟩
      exact ⟨(⟨set, st.missing⟩, tips), by simp [hset, Except.map], hst, ht⟩

theorem enumerateWant_ok (hG : R.graph.Closed) (hl : AllLocal R)
    (st : Collected O × List O) (hst : st.1.missing = [] ∧ ∀ c ∈ st.2, R.graph.IsCommit c) (w : O) :
    ∃ st', enumerateWant R filter none st w = .ok st' ∧ st'.1.missing = [] ∧
      ∀ c ∈ st'.2, R.graph.IsCommit c := by
  obtain ⟨hmiss, ht⟩ := hst
  unfold enumerateWant
  cases hx : R.find w with
  | none => exact ⟨_, rfl, hmiss, ht⟩
  | some x =>
    have hobj := Repo.graph_of_find hx
    cases x with
    | commit t ps =>
      refine ⟨_, rfl, hmiss, fun c hc => ?_⟩
      rcases List.mem_append.mp hc with hc | hc
      · exact ht c hc
      · exact List.mem_singleton.mp hc ▸ ⟨t, ps, hobj⟩
    | blob _ => exact ⟨_, rfl, hmiss, ht⟩
    | tree es =>
      dsimp only
      split_ifs
      · exact ⟨_, rfl, hmiss, ht⟩
      · obtain ⟨set, hset⟩ :=
          walkTree_ok filter hG hl (insert w st.1.set) ⟨es, hobj⟩
        exact ⟨(⟨set, st.1.missing⟩, st.2), by simp [hset, Except.map], hmiss, ht⟩
    | tag target =>
      exact peelWant_ok hG hl (st.1.insert w) (by simp [hobj]) (Nat.lt_succ_self _) hmiss ht

theorem enumerateCommit_ok (hG : R.graph.Closed) (hl : AllLocal R) {diffMode : Bool}
    {hidden : List O} (st : Collected O × ℕ) (hst : st.1.missing = []) {c : O}
    (hc : R.graph.IsCommit c) :
    ∃ st', enumerateCommit R filter diffMode hidden st c = .ok st' ∧ st'.1.missing = [] := by
  obtain ⟨t, ps, hobj⟩ := hc
  have htree : (R.graph.obj t).isSome := hG (Graph.link_tree ⟨ps, hobj⟩)
  have hparent : ∀ p ∈ ps, R.graph.IsCommit p :=
    fun p hp => isCommit_of_parent hG ⟨t, ps, hobj, hp⟩
  have holds : OldsPresent R.graph (parentOlds R.graph ps) := by
    intro t' ht'
    obtain ⟨p, -, hpt⟩ := mem_parentOlds.mp ht'
    exact hG (Graph.link_tree hpt)
  simp only [enumerateCommit, hl.find, hobj]
  split_ifs
  · exact ⟨_, rfl, hst⟩
  · exact ⟨_, rfl, hst⟩
  · refine ⟨_, rfl, enterTree_present hG hl htree ?_ hst⟩
    exact fun t' ht' => absurd ht' List.not_mem_nil
  · rw [parentTrees_ok hl hparent]
    exact ⟨_, rfl, enterTree_present hG hl htree holds hst⟩

theorem enumerate_ok (hG : R.graph.Closed) (hl : AllLocal R) (rw : RevWalk R.graph)
    (refs : List O) {haves exclude : List O} (hh : ∀ h ∈ haves, R.graph.IsCommit h)
    (req : UploadPackRequest O) (hb : boundary R req.wants req.deepen = .ok exclude)
    (he : ∀ c ∈ exclude, R.graph.IsCommit c) :
    ∃ set n diffed, enumerate R rw refs req haves none = .ok (.done set n diffed) := by
  by_cases hpath : haves = [] ∧ (none : Option (Faulter O)).isNone
  · obtain ⟨set, hset⟩ :=
      computeObjectSet_ok hG hl rw refs req.wants hh req.filter req.includeTag hb he
    refine ⟨set, 0, false, ?_⟩
    unfold enumerate
    rw [if_pos hpath, hset]
    rfl
  · obtain ⟨⟨st, tips⟩, hwants, hmiss, htips⟩ := foldlM_ok
      (f := enumerateWant R (filterOf req.filter) none) (l := req.wants)
      (s := ((⟨∅, []⟩ : Collected O), ([] : List O)))
      (I := fun st => st.1.missing = [] ∧ ∀ c ∈ st.2, R.graph.IsCommit c)
      (fun st hst w _ => enumerateWant_ok hG hl st hst w)
      ⟨rfl, fun _ hc => absurd hc List.not_mem_nil⟩
    obtain ⟨⟨st', taken⟩, hset, hmiss'⟩ := walkFrom_ok
      (I := fun st : Collected O × ℕ => st.1.missing = []) rw
      (enumerateCommit R (filterOf req.filter) (!haves.isEmpty)
        ((haves.filter fun h => h ∉ req.shallow) ++ exclude))
      ((haves.filter fun h => h ∉ req.shallow) ++ exclude) (st, 0) hG htips
      (fun c hc => (List.mem_append.mp hc).elim (fun h => hh c (List.mem_of_mem_filter h)) (he c))
      (fun s hs c hc => enumerateCommit_ok hG hl s hs hc) hmiss
    refine ⟨if req.includeTag then includeTags R refs st'.set else st'.set, taken,
      !haves.isEmpty, ?_⟩
    unfold enumerate
    rw [if_neg hpath]
    dsimp only
    rw [hwants, hb]
    change (walkFrom rw _ tips _ (st, 0) >>= fun st => _) = _
    rw [hset]
    change (if st'.missing = [] then _ else _) = _
    rw [if_pos hmiss']
    rfl

end Total

end Walgit.Objects
