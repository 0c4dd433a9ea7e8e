import Walgit.Enumerate
import Mathlib.Data.Finset.Card

/-!
# The difference of two trees

A diff of a tree against old trees prunes an entry that stands unchanged in all
of them, by name and id. What it misses of the tree so pruned all old trees
hold, so it is the difference of what is reachable up to objects that all old
trees hold as well, and what is local has no part in it.
-/

namespace Walgit.Objects

variable {O : Type} [DecidableEq O]

section Spec

variable (G : Graph O) (root : O) (olds : List (Old O))

/-- An entry that the diff of `root` looks at, and whether it is the same in all old trees. -/
def Entered (e : Entry O) (same : Bool) : Prop :=
  ∃ t k subs es, Changed G root olds t k subs ∧ G.obj t = some (.tree es) ∧ e ∈ es ∧
    e.mode ≠ .gitlink ∧ unchanged (subs.map (entriesOf G)) e = same

/-- The object stands at a path at which some old tree has another one or none. -/
def Differs (o : O) : Prop := ∃ e, Entered G root olds e false ∧ e.oid = o

/-- The object stands, at one of its paths, in what is the same in all old trees. -/
def Stays (o : O) : Prop := ∃ e j, Entered G root olds e true ∧ G.Under j e.oid o

def Common (o : O) : Prop := olds ≠ [] ∧ ∀ old ∈ olds, ∃ r k, old = .tree r ∧ G.Under k r o

end Spec

variable {G : Graph O} {R : Repo O} {filter : PackFilter} {root t o : O} {olds subs : List (Old O)}
  {k : ℕ} {e : Entry O} {es : List (Entry O)}

section Paths

theorem Changed.aligned (h : Changed G root olds t k subs) :
    List.Forall₂ (fun old sub => ∀ s, sub = .tree s → ∃ r, old = .tree r ∧ G.Under k r s)
      olds subs := by
  induction h with
  | root => exact List.forall₂_same.mpr fun old _ s hs => ⟨s, hs, .here s⟩
  | @entry t k subs es e _ ht he hm _ ih =>
    rw [List.map_map, List.forall₂_map_right_iff]
    refine ih.imp fun old sub hsub s hs => ?_
    simp only [Function.comp_apply, subOld] at hs
    cases hat : entryAt (entriesOf G sub) e.name with
    | none => simp [hat] at hs
    | some e' =>
      simp only [hat] at hs
      split_ifs at hs with hmode
      obtain rfl : e'.oid = s := Old.tree.inj hs
      have hmem := (entryAt_mem hat).1
      cases sub with
      | absent => simp [entriesOf] at hmem
      | tree oid =>
        obtain ⟨r, hr, hur⟩ := hsub oid rfl
        unfold entriesOf at hmem
        cases hobj : G.obj oid with
        | none => simp [hobj] at hmem
        | some x =>
          cases x <;> simp only [hobj, List.not_mem_nil] at hmem
          exact ⟨r, hr, hur.trans (.entry hobj hmem (by rw [hmode]; decide) (.here _))⟩

theorem Stays.common (hG : G.Closed) (h : Stays G root olds o) : Common G olds o := by
  obtain ⟨e, j, ⟨t, k, subs, es, hch, ht, he, hm, hun⟩, hu⟩ := h
  rw [unchanged, Bool.and_eq_true, Bool.not_eq_true', List.isEmpty_eq_false_iff,
    List.all_eq_true] at hun
  have haligned := hch.aligned
  constructor
  · rintro rfl
    rw [List.forall₂_nil_left_iff.mp haligned] at hun
    exact hun.1 rfl
  · intro old hold
    obtain ⟨hlen, hget⟩ := List.forall₂_iff_get.mp haligned
    obtain ⟨i, hi, rfl⟩ := List.getElem_of_mem hold
    have hi' : i < subs.length := hlen ▸ hi
    have hsub : subs[i] ∈ subs := List.getElem_mem hi'
    obtain ⟨s, hs, hunder⟩ := under_of_entryAt hG ht he hm (hun.2 _ (List.mem_map_of_mem hsub))
    obtain ⟨r, hr, hur⟩ := hget i hi hi' s hs
    exact ⟨r, k + (j + 1), hr, hur.trans (hunder hu)⟩

theorem Stays.below {j : ℕ} (h : Stays G root olds t) (hu : G.Under j t o) :
    Stays G root olds o := by
  obtain ⟨e, i, he, hi⟩ := h
  exact ⟨e, i + j, he, hi.trans hu⟩

theorem Entered.under {same : Bool} (h : Entered G root olds e same) :
    ∃ j, G.Under (j + 1) root e.oid := by
  obtain ⟨t, k, subs, es, hch, ht, he, hm, -⟩ := h
  exact ⟨k, hch.under.trans (.entry ht he hm (.here _))⟩

end Paths

section Rule

variable {P : Collected O → Prop}

omit [DecidableEq O] in
theorem treeEntries_eq_none : treeEntries R t = none ↔ R.find t = none := by
  unfold treeEntries
  cases R.find t with
  | none => exact iff_of_true rfl rfl
  | some x => cases x <;> exact iff_of_false nofun nofun

omit [DecidableEq O] in
theorem find_of_mem_lostOlds (h : o ∈ lostOlds R olds) : R.find o = none := by
  obtain ⟨old, -, hold⟩ := List.mem_filterMap.mp h
  cases old with
  | absent => cases hold
  | tree oid =>
    simp only at hold
    split_ifs at hold with hsome
    obtain rfl := Option.some.inj hold
    exact treeEntries_eq_none.mp (Option.not_isSome_iff_eq_none.mp hsome)

theorem diffTree_rule (hR : R.graph = G)
    (hinsert : ∀ {st e}, Entered G root olds e false → P st → P (st.insert e.oid))
    (hlost : ∀ {st : Collected O} {set : Finset O} {l : List O}, set ⊆ st.set →
      (∀ o ∈ l, R.find o = none) → P st → P ⟨set, st.missing ++ l⟩) {n : ℕ} {st : Collected O}
    (hch : Changed G root olds t k subs) (hst : P st) :
    P (diffTreeNewObjects R filter n t subs k st) := by
  induction n generalizing t k subs st with
  | zero => exact hst
  | succ n ih =>
    rw [diffTreeNewObjects]
    cases hes : treeEntries R t with
    | none =>
      refine hlost subset_rfl (fun o ho => ?_) hst
      rw [List.mem_singleton.mp ho]
      exact treeEntries_eq_none.mp hes
    | some es =>
      simp only
      split_ifs with hlocal
      swap
      · exact hlost (Finset.erase_subset _ _) (fun o => find_of_mem_lostOlds) hst
      rw [oldEntries_eq hR hlocal]
      have hentries : es = entriesOf G (.tree t) := hR ▸ treeEntries_eq hes
      have hentered : ∀ e ∈ es, e.mode ≠ .gitlink →
          Entered G root olds e (unchanged (subs.map (entriesOf G)) e) ∧
            ∃ es', G.obj t = some (.tree es') ∧ e ∈ es' := fun e he hm => by
        rw [hentries, entriesOf] at he
        split at he
        · next es' ht => exact ⟨⟨t, k, subs, es', hch, ht, he, hm, rfl⟩, es', ht, he⟩
        · cases he
      clear hentries hes
      induction es generalizing st with
      | nil => exact hst
      | cons e es ihes =>
        rw [List.foldl_cons]
        refine ihes ?_ fun e' he' => hentered e' (List.mem_cons_of_mem e he')
        unfold diffEntry
        split_ifs with hgit hun hmode hstop hmem hskip
        · exact hst
        · exact hst
        · exact hinsert (by simpa [hun] using (hentered e List.mem_cons_self hgit).1) hst
        · exact hst
        · obtain ⟨hent, es', ht, he⟩ := hentered e List.mem_cons_self hgit
          rw [Bool.not_eq_true] at hun
          rw [hun] at hent
          exact ih (.entry hch ht he hmode hun) (hinsert hent hst)
        · exact hst
        · exact hinsert (by simpa [hun] using (hentered e List.mem_cons_self hgit).1) hst

theorem diffTree_differs (hR : R.graph = G) {n : ℕ} {m : List O} (ho : o ∈
    (diffTreeNewObjects R filter n root olds 0 ⟨{root}, m⟩).set) :
    o = root ∨ Differs G root olds o := by
  have hkept := @diffTree_rule O _ G R filter root root olds olds 0
    (fun st => ∀ o ∈ st.set, o = root ∨ Differs G root olds o) hR
    (fun he hst o ho => (Finset.mem_insert.mp ho).elim (fun heq => .inr ⟨_, he, heq.symm⟩)
      fun ho => hst o ho) (fun hsub _ hst o ho => hst o (hsub ho)) n ⟨{root}, m⟩ .root
    fun o ho => .inl (Finset.mem_singleton.mp ho)
  exact hkept o ho

theorem diffTree_missing_find {n : ℕ} {st : Collected O}
    (hst : ∀ o ∈ st.missing, R.find o = none) :
    ∀ o ∈ (diffTreeNewObjects R filter n t olds 0 st).missing, R.find o = none :=
  @diffTree_rule O _ R.graph R filter t t olds olds 0
    (fun st => ∀ o ∈ st.missing, R.find o = none) rfl (fun _ h => h)
    (fun _ hl h o ho => (List.mem_append.mp ho).elim (h o) (hl o)) n st .root hst

end Rule

section Fill

variable (G root olds filter) in
/-- Every entry of the tree that stays nowhere and that the filter wants is in the set. -/
def Filled (set : Finset O) (t : O) : Prop :=
  ∀ ⦃es e⦄, G.obj t = some (.tree es) → e ∈ es → e.mode ≠ .gitlink →
    ¬ Stays G root olds e.oid → filter.Wants G e.oid → e.oid ∈ set

variable (G root olds filter) in
/-- The trees of height below `r` in the set are filled. -/
def FilledBelow (set : Finset O) (r : ℕ) : Prop :=
  ∀ t ∈ set, G.height t < r → Filled G filter root olds set t

variable {set set' : Finset O} {r n : ℕ} {st : Collected O}

theorem Filled.mono (hsub : set ⊆ set') (h : Filled G filter root olds set t) :
    Filled G filter root olds set' t :=
  fun _ _ ht he hm hstay hwant => hsub (h ht he hm hstay hwant)

omit [DecidableEq O] in
theorem not_skips (hR : R.graph = G) (hblob : G.IsBlob o) (h : filter.Wants G o) :
    filter.skips R o = false := by
  obtain ⟨size, hsize⟩ := hblob
  cases filter with
  | none => rfl
  | tree _ => rfl
  | blobNone => exact absurd ⟨size, hsize⟩ h
  | blobLimit limit =>
    have hlt := h size hsize
    rw [PackFilter.skips]
    cases hf : R.find o with
    | none => rfl
    | some x =>
      have hx := hR ▸ Repo.graph_of_find hf
      obtain rfl : x = .blob size := Option.some.inj (hx.symm.trans hsize)
      exact decide_eq_false (by omega)

variable (G root olds filter) in
/-- The walk of a tree fills it and every smaller tree. -/
def Fills (set set' : Finset O) (t : O) : Prop :=
  Grows G set set' t ∧ FilledBelow G filter root olds set' (G.height t) ∧
    Filled G filter root olds set' t

theorem FilledBelow.insert (h : FilledBelow G filter root olds set r)
    (ho : G.height o < r → Filled G filter root olds (Insert.insert o set) o) :
    FilledBelow G filter root olds (Insert.insert o set) r := by
  intro t ht hr
  rcases Finset.mem_insert.mp ht with rfl | hmem
  · exact ho hr
  · exact (h t hmem hr).mono (Finset.subset_insert _ _)

theorem FilledBelow.enter (h : FilledBelow G filter root olds set r) (ho : G.height o < r) :
    FilledBelow G filter root olds (Insert.insert o set) (G.height o) := by
  intro t ht hlt
  rcases Finset.mem_insert.mp ht with rfl | hmem
  · exact absurd hlt (lt_irrefl _)
  · exact (h t hmem (hlt.trans ho)).mono (Finset.subset_insert _ _)

theorem FilledBelow.lift (h : FilledBelow G filter root olds set r)
    (hwalk : Fills G filter root olds (Insert.insert o set) set' o) :
    FilledBelow G filter root olds set' r := by
  obtain ⟨hgrow, hsmall, hself⟩ := hwalk
  intro t ht hr
  by_cases hmem : t ∈ set
  · exact (h t hmem hr).mono ((Finset.subset_insert _ _).trans hgrow.sub)
  · by_cases heq : t = o
    · exact heq ▸ hself
    · obtain ⟨i, hi⟩ := hgrow.below t ht (by simp [heq, hmem])
      have := hi.height_le
      exact hsmall t ht (by omega)

theorem stops_eq_false (hdepth : ∀ d, filter ≠ .tree d) : filter.stops k = false := by
  cases filter with
  | tree d => exact absurd rfl (hdepth d)
  | none => rfl
  | blobNone => rfl
  | blobLimit _ => rfl

/-- One entry: what it adds stands below the tree, every smaller tree stays filled, and the entry
is in the set unless it stays. `hdesc` is the walk of an entry's own tree. -/
theorem diffEntry_fills (hG : G.Closed) (hR : R.graph = G) (hdepth : ∀ d, filter ≠ .tree d)
    {descend : O → List (Old O) → Collected O → Collected O}
    (hdesc : ∀ {o subs s}, G.height o < G.height t → Changed G root olds o (k + 1) subs →
      FilledBelow G filter root olds s.set (G.height o) → (descend o subs s).missing = [] →
      Fills G filter root olds s.set (descend o subs s).set o)
    (hch : Changed G root olds t k subs) (ht : G.obj t = some (.tree es)) (he : e ∈ es)
    (hfill : FilledBelow G filter root olds st.set (G.height t))
    (hmiss : (diffEntry descend R filter k (subs.map (entriesOf G)) st e).missing = []) :
    Grows G st.set (diffEntry descend R filter k (subs.map (entriesOf G)) st e).set t ∧
    FilledBelow G filter root olds
      (diffEntry descend R filter k (subs.map (entriesOf G)) st e).set (G.height t) ∧
    (e.mode ≠ .gitlink → ¬ Stays G root olds e.oid → filter.Wants G e.oid →
      e.oid ∈ (diffEntry descend R filter k (subs.map (entriesOf G)) st e).set) := by
  unfold diffEntry at hmiss ⊢
  by_cases hgit : e.mode = .gitlink
  · simp only [hgit, if_true]
    exact ⟨.refl _ _, hfill, fun h => absurd rfl h⟩
  by_cases hun : unchanged (subs.map (entriesOf G)) e = true
  · simp only [hgit, hun, if_false, if_true]
    refine ⟨.refl _ _, hfill, fun _ hstay => absurd ?_ hstay⟩
    exact ⟨e, 0, ⟨t, k, subs, es, hch, ht, he, hgit, hun⟩, .here _⟩
  have hstops := @stops_eq_false filter (k + 1) hdepth
  have hheight := (Graph.link_entry ht he hgit).height_lt
  simp only [hgit, hun, hstops, if_false, Bool.false_eq_true] at hmiss ⊢
  cases hmode : e.mode with
  | gitlink => exact absurd hmode hgit
  | tree =>
    simp only [hmode, if_true] at hmiss ⊢
    by_cases hmem : e.oid ∈ st.set
    · simp only [hmem, if_true]
      exact ⟨.refl _ _, hfill, fun _ _ _ => trivial⟩
    · simp only [hmem, if_false] at hmiss ⊢
      have hwalk := hdesc hheight (.entry hch ht he hmode (by simpa using hun))
        (hfill.enter hheight) hmiss
      refine ⟨(Grows.insert ht he hgit).trans (hwalk.1.lift ht he hgit), hfill.lift hwalk, ?_⟩
      exact fun _ _ _ => hwalk.1.sub (Finset.mem_insert_self _ _)
  | blob =>
    simp only [reduceCtorEq, if_false]
    obtain ⟨x, hx⟩ := Option.isSome_iff_exists.mp (hG (Graph.link_entry ht he hgit))
    have hkind := G.entry_kind ht he hx
    rw [hmode] at hkind
    cases x with
    | commit _ _ => cases hkind
    | tree _ => cases hkind
    | tag _ => cases hkind
    | blob size =>
      split_ifs with hskip
      · refine ⟨.refl _ _, hfill, fun _ _ hwant => ?_⟩
        rw [not_skips hR ⟨size, hx⟩ hwant] at hskip
        cases hskip
      · refine ⟨.insert ht he hgit, hfill.insert fun _ es' _ hes' => ?_,
          fun _ _ _ => Finset.mem_insert_self _ _⟩
        rw [hx] at hes'
        cases hes'

theorem diffEntries_fills (hG : G.Closed) (hR : R.graph = G) (hdepth : ∀ d, filter ≠ .tree d)
    {descend : O → List (Old O) → Collected O → Collected O} {rest : List (Entry O)}
    (hmono : ∀ o subs s, (descend o subs s).missing = [] → s.missing = [])
    (hdesc : ∀ {o subs s}, G.height o < G.height t → Changed G root olds o (k + 1) subs →
      FilledBelow G filter root olds s.set (G.height o) → (descend o subs s).missing = [] →
      Fills G filter root olds s.set (descend o subs s).set o)
    (hch : Changed G root olds t k subs) (ht : G.obj t = some (.tree es))
    (hsub : ∀ e ∈ rest, e ∈ es) (hfill : FilledBelow G filter root olds st.set (G.height t))
    (hmiss : (rest.foldl (diffEntry descend R filter k (subs.map (entriesOf G))) st).missing
      = []) :
    Grows G st.set
      (rest.foldl (diffEntry descend R filter k (subs.map (entriesOf G))) st).set t ∧
    FilledBelow G filter root olds
      (rest.foldl (diffEntry descend R filter k (subs.map (entriesOf G))) st).set (G.height t) ∧
    ∀ e ∈ rest, e.mode ≠ .gitlink → ¬ Stays G root olds e.oid → filter.Wants G e.oid →
      e.oid ∈ (rest.foldl (diffEntry descend R filter k (subs.map (entriesOf G))) st).set := by
  induction rest generalizing st with
  | nil => exact ⟨.refl _ _, hfill, fun e he => absurd he List.not_mem_nil⟩
  | cons e rest ih =>
    rw [List.foldl_cons] at hmiss ⊢
    have hmiss1 := foldl_missing (diffEntry_missing hmono) rest _ hmiss
    obtain ⟨hgrow1, hfill1, hent1⟩ :=
      diffEntry_fills hG hR hdepth hdesc hch ht (hsub e List.mem_cons_self) hfill hmiss1
    obtain ⟨hgrow2, hfill2, hent2⟩ :=
      ih (fun e' he' => hsub e' (List.mem_cons_of_mem _ he')) hfill1 hmiss
    refine ⟨hgrow1.trans hgrow2, hfill2, fun e' he' hm hstay hwant => ?_⟩
    rcases List.mem_cons.mp he' with rfl | he'
    · exact hgrow2.sub (hent1 hm hstay hwant)
    · exact hent2 e' he' hm hstay hwant

theorem diffTree_fills (hG : G.Closed) (hR : R.graph = G) (hdepth : ∀ d, filter ≠ .tree d)
    (hn : G.height t < n) (hch : Changed G root olds t k subs)
    (hfill : FilledBelow G filter root olds st.set (G.height t))
    (hmiss : (diffTreeNewObjects R filter n t subs k st).missing = []) :
    Fills G filter root olds st.set (diffTreeNewObjects R filter n t subs k st).set t := by
  induction n generalizing t k subs st with
  | zero => omega
  | succ n ih =>
    simp only [diffTreeNewObjects] at hmiss ⊢
    cases hes : treeEntries R t with
    | none => simp [hes] at hmiss
    | some es =>
      simp only [hes] at hmiss ⊢
      by_cases hlost : lostOlds R subs = []
      swap
      · simp only [hlost, if_false, List.append_eq_nil_iff, and_false] at hmiss
      simp only [hlost, if_true, oldEntries_eq hR hlost] at hmiss ⊢
      have hentries : es = entriesOf G (.tree t) := hR ▸ treeEntries_eq hes
      by_cases htree : G.IsTree t
      · obtain ⟨es', ht⟩ := htree
        obtain rfl : es' = es := by rw [hentries, entriesOf, ht]
        obtain ⟨hgrow, hsmall, hent⟩ := diffEntries_fills hG hR hdepth
          (fun o subs s hm => diffTree_missing o subs s hm)
          (fun hlt hch' hfill' hm => ih (by omega) hch' hfill' hm) hch ht (fun _ he => he)
          hfill hmiss
        refine ⟨hgrow, hsmall, fun es'' e ht' he => ?_⟩
        obtain rfl : es'' = es' := Obj.tree.inj (Option.some.inj (ht'.symm.trans ht))
        exact hent e he
      · -- an object that is no tree has no entries
        have hnil : es = [] := by
          rw [hentries, entriesOf]
          split
          · next es' ht => exact absurd ⟨es', ht⟩ htree
          · rfl
        subst hnil
        exact ⟨.refl _ _, hfill, fun es' _ ht => absurd ⟨es', ht⟩ htree⟩

omit [DecidableEq O] in
theorem PackFilter.Wants.above {j : ℕ} (hu : G.Under j t o) (h : filter.Wants G o) :
    filter.Wants G t := by
  cases j with
  | zero => rwa [Graph.under_zero.mp hu]
  | succ j =>
    obtain ⟨es, _, ht, -⟩ := hu.cases_head
    cases filter with
    | none => trivial
    | tree _ => trivial
    | blobNone =>
      rintro ⟨size, hsize⟩
      simp [ht] at hsize
    | blobLimit limit =>
      intro size hsize
      simp [ht] at hsize

/-- In a set whose trees are filled stands what is below one of them and stays nowhere. The
induction is on the path. -/
theorem mem_of_filled {j : ℕ} (hset : ∀ t ∈ set, Filled G filter root olds set t) (ht : t ∈ set)
    (hu : G.Under j t o) (hstay : ¬ Stays G root olds o) (hwant : filter.Wants G o) :
    o ∈ set := by
  induction j generalizing t with
  | zero => rwa [← Graph.under_zero.mp hu]
  | succ j ih =>
    obtain ⟨es, e, hes, he, hm, hu'⟩ := hu.cases_head
    have hentry : e.oid ∈ set :=
      hset t ht hes he hm (fun h => hstay (h.below hu')) (hwant.above hu')
    exact ih hentry hu'

theorem diffTree_covers (hG : G.Closed) (hR : R.graph = G) (hdepth : ∀ d, filter ≠ .tree d)
    (hn : G.height root < n) {j : ℕ}
    (hmiss : (diffTreeNewObjects R filter n root olds 0 ⟨{root}, []⟩).missing = [])
    (hu : G.Under j root o) (hstay : ¬ Stays G root olds o) (hwant : filter.Wants G o) :
    o ∈ (diffTreeNewObjects R filter n root olds 0 ⟨{root}, []⟩).set := by
  have hstart : FilledBelow G filter root olds {root} (G.height root) := fun t ht hlt => by
    rw [Finset.mem_singleton.mp ht] at hlt
    exact absurd hlt (lt_irrefl _)
  obtain ⟨hgrow, hsmall, hself⟩ := diffTree_fills hG hR hdepth hn .root hstart hmiss
  refine mem_of_filled (fun t ht => ?_) (hgrow.sub (Finset.mem_singleton_self root)) hu hstay hwant
  by_cases heq : t = root
  · exact heq ▸ hself
  · obtain ⟨i, hi⟩ := hgrow.below t ht fun hmem => heq (Finset.mem_singleton.mp hmem)
    have := hi.height_le
    exact hsmall t ht (by omega)

end Fill

section Local

/-- The store in which everything is local. -/
def Repo.whole (R : Repo O) : Repo O := ⟨R.graph, fun _ => true⟩

variable {n : ℕ} {st : Collected O}

omit [DecidableEq O] in
theorem treeEntries_whole (h : treeEntries R t = some es) : treeEntries R.whole t = some es := by
  unfold treeEntries at h ⊢
  cases hf : R.find t with
  | none => simp [hf] at h
  | some x =>
    have hgraph : R.graph.obj t = some x := Repo.graph_of_find hf
    have hwhole : R.whole.find t = some x := hgraph
    rwa [hwhole, ← hf]

omit [DecidableEq O] in
theorem oldEntries_whole (h : lostOlds R olds = []) : lostOlds R.whole olds = [] ∧
    (olds.map fun old => (oldEntries R.whole old).getD []) =
      olds.map fun old => (oldEntries R old).getD [] := by
  have hsome : ∀ oid, Old.tree oid ∈ olds → ∃ es, treeEntries R oid = some es := fun oid hold => by
    by_contra hnone
    have hmem : oid ∈ lostOlds R olds := by
      refine List.mem_filterMap.mpr ⟨.tree oid, hold, if_neg fun h => hnone ?_⟩
      exact Option.isSome_iff_exists.mp h
    rw [h] at hmem
    cases hmem
  constructor
  · refine List.filterMap_eq_nil_iff.mpr fun old hold => ?_
    cases old with
    | absent => rfl
    | tree oid =>
      obtain ⟨es, hes⟩ := hsome oid hold
      exact if_pos (by rw [treeEntries_whole hes]; rfl)
  · refine List.map_congr_left fun old hold => ?_
    cases old with
    | absent => rfl
    | tree oid =>
      obtain ⟨es, hes⟩ := hsome oid hold
      rw [oldEntries, oldEntries, treeEntries_whole hes, hes]

theorem diffTree_whole (hlimit : ∀ limit, filter ≠ .blobLimit limit)
    (hmiss : (diffTreeNewObjects R filter n t olds k st).missing = []) :
    diffTreeNewObjects R filter n t olds k st =
      diffTreeNewObjects R.whole filter n t olds k st := by
  have hskips : ∀ o, filter.skips R.whole o = filter.skips R o := fun o => by
    cases filter with
    | blobLimit limit => exact absurd rfl (hlimit limit)
    | none => rfl
    | blobNone => rfl
    | tree _ => rfl
  induction n generalizing t olds k st with
  | zero => rfl
  | succ n ih =>
    simp only [diffTreeNewObjects] at hmiss ⊢
    cases hes : treeEntries R t with
    | none => simp [hes] at hmiss
    | some es =>
      simp only [hes] at hmiss
      rw [treeEntries_whole hes]
      by_cases hlost : lostOlds R olds = []
      swap
      · simp only [hlost, if_false, List.append_eq_nil_iff, and_false] at hmiss
      obtain ⟨hwhole, hmaps⟩ := oldEntries_whole hlost
      simp only [hlost, hwhole, hmaps, if_true] at hmiss ⊢
      clear hes
      induction es generalizing st with
      | nil => rfl
      | cons e es ihes =>
        rw [List.foldl_cons] at hmiss ⊢
        have hmiss1 := foldl_missing
          (diffEntry_missing fun o subs st hm => diffTree_missing o subs st hm) es _ hmiss
        have hentry : diffEntry (fun o subs s => diffTreeNewObjects R filter n o subs (k + 1) s) R
              filter k (olds.map fun old => (oldEntries R old).getD []) st e =
            diffEntry (fun o subs s => diffTreeNewObjects R.whole filter n o subs (k + 1) s)
              R.whole filter k (olds.map fun old => (oldEntries R old).getD []) st e := by
          unfold diffEntry at hmiss1 ⊢
          rw [hskips]
          split_ifs with hgit hun hmode hstop hmem hskip
          · rfl
          · rfl
          · rfl
          · rfl
          · simp only [hun, hmode, hstop, hmem, if_false, if_true] at hmiss1
            exact ih hmiss1
          · rfl
          · rfl
        rw [ihes hmiss, hentry, List.foldl_cons]

end Local

end Walgit.Objects
