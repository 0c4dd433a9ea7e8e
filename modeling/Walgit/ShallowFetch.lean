import Walgit.ShallowSpec

/-!
# The run of a shallow fetch

An enumeration with a depth takes the commits within the depth that it does not
hide, and no other commit comes into its set. Below the trees of these commits
it finds everything that the client lacks.
-/

namespace Walgit.Objects

variable {O : Type} {G : Graph O} {wants haves : List O} {filter : PackFilter}

theorem mem_of_explicit (hw : ∀ w ∈ wants, G.IsCommit w) {o : O} (h : Explicit G wants o) :
    o ∈ wants := by
  obtain ⟨w, hmem, hwo⟩ := h
  obtain ⟨t, ps, hx⟩ := hw w hmem
  obtain rfl := peel_self (fun b => not_target_of_kind hx (by simp [Obj.kind])) hwo
  exact hmem

theorem not_target_of_explicit (hw : ∀ w ∈ wants, G.IsCommit w) {a b : O}
    (ha : Explicit G wants a) : ¬ G.Target a b := by
  obtain ⟨t, ps, hx⟩ := hw a (mem_of_explicit hw ha)
  exact not_target_of_kind hx (by simp [Obj.kind])

section Commits

variable [DecidableEq O] {R : Repo O}

theorem Grows.commit {set set' : Finset O} {t c : O} (hG : G.Closed) (h : Grows G set set' t)
    (ht : G.IsTree t) (hc : c ∈ set') (hcommit : G.IsCommit c) : c ∈ set := by
  by_contra hn
  obtain ⟨j, hj⟩ := h.below c hc hn
  exact not_isCommit_below hG ht hj hcommit

theorem diffTree_grows (hG : R.graph.Closed) {n : ℕ} {t : O} {olds : List (Old O)}
    {st : Collected O} (hn : R.graph.height t < n)
    (hmiss : (diffTreeNewObjects R filter n t olds 0 st).missing = []) :
    Grows R.graph st.set (diffTreeNewObjects R filter n t olds 0 st).set t := by
  have hd : Diffs R.graph filter (fun _ => False) (fun _ _ => True) (fun _ _ => True) :=
    diffs_nothing hG
  refine (diffTree_walks hd rfl _ hn trivial .root stops_zero
    (fun _ _ _ _ _ h => absurd h id) ?_ hmiss).1
  exact fun _ _ _ _ _ _ _ _ _ _ _ _ _ _ h => absurd h id

theorem mem_of_insert_commit {set : Finset O} {x c t : O} (ht : G.IsTree t) (hx : G.IsCommit x)
    (h : x ∈ insert t (insert c set)) : x ∈ set ∨ x = c := by
  rcases Finset.mem_insert.mp h with rfl | h
  · obtain ⟨es, hes⟩ := ht
    obtain ⟨t', ps, hc⟩ := hx
    simp [hes] at hc
  · exact (Finset.mem_insert.mp h).symm

theorem walkCommit_commits (hG : R.graph.Closed) {plain : Bool} {set set' : Finset O} {c x : O}
    (hstep : walkCommit R filter plain set c = .ok set') (hx : x ∈ set')
    (hcommit : R.graph.IsCommit x) : x ∈ set ∨ x = c := by
  have hins : x ∈ insert c set → x ∈ set ∨ x = c := fun h => (Finset.mem_insert.mp h).symm
  unfold walkCommit at hstep
  by_cases hmem : c ∈ set
  · rw [if_pos hmem] at hstep
    cases hstep
    exact .inl hx
  rw [if_neg hmem] at hstep
  by_cases hplain : plain = true
  · rw [if_pos hplain] at hstep
    cases hstep
    exact hins hx
  rw [if_neg hplain] at hstep
  cases hf : R.find c with
  | none => simp [hf] at hstep
  | some y =>
    cases y with
    | tree _ => simp [hf] at hstep
    | blob _ => simp [hf] at hstep
    | tag _ => simp [hf] at hstep
    | commit t ps =>
      have ht := isTree_of_treeOf hG ⟨ps, Repo.graph_of_find hf⟩
      simp only [hf] at hstep
      split_ifs at hstep
      · cases hstep
        exact hins hx
      · cases hstep
        exact hins hx
      · exact mem_of_insert_commit ht hcommit ((walkTree_grows hG hstep).commit hG ht hx hcommit)

theorem walkCommits_commits (hG : R.graph.Closed) {plain : Bool} {set set' : Finset O}
    {cs : List O} (hwalk : cs.foldlM (walkCommit R filter plain) set = .ok set') {x : O}
    (hx : x ∈ set') (hcommit : R.graph.IsCommit x) : x ∈ set ∨ x ∈ cs :=
  foldlM_taken (I := fun done s => x ∈ s → x ∈ set ∨ x ∈ done)
    (fun done c s s' _ hI hstep hx => by
      rcases walkCommit_commits hG hstep hx hcommit with h | rfl
      · exact (hI h).imp_right (List.mem_append_left _)
      · exact .inr (by simp))
    hwalk (fun h => .inl h) hx

theorem enterTree_commits (hG : R.graph.Closed) {t x : O} {olds : List (Old O)}
    (st : Collected O) (ht : R.graph.IsTree t)
    (hmiss : (enterTree R filter t olds st).missing = [])
    (hx : x ∈ (enterTree R filter t olds st).set) (hcommit : R.graph.IsCommit x) : x ∈ st.set := by
  unfold enterTree at hmiss hx
  split_ifs at hmiss hx
  · exact hx
  · have hmem := (diffTree_grows hG (Nat.lt_succ_self _) hmiss).commit hG ht hx hcommit
    rcases Finset.mem_insert.mp hmem with rfl | hmem
    · obtain ⟨es, hes⟩ := ht
      obtain ⟨t', ps, hc⟩ := hcommit
      simp [hes] at hc
    · exact hmem

theorem enumerateCommit_commits (hG : R.graph.Closed) {diffMode : Bool} {hidden : List O}
    {st st' : Collected O × ℕ} {c x : O}
    (hstep : enumerateCommit R filter diffMode hidden st c = .ok st') (hmiss : st'.1.missing = [])
    (hx : x ∈ st'.1.set) (hcommit : R.graph.IsCommit x) : x ∈ st.1.set ∨ x = c := by
  have hins : x ∈ insert c st.1.set → x ∈ st.1.set ∨ x = c :=
    fun h => (Finset.mem_insert.mp h).symm
  unfold enumerateCommit at hstep
  by_cases hskip : c ∈ hidden ∨ c ∈ st.1.set
  · rw [if_pos hskip] at hstep
    cases hstep
    exact .inl hx
  rw [if_neg hskip] at hstep
  cases hf : R.find c with
  | none =>
    simp only [hf] at hstep
    cases hstep
    exact hins hx
  | some y =>
    cases y with
    | tree _ => simp [hf] at hstep
    | blob _ => simp [hf] at hstep
    | tag _ => simp [hf] at hstep
    | commit t ps =>
      have ht := isTree_of_treeOf hG ⟨ps, Repo.graph_of_find hf⟩
      simp only [hf] at hstep
      split_ifs at hstep with hzero hfull
      · cases hstep
        exact hins hx
      · cases hstep
        exact hins (enterTree_commits hG (st.1.insert c) ht hmiss hx hcommit)
      · obtain ⟨⟨olds, lost⟩, -, hstep⟩ := bind_eq_ok hstep
        split_ifs at hstep
        · cases hstep
          exact hins (enterTree_commits hG (st.1.insert c) ht hmiss hx hcommit)
        · cases hstep
          exact hins (Finset.mem_of_mem_erase hx)

theorem enumerateCommits_commits (hG : R.graph.Closed) {diffMode : Bool} {hidden cs : List O}
    {st st' : Collected O × ℕ}
    (hwalk : cs.foldlM (enumerateCommit R filter diffMode hidden) st = .ok st')
    (hmiss : st'.1.missing = []) {x : O} (hx : x ∈ st'.1.set) (hcommit : R.graph.IsCommit x) :
    x ∈ st.1.set ∨ x ∈ cs :=
  foldlM_taken (I := fun done s => s.1.missing = [] → x ∈ s.1.set → x ∈ st.1.set ∨ x ∈ done)
    (fun done c s s' _ hI hstep hm hx => by
      rcases enumerateCommit_commits hG hstep hm hx hcommit with h | rfl
      · exact (hI (enumerateCommit_missing hstep hm) h).imp_right (List.mem_append_left _)
      · exact .inr (by simp))
    hwalk (fun _ h => .inl h) hmiss hx

theorem enumerateCommits_in (hG : R.graph.Closed) {diffMode : Bool} {hidden cs : List O}
    {st st' : Collected O × ℕ} (hcs : ∀ c ∈ cs, c ∉ hidden)
    (hwalk : cs.foldlM (enumerateCommit R filter diffMode hidden) st = .ok st')
    (hmiss : st'.1.missing = []) : ∀ c ∈ cs, c ∈ st'.1.set := by
  have hd : Diffs R.graph filter (fun _ => False) (fun _ _ => True) (fun _ _ => True) :=
    diffs_nothing hG
  refine (enumerateCommits_done hd hcs (fun _ _ _ _ _ => trivial) ⟨?_, ?_⟩ hwalk hmiss).2.2
  · exact fun _ _ _ _ _ _ _ _ _ _ _ _ _ h => absurd h id
  · exact fun _ _ _ _ _ h => absurd h id

end Commits

/-! ## The commits of the walk -/

section Walked

variable {req : UploadPackRequest O} {d : ℕ} {cs hidden : List O}

theorem walked_iff (hG : G.Closed) (hw : ∀ w ∈ req.wants, G.IsCommit w) (hd : 0 < d)
    (hhidden : ∀ c, (∃ x ∈ hidden, G.Ancestor x c) ↔ Hides G req haves d c)
    (hcs : ∀ c, c ∈ cs ↔ Requested G req.wants c ∧ G.IsCommit c ∧ ¬ ∃ x ∈ hidden, G.Ancestor x c)
    (c : O) : c ∈ cs ↔ Within G req.wants d c ∧ ¬ Hides G req haves d c := by
  rw [hcs c, hhidden c]
  constructor
  · rintro ⟨hreq, hc, hnot⟩
    refine ⟨?_, hnot⟩
    by_contra hwithin
    obtain ⟨w, hexp, -, hwc⟩ := hreq.ancestor hG hc
    exact hnot (.inr (cutOff_of_beyond hd (mem_of_explicit hw hexp) hwc hwithin))
  · rintro ⟨hwithin, hnot⟩
    exact ⟨hwithin.requested, hwithin.isCommit hG hw, hnot⟩

variable [DecidableEq O]

variable (haves) in
theorem hides_iff {exclude : List O} (hex : ∀ p, p ∈ exclude ↔ CutOff G req.wants d p) (c : O) :
    (∃ x ∈ hiddenOf req haves exclude, G.Ancestor x c) ↔ Hides G req haves d c := by
  simp only [hiddenOf, Hides, List.mem_append, List.mem_filter, decide_eq_true_eq, hex]
  constructor
  · rintro ⟨x, ⟨hx, hs⟩ | hx, hxc⟩
    · exact .inl ⟨x, hx, hs, hxc⟩
    · exact .inr ⟨x, hx, hxc⟩
  · rintro (⟨x, hx, hs, hxc⟩ | ⟨x, hx, hxc⟩)
    · exact ⟨x, .inl ⟨hx, hs⟩, hxc⟩
    · exact ⟨x, .inr hx, hxc⟩

/-- What an enumeration with a depth does: `set` is its set, `cs` the commits of its walk. -/
structure ShallowRun (G : Graph O) (req : UploadPackRequest O) (haves : List O) (d : ℕ)
    (cs : List O) (set : Finset O) : Prop where
  walked : ∀ c, c ∈ cs ↔ Within G req.wants d c ∧ ¬ Hides G req haves d c
  commits : ∀ c, G.IsCommit c → (c ∈ set ↔ c ∈ cs)
  contents : ShallowClear G req haves d → (haves ≠ [] → DiffsClear G req haves d) →
    ∀ c ∈ cs, ∀ t k o, G.TreeOf c t → G.Under k t o → ¬ ClientHas G req.shallow haves o → o ∈ set

variable {plan : ShallowPlan O} {set : Finset O}

theorem ShallowRun.complete (hG : G.Closed) (hw : ∀ w ∈ req.wants, G.IsCommit w) (hd : 0 < d)
    (hplan : ∀ c, c ∈ plan.shallow ↔ Boundary G req.wants d c)
    (h : ShallowRun G req haves d cs set) (hclear : ShallowClear G req haves d)
    (hdiffs : haves ≠ [] → DiffsClear G req haves d) :
    ShallowComplete G req haves d plan set := by
  have hin : ∀ c, Within G req.wants d c → ¬ ClientHas G req.shallow haves c → c ∈ cs :=
    fun c hc hn => (h.walked c).mpr ⟨hc, fun hh => hn (hclear.reached c hc hh)⟩
  have hcommits : ∀ c, Within G req.wants d c → c ∈ set ∨ ClientHas G req.shallow haves c := by
    intro c hc
    by_cases hn : ClientHas G req.shallow haves c
    · exact .inr hn
    · exact .inl ((h.commits c (hc.isCommit hG hw)).mpr (hin c hc hn))
  have hcontents : ∀ c t k o, Within G req.wants d c → G.TreeOf c t → G.Under k t o →
      o ∈ set ∨ ClientHas G req.shallow haves o := by
    intro c t k o hc ht hu
    by_cases hn : ClientHas G req.shallow haves o
    · exact .inr hn
    · have hnc : ¬ ClientHas G req.shallow haves c := fun hh => hn ((hh.tree hG ht).under hu)
      exact .inl (h.contents hclear hdiffs c (hin c hc hnc) t k o ht hu hn)
  refine ⟨hcommits, hcontents, hplan, fun c => ?_, fun a o ha hreach => ?_⟩
  · rw [mem_unshallowLines hplan]
    refine ⟨fun ⟨hs, hb⟩ => ⟨hs, hb, fun p hp => ?_⟩, fun ⟨hs, hb, _⟩ => ⟨hs, hb⟩⟩
    rcases hclear.deepened c hs hb p hp with hp | hp
    · exact hcommits p hp
    · exact .inr hp
  · rcases client_reach_cases hG hw hd hclear hplan ha hreach with ho | ho | ⟨c, t, k, hc, ht, hu⟩
    · exact .inr ho
    · exact hcommits o ho
    · exact hcontents c t k o hc ht hu

/-- A complete shallow fetch hides only what the client holds, and deepens past a shallow commit
only with its parents. -/
theorem ShallowRun.clear (hG : G.Closed) (hw : ∀ w ∈ req.wants, G.IsCommit w)
    (hplan : ∀ c, c ∈ plan.shallow ↔ Boundary G req.wants d c)
    (h : ShallowRun G req haves d cs set) (hc : ShallowComplete G req haves d plan set) :
    ShallowClear G req haves d := by
  refine ⟨fun c hwithin hhides => ?_, fun c hs hb p hp => ?_⟩
  · refine (hc.commits c hwithin).resolve_left fun hmem => ?_
    have hcs := (h.commits c (hwithin.isCommit hG hw)).mp hmem
    exact ((h.walked c).mp hcs).2 hhides
  · have hline := (mem_unshallowLines hplan).mpr ⟨hs, hb⟩
    rcases ((hc.unshallow c).mp hline).2.2 p hp with hmem | hheld
    · have hcs := (h.commits p (isCommit_of_parent hG hp)).mp hmem
      exact .inl ((h.walked p).mp hcs).1
    · exact .inr hheld

end Walked

end Walgit.Objects
