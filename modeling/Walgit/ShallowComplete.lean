import Walgit.ShallowFetch
import Walgit.FetchComplete

/-!
# A shallow fetch is complete

Both ways of enumerating a shallow fetch, the conditions under which the client
can use what it gets, and fetches that leave it with missing objects.
-/

namespace Walgit.Objects

variable {O : Type} {G : Graph O} {R : Repo O} {req : UploadPackRequest O} {haves : List O}

theorem tagTreesClear_of_commits {New : O → Prop} {filter : PackFilter} {wants : List O}
    (hw : ∀ w ∈ wants, G.IsCommit w) : TagTreesClear G filter New wants :=
  .inr fun _ _ ha hab => absurd hab (not_target_of_explicit hw ha)

theorem tagCommitsClear_of_commits {New : O → Prop} {filter : PackFilter} {wants : List O}
    (hw : ∀ w ∈ wants, G.IsCommit w) : TagCommitsClear G filter New wants :=
  .inr fun _ _ _ ha hab => absurd hab (not_target_of_explicit hw ha)

variable (haves) in
theorem clientHas_of_under (shallow : List O) {k : ℕ} {a b : O} (hu : G.Under k a b)
    (hb : ¬ ClientHas G shallow haves b) : ¬ ClientHas G shallow haves a :=
  fun ha => hb (ha.under hu)

section Runs

variable [DecidableEq O]

theorem WantsDone.no_commit {New : O → Prop} {filter : PackFilter} {wants tips : List O}
    {TreesClear : Prop} {set : Finset O} {C : O → List (Old O) → Prop}
    (h : WantsDone filter New C wants G TreesClear wants set tips)
    (hw : ∀ w ∈ wants, G.IsCommit w) {c : O} (hc : c ∈ set) : ¬ G.IsCommit c := by
  intro hcommit
  obtain ⟨a, ha, hac⟩ := h.tagged c hc hcommit
  exact not_target_of_explicit hw ha hac

variable {depth : ℕ} {plan : ShallowPlan O} {set : Finset O}

theorem computeObjectSet_shallow (hG : R.graph.Closed)
    (hlocal : ∀ o, (R.graph.obj o).isSome → R.isLocal o = true) {rw : RevWalk R.graph}
    {refs : List O} {includeTag : Bool} (hfilter : req.filter = none)
    (hplan : computeShallow R req.wants depth = .ok plan)
    (h : computeObjectSet R rw refs req.wants [] req.filter includeTag (some depth) = .ok set) :
    ∃ cs, ShallowRun R.graph req [] (effectiveDepth depth) cs set := by
  obtain ⟨hw, -, hexclude⟩ := computeShallow_spec hplan
  obtain ⟨set₀, tips, exclude, set₁, hwants, hb, hset, hsub, hcommits⟩ := computeObjectSet_steps h
  obtain rfl : plan.exclude = exclude := by simpa [boundary, hplan, Except.map] using hb
  rw [hfilter] at hset hwants
  have hnew : ∀ {k a b}, R.graph.Under k a b → ¬ ClientHas R.graph req.shallow [] b →
    ¬ ClientHas R.graph req.shallow [] a := clientHas_of_under [] req.shallow
  have hd := diffs_whole hG hnew (depthsClear_none req.wants
    (CommitWhole R.graph (Requested R.graph req.wants)))
  have hdone := wants_taken (diffs_wanted hG hnew (depthsClear_none req.wants
    (CommitWhole R.graph (Requested R.graph req.wants)))) hlocal hwants
  obtain ⟨cs, hfold, -, hcs⟩ := walkFrom_walked hG hdone hset
  have hwalked := walked_iff hG hw (effectiveDepth_pos depth)
    (hides_iff [] hexclude) hcs
  obtain ⟨hset₁, -, hin⟩ := walkCommits_done hd
    (fun c hc t ht => ⟨⟨c, ((hcs c).mp hc).1, ht⟩, rfl⟩)
    (hdone.commitsDone (tagTreesClear_of_commits hw) (tagCommitsClear_of_commits hw)) hfold
  refine ⟨cs, hwalked, fun c hc => ⟨fun hmem => ?_, fun hmem => hsub (hin c hmem)⟩, ?_⟩
  · rcases walkCommits_commits hG hfold (hcommits c hmem hc) hc with h₀ | hmem
    · exact absurd hc (hdone.no_commit hw h₀)
    · exact hmem
  · intro _ _ c hc t k o ht hu hn
    exact hsub (hset₁.whole hd ((hcs c).mp hc).1 (hin c hc) ht hu hn trivial)

theorem enumerate_shallow (hG : R.graph.Closed) {faulter : Option (Faulter O)}
    (hserved : Served R faulter) {rw : RevWalk R.graph} {refs : List O} {n : ℕ} {diffed : Bool}
    (hfilter : req.filter = none) (hdeepen : req.deepen = some depth)
    (hplan : computeShallow R req.wants depth = .ok plan)
    (hpath : ¬ (haves = [] ∧ faulter.isNone))
    (h : enumerate R rw refs req haves faulter = .ok (.done set n diffed)) :
    ∃ cs, ShallowRun R.graph req haves (effectiveDepth depth) cs set := by
  obtain ⟨hw, -, hexclude⟩ := computeShallow_spec hplan
  obtain ⟨st₀, tips, exclude, ⟨st₁, taken⟩, hwants, hb, hset, hmiss, hsub, hcommits⟩ :=
    enumerate_steps hpath h
  obtain rfl : plan.exclude = exclude := by simpa [boundary, hdeepen, hplan, Except.map] using hb
  rw [hfilter] at hset hwants
  have hnew : ∀ {k a b}, R.graph.Under k a b → ¬ ClientHas R.graph req.shallow haves b →
    ¬ ClientHas R.graph req.shallow haves a := clientHas_of_under haves req.shallow
  have hmiss₀ : st₀.missing = [] := by
    rcases walkFrom_cases hset with ⟨-, heq⟩ | ⟨cs, -, hfold⟩
    · cases heq
      exact hmiss
    · exact enumerateCommits_missing hfold hmiss
  have hdone (C : O → List (Old O) → Prop) := enumerate_wants_taken
    (diffs_wanted hG hnew (depthsClear_none req.wants C)) hserved hwants hmiss₀
  have hw₀ := hdone (CommitWhole R.graph (Requested R.graph req.wants))
  obtain ⟨cs, hfold, -, hcs⟩ := walkFrom_walked hG hw₀ hset
  have hwalked := walked_iff hG hw (effectiveDepth_pos depth) (hides_iff haves hexclude) hcs
  have hnot : ∀ c ∈ cs, c ∉ hiddenOf req haves plan.exclude :=
    fun c hc hmem => ((hcs c).mp hc).2.2 ⟨c, hmem, .refl⟩
  refine ⟨cs, hwalked, fun c hc => ⟨fun hmem => ?_, fun hmem => ?_⟩, ?_⟩
  · rcases enumerateCommits_commits hG hfold hmiss (hcommits c hmem hc) hc with h₀ | hmem
    · exact absurd hc (hw₀.no_commit hw h₀)
    · exact hmem
  · exact hsub (enumerateCommits_in hG hnot hfold hmiss c hmem)
  · intro hclear hdiffs c hc t k o ht hu hn
    refine hsub ?_
    by_cases hhaves : haves = []
    · -- nothing to diff against
      subst hhaves
      have hd := diffs_whole hG hnew (depthsClear_none req.wants
        (CommitWhole R.graph (Requested R.graph req.wants)))
      obtain ⟨hset₁, -, hin⟩ := enumerateCommits_done hd hnot
        (fun c hc t ps hobj => ⟨⟨c, ((hcs c).mp hc).1, ps, hobj⟩, rfl⟩)
        (hw₀.commitsDone trivial (tagCommitsClear_of_commits hw)) hfold hmiss
      exact hset₁.whole hd ((hcs c).mp hc).1 (hin c hc) ht hu hn trivial
    · obtain ⟨hcut, hagree⟩ := hdiffs hhaves
      have hdc : Diffs R.graph .none _ _ _ :=
        ⟨hG, fun h => h, hnew, (depthsClear_none req.wants _).walked, hagree⟩
      have hmode : (!haves.isEmpty) = true := by
        cases haves with
        | nil => exact absurd rfl hhaves
        | cons _ _ => rfl
      rw [hmode] at hfold
      obtain ⟨hset₁, -, hin⟩ := enumerateCommits_done hdc hnot
        (fun c hc t ps hobj => ⟨c, ps, ((hwalked c).mp hc).1, hobj, rfl⟩)
        ((hdone _).commitsDone trivial (tagCommitsClear_of_commits hw)) hfold hmiss
      refine commits_covered hdc hset₁ (fun c hc => ⟨((hwalked c).mp hc).1, hin c hc⟩) ?_ hc ht hu
        hn trivial
      -- a parent with something the client lacks is within the depth, and taken
      intro c p t t' j k o hc ht hu hp ht' hu' hn
      have hwithin : Within R.graph req.wants (effectiveDepth depth) p := by
        by_contra hbeyond
        exact hn (hcut c p t t' j k o ((hwalked c).mp hc).1 hp hbeyond ht hu ht' hu')
      refine (hwalked p).mpr ⟨hwithin, fun hhides => ?_⟩
      exact hn (((hclear.reached p hwithin hhides).tree hG ht').under hu')

/-- A deepen request without a filter is answered when every want is a commit, and only then;
under the conditions on its commits and diffs the answer is complete, and a complete answer
meets the conditions on the commits. -/
theorem shallow_fetch_complete (hG : R.graph.Closed) {faulter : Option (Faulter O)}
    (hserved : Served R faulter) (rw : RevWalk R.graph) (counter : Counter R.graph)
    (refs : List O) (req : UploadPackRequest O) (haves : List O) (depth : ℕ)
    (hfilter : req.filter = none) (hdeepen : req.deepen = some depth) :
    (faulter = none → (∀ h ∈ haves, R.graph.IsCommit h) →
      ((∀ w ∈ req.wants, R.graph.IsCommit w) ↔
        ∃ plan set n diffed, computeShallow R req.wants depth = .ok plan ∧
          enumerate R rw refs req haves faulter = .ok (.done set n diffed))) ∧
    ∀ plan set n diffed, computeShallow R req.wants depth = .ok plan →
      enumerate R rw refs req haves faulter = .ok (.done set n diffed) →
      (ShallowClear R.graph req haves (effectiveDepth depth) →
        (haves ≠ [] → DiffsClear R.graph req haves (effectiveDepth depth)) →
        ShallowComplete R.graph req haves (effectiveDepth depth) plan
          (counter.count (expansionOf req.filter req.deepen haves) set)) ∧
      (ShallowComplete R.graph req haves (effectiveDepth depth) plan
          (counter.count (expansionOf req.filter req.deepen haves) set) →
        ShallowClear R.graph req haves (effectiveDepth depth)) := by
  refine ⟨fun hf hh => ⟨fun hw => ?_, fun ⟨plan, _, _, _, hplan, _⟩ => ?_⟩, ?_⟩
  · subst hf
    have hl : AllLocal R := fun o ho => by simpa using hserved o ho
    obtain ⟨plan, hplan⟩ := computeShallow_ok hG hl hw depth
    obtain ⟨set, n, diffed, hset⟩ := enumerate_ok hG hl rw refs hh req
      (show boundary R req.wants req.deepen = .ok plan.exclude by
        simp [boundary, hdeepen, hplan, Except.map])
      (fun p hp => by
        obtain ⟨-, c, -, hcp⟩ := ((computeShallow_spec hplan).2.2 p).mp hp
        exact isCommit_of_parent hG hcp)
    exact ⟨plan, set, n, diffed, hplan, hset⟩
  · exact (computeShallow_spec hplan).1
  · intro plan set n diffed hplan h
    obtain ⟨hw, hshallow, -⟩ := computeShallow_spec hplan
    have hcount : counter.count (expansionOf req.filter req.deepen haves) set = set := by
      rw [expansionOf, if_neg (by simp [hdeepen])]
      exact counter.asIs
    obtain ⟨cs, hrun⟩ : ∃ cs, ShallowRun R.graph req haves (effectiveDepth depth) cs set := by
      by_cases hpath : haves = [] ∧ faulter.isNone
      · obtain ⟨rfl, hf⟩ := hpath
        have hf := Option.isNone_iff_eq_none.mp hf
        have hl : AllLocal R := fun o ho => by simpa [hf] using hserved o ho
        unfold enumerate at h
        rw [if_pos ⟨rfl, by simp [hf]⟩, hdeepen] at h
        obtain ⟨set', hc, hpair⟩ := map_eq_ok h
        cases hpair
        exact computeObjectSet_shallow hG hl hfilter hplan hc
      · exact enumerate_shallow hG hserved hfilter hdeepen hplan hpath h
    rw [hcount]
    exact ⟨hrun.complete hG hw (effectiveDepth_pos depth) hshallow, hrun.clear hG hw hshallow⟩

end Runs

theorem reverted_under {k t o : ℕ}
    (h : (Graph.ofTable revertedFile revertedFile_kinds).Under k t o) :
    t = o ∨ t = 3 ∧ o = 2 ∨ t = 6 ∧ (o = 2 ∨ o = 5) := by
  induction h with
  | here t => exact .inl rfl
  | @entry k t o es e ht he hm hu ih =>
    have hlt : t < 9 := (List.getElem?_eq_some_iff.mp ht).1
    have hblob : e.oid = 2 ∨ e.oid = 5 → o = e.oid := by
      rintro (h | h) <;> rcases ih with rfl | ⟨h', -⟩ | ⟨h', -⟩ <;> omega
    interval_cases t <;> cases ht
    · cases he
    · obtain rfl := List.mem_singleton.mp he
      exact .inr (.inl ⟨rfl, hblob (.inl rfl)⟩)
    · rcases List.mem_cons.mp he with rfl | he
      · exact .inr (.inr ⟨rfl, .inl (hblob (.inl rfl))⟩)
      · obtain rfl := List.mem_singleton.mp he
        exact .inr (.inr ⟨rfl, .inr (hblob (.inr rfl))⟩)

theorem reverted_within {c : ℕ} : Within (Graph.ofTable revertedFile revertedFile_kinds) [7] 2 c →
    c = 7 ∨ c = 4 := by
  have hone {b : ℕ} : Within (Graph.ofTable revertedFile revertedFile_kinds) [7] 1 b → b = 7 := by
    rintro (hb | ⟨_, hb, -⟩)
    · exact List.mem_singleton.mp hb
    · exact absurd hb id
  rintro (hc | ⟨b, hb, t, ps, hobj, hp⟩)
  · exact .inl (List.mem_singleton.mp hc)
  · obtain rfl := hone hb
    cases hobj
    exact .inr (List.mem_singleton.mp hp)

/-- A client with the one shallow commit `4` asks for its child, to the depth of both. -/
theorem shallow_fetch_complete_reverted :
    ShallowComplete (Graph.ofTable revertedFile revertedFile_kinds)
      ⟨[7], [4], false, none, some 2, [4]⟩ [4] 2 ⟨[4], [1]⟩ {2, 3, 4, 5, 6, 7} := by
  have hin : Within (Graph.ofTable revertedFile revertedFile_kinds) [7] 2 4 :=
    .inr ⟨7, .inl (by simp), 6, [4], rfl, by simp⟩
  have hheld : ∀ {k o}, (Graph.ofTable revertedFile revertedFile_kinds).Under k 3 o →
      ClientHas (Graph.ofTable revertedFile revertedFile_kinds) [4] [4] o := by
    intro k o hu
    refine ClientHas.under ⟨4, by simp, .single ⟨Graph.link_tree ⟨[1], rfl⟩, fun _ => ?_⟩⟩ hu
    rintro ⟨t, ps, hobj, hp⟩
    cases hobj
    cases List.mem_singleton.mp hp
  -- a parent's tree shares with its child's only what the client holds
  have hshared : ∀ {c p t t' j k o}, c = 7 ∨ c = 4 →
      (Graph.ofTable revertedFile revertedFile_kinds).Parent c p →
      (Graph.ofTable revertedFile revertedFile_kinds).TreeOf c t →
      (Graph.ofTable revertedFile revertedFile_kinds).Under j t o →
      (Graph.ofTable revertedFile revertedFile_kinds).TreeOf p t' →
      (Graph.ofTable revertedFile revertedFile_kinds).Under k t' o →
      ClientHas (Graph.ofTable revertedFile revertedFile_kinds) [4] [4] o := by
    rintro c p t t' j k o (rfl | rfl) ⟨_, ps, hobj, hp⟩ ⟨_, htree⟩ hu ⟨_, htree'⟩ hu'
    · cases hobj
      obtain rfl := List.mem_singleton.mp hp
      cases htree'
      exact hheld hu'
    · cases hobj
      obtain rfl := List.mem_singleton.mp hp
      cases htree
      cases htree'
      rcases reverted_under hu' with rfl | h | h
      · rcases reverted_under hu with h | h | h <;> omega
      · omega
      · omega
  refine ((shallow_fetch_complete (R := localRepo (Graph.ofTable revertedFile revertedFile_kinds))
    (Graph.ofTable_closed revertedFile_kinds) (show Served _ none from fun o _ => .inl rfl)
    (RevWalk.down _) (Counter.unpacking _) [] ⟨[7], [4], false, none, some 2, [4]⟩ [4] 2 rfl rfl).2
    ⟨[4], [1]⟩ {2, 3, 4, 5, 6, 7} 2 true rfl rfl).1 ⟨?_, ?_⟩ fun _ => ⟨?_, ?_⟩
  · rintro c hc (⟨h, hh, hnot, -⟩ | ⟨p, ⟨hp, hcut⟩, hpc⟩)
    · exact absurd hh hnot
    · -- the only commit that is cut off is the first, which has no parents
      obtain ⟨b, hb, t, ps, hobj, hbp⟩ := hcut
      rcases reverted_within hb with rfl | rfl
      · cases hobj
        exact absurd (List.mem_singleton.mp hbp ▸ hin) hp
      · cases hobj
        obtain rfl := List.mem_singleton.mp hbp
        rcases Relation.ReflTransGen.cases_head hpc with rfl | ⟨q, ⟨t, ps, hobj, hq⟩, -⟩
        · rcases reverted_within hc with h | h <;> cases h
        · cases hobj
          cases hq
  · intro c hc hnot
    obtain rfl := List.mem_singleton.mp hc
    refine absurd ⟨hin, ?_, 1, 3, [1], rfl, by simp⟩ hnot
    rintro (h | ⟨_, h, -⟩)
    · cases List.mem_singleton.mp h
    · exact absurd h id
  · intro c p t t' j k o hc hp _ ht hu ht' hu'
    exact hshared (reverted_within hc) hp ht hu ht' hu'
  · rintro root olds root' olds' t k k' subs subs' es e - - ⟨c, ps, hc, hobj, rfl⟩ hch - ht he hm hn
      - hun
    obtain ⟨r, i, hr, hur, -⟩ := below_of_unchanged .none
      (Graph.ofTable_closed revertedFile_kinds) hch ht he hm hun (.here e.oid)
    obtain ⟨p, hp, hpt⟩ := mem_parentOlds.mp hr
    exact absurd (hshared (reverted_within hc) ⟨root', ps, hobj, hp⟩ ⟨ps, hobj⟩
      (hch.under.trans (.entry ht he hm (.here _))) hpt hur) hn

/-! ## Shallow fetches that are not complete -/

/-- A line of three commits, and a merge of its last with its first. -/
def shortcut : List (Obj ℕ) :=
  [.tree [], .commit 0 [], .commit 0 [1], .commit 0 [2], .commit 0 [3, 1]]

theorem shortcut_kinds : Graph.WellKinded shortcut := by decide

/-- The second commit is cut off on the long way to the first, and hides it on the short way; a
shallow commit beyond a smaller depth is named as deepened; and the tree of a commit is diffed
against the tree of a parent that is cut off. -/
theorem shallow_fetch_incomplete :
    (computeShallow (localRepo (Graph.ofTable shortcut shortcut_kinds)) [4] 2
      = .ok ⟨[3], [2]⟩ ∧
    enumerate (localRepo (Graph.ofTable shortcut shortcut_kinds)) (RevWalk.down _) []
      ⟨[4], [], false, none, some 2, []⟩ [] none = .ok (.done {3, 0, 4} 0 false) ∧
    ¬ ShallowComplete (Graph.ofTable shortcut shortcut_kinds)
      ⟨[4], [], false, none, some 2, []⟩ [] 2 ⟨[3], [2]⟩ {3, 0, 4}) ∧
    (computeShallow (localRepo (Graph.ofTable shortcut shortcut_kinds)) [3] 1
      = .ok ⟨[3], [2]⟩ ∧
    enumerate (localRepo (Graph.ofTable shortcut shortcut_kinds)) (RevWalk.down _) []
      ⟨[3], [3, 2], false, none, some 1, [2]⟩ [3, 2] none = .ok (.done ∅ 0 true) ∧
    ¬ ShallowComplete (Graph.ofTable shortcut shortcut_kinds)
      ⟨[3], [3, 2], false, none, some 1, [2]⟩ [3, 2] 1 ⟨[3], [2]⟩ ∅) ∧
    (computeShallow (localRepo (Graph.ofTable revertedFile revertedFile_kinds)) [7] 1
      = .ok ⟨[7], [4]⟩ ∧
    enumerate (localRepo (Graph.ofTable revertedFile revertedFile_kinds)) (RevWalk.down _) []
      ⟨[7], [1], false, none, some 1, []⟩ [1] none = .ok (.done {5, 6, 7} 1 true) ∧
    ¬ ShallowComplete (Graph.ofTable revertedFile revertedFile_kinds)
      ⟨[7], [1], false, none, some 1, []⟩ [1] 1 ⟨[7], [4]⟩ {5, 6, 7}) := by
  refine ⟨⟨rfl, rfl, fun h => ?_⟩, ⟨rfl, rfl, fun h => ?_⟩, ⟨rfl, rfl, fun h => ?_⟩⟩
  · have hwithin : Within (Graph.ofTable shortcut shortcut_kinds) [4] 2 1 :=
      .inr ⟨4, .inl (by simp), 0, [3, 1], rfl, by simp⟩
    rcases h.commits 1 hwithin with hmem | ⟨w, hw, -⟩
    · simp at hmem
    · exact absurd hw List.not_mem_nil
  · -- the parent of the commit that is no longer shallow is not on the client
    have hnot : ¬ ClientHas (Graph.ofTable shortcut shortcut_kinds) [2] [3, 2] 1 := by
      rintro ⟨w, hw, hreach⟩
      have hheld : ∀ o, ClientReach (Graph.ofTable shortcut shortcut_kinds) [2] w o →
          o = 3 ∨ o = 2 ∨ o = 0 := by
        intro o ho
        induction ho with
        | refl =>
          have hw : w = 3 ∨ w = 2 := by simpa using hw
          exact hw.imp_right .inl
        | @tail b o _ hbo ih =>
          obtain ⟨⟨x, hx, hmem⟩, hcut⟩ := hbo
          rcases ih with rfl | rfl | rfl
          · obtain rfl : Obj.commit 0 [2] = x := Option.some.inj hx
            simp [Obj.refs] at hmem
            tauto
          · obtain rfl : Obj.commit 0 [1] = x := Option.some.inj hx
            rcases List.mem_cons.mp hmem with rfl | hp
            · exact .inr (.inr rfl)
            · exact absurd ⟨0, [1], rfl, hp⟩ (hcut (by simp))
          · obtain rfl : Obj.tree [] = x := Option.some.inj hx
            simp [Obj.refs] at hmem
      rcases hheld 1 hreach with h | h | h <;> cases h
    have hline := (h.unshallow 2).mp (by decide)
    rcases hline.2.2 1 ⟨0, [1], rfl, by simp⟩ with hmem | hheld
    · simp at hmem
    · exact hnot hheld
  · have htree : (Graph.ofTable revertedFile revertedFile_kinds).Under 1 6 2 :=
      .entry (e := ⟨.blob, "f", 2⟩) rfl (by simp) (by decide) (.here 2)
    rcases h.contents 7 6 1 2 (.inl (by simp)) ⟨[4], rfl⟩ htree with hmem | ⟨w, hw, hreach⟩
    · simp at hmem
    · obtain rfl := List.mem_singleton.mp hw
      have hle : ∀ o, ClientReach (Graph.ofTable revertedFile revertedFile_kinds) [] 1 o →
          o ≤ 1 := by
        intro o ho
        induction ho with
        | refl => exact le_refl 1
        | tail _ hlink ih => exact (Graph.Link.height_lt hlink.1).le.trans ih
      exact absurd (hle 2 hreach) (by decide)

end Walgit.Objects
