import Walgit.Connectivity

/-!
# What the connectivity check passes

When the check passes, everything that a tip reaches is local or is reached by
a local ref. What was seen is closed under links: tags lead to what was seen, to
a commit of the walk or to a blob, trees to their entries, and the commits of
the walk to their trees and to commits of the walk or behind a ref.
-/

namespace Walgit.Objects

variable {O : Type} {R : Repo O}

variable (R) in
/-- Seen, to be walked from, or a blob that was found. -/
def Settled (seen : Finset O) (commits : List O) (o : O) : Prop :=
  o ∈ seen ∨ o ∈ commits ∨ (R.graph.IsBlob o ∧ (R.find o).isSome)

theorem Settled.mono {seen seen' : Finset O} {commits commits' : List O} {o : O}
    (hs : seen ⊆ seen') (hc : ∀ c ∈ commits, c ∈ commits') (h : Settled R seen commits o) :
    Settled R seen' commits' o := by
  rcases h with h | h | h
  · exact .inl (hs h)
  · exact .inr (.inl (hc o h))
  · exact .inr (.inr h)

variable (R) in
/-- The tips so far: `seen` has the tags, and the trees and blobs below wanted trees. -/
structure TipsChecked (commits : List O) (seen : Finset O) : Prop where
  contents : TreesChecked R [] seen
  targets : ∀ a ∈ seen, ∀ b, R.graph.Target a b → Settled R seen commits b
  noCommit : ∀ o ∈ seen, ¬ R.graph.IsCommit o

variable (R) in
/-- The commits `done` of the walk. -/
structure WalkChecked (commits done : List O) (seen : Finset O) : Prop where
  contents : TreesChecked R [] seen
  targets : ∀ a ∈ seen, ∀ b, R.graph.Target a b → Settled R seen commits b
  walked : ∀ c ∈ seen, R.graph.IsCommit c → c ∈ done
  trees : ∀ c ∈ seen, ∀ t, R.graph.TreeOf c t → t ∈ seen

theorem not_target_of_contents {o b : O} (h : R.graph.IsTree o ∨ R.graph.IsBlob o) :
    ¬ R.graph.Target o b := by
  rcases h with ⟨es, hes⟩ | ⟨n, hn⟩
  · exact not_target_of_kind hes (by simp [Obj.kind])
  · exact not_target_of_kind hn (by simp [Obj.kind])

theorem not_commit_of_contents {o : O} (h : R.graph.IsTree o ∨ R.graph.IsBlob o) :
    ¬ R.graph.IsCommit o := by
  rintro ⟨t, ps, hc⟩
  rcases h with ⟨es, hes⟩ | ⟨n, hn⟩
  · simp [hc] at hes
  · simp [hc] at hn

/-! ## Links from what was seen and walked -/

theorem localGraph_ancestor {a b : O} (h : R.localGraph.Ancestor a b) : R.graph.Reach a b := by
  refine Graph.Ancestor.reach (Relation.ReflTransGen.mono (fun c p hp => ?_) _ _ h)
  obtain ⟨t, ps, hc, hmem⟩ := hp
  exact ⟨t, ps, Repo.graph_of_find hc, hmem⟩

/-- The commits that are walked: one that a tip reaches is walked, or a local ref reaches it. -/
structure Walked (walk : CommitWalk R.localGraph) (refs commits cs : List O) : Prop where
  tips : ∀ c ∈ commits, c ∈ cs ∨ ∃ r ∈ refs, R.graph.Reach r c
  parents : ∀ c ∈ cs, ∀ t ps, R.find c = some (.commit t ps) → ∀ p ∈ ps,
    p ∈ cs ∨ ∃ r ∈ refs, R.graph.Reach r p

theorem walked_of_walk {walk : CommitWalk R.localGraph} {refs commits hidden cs : List O}
    (hhidden : ∀ h ∈ hidden, ∃ r ∈ refs, R.graph.Reach r h)
    (h : walk.walk commits hidden = some cs) : Walked walk refs commits cs := by
  have hbehind : ∀ c, (∃ h ∈ hidden, R.localGraph.Ancestor h c) →
      ∃ r ∈ refs, R.graph.Reach r c := by
    rintro c ⟨h, hh, hhc⟩
    obtain ⟨r, hr, hrh⟩ := hhidden h hh
    exact ⟨r, hr, hrh.trans (localGraph_ancestor hhc)⟩
  have hcases : ∀ c, (∃ t ∈ commits, R.localGraph.Ancestor t c) →
      c ∈ cs ∨ ∃ r ∈ refs, R.graph.Reach r c := by
    intro c hc
    by_cases hb : ∃ h ∈ hidden, R.localGraph.Ancestor h c
    · exact .inr (hbehind c hb)
    · exact .inl ((walk.mem_iff h).mpr ⟨hc, hb⟩)
  refine ⟨fun c hc => hcases c ⟨c, hc, .refl⟩, fun c hc t ps hobj p hp => hcases p ?_⟩
  obtain ⟨⟨d, hd, hdc⟩, -⟩ := (walk.mem_iff h).mp hc
  exact ⟨d, hd, hdc.tail ⟨t, ps, hobj, hp⟩⟩

theorem settled_reach {walk : CommitWalk R.localGraph} {refs commits cs : List O}
    {seen : Finset O} (hseen : WalkChecked R commits cs seen) (hin : ∀ c ∈ cs, c ∈ seen)
    (hwalked : Walked walk refs commits cs) {t o : O} (ht : Settled R seen commits t)
    (h : R.graph.Reach t o) : (R.find o).isSome ∨ ∃ r ∈ refs, R.graph.Reach r o := by
  have hend : ∀ {b}, Settled R seen commits b →
      (b ∈ seen ∨ (R.graph.IsBlob b ∧ (R.find b).isSome)) ∨ ∃ r ∈ refs, R.graph.Reach r b := by
    rintro b (hb | hb | hb)
    · exact .inl (.inl hb)
    · exact (hwalked.tips b hb).imp_left fun hc => .inl (hin b hc)
    · exact .inl (.inr hb)
  suffices hgood : (o ∈ seen ∨ (R.graph.IsBlob o ∧ (R.find o).isSome)) ∨
      ∃ r ∈ refs, R.graph.Reach r o by
    rcases hgood with (hmem | hblob) | href
    · exact .inl (hseen.contents.found o hmem)
    · exact .inl hblob.2
    · exact .inr href
  induction h with
  | refl => exact hend ht
  | @tail a b _ hab ih =>
    rcases ih with (ha | ⟨⟨n, hn⟩, -⟩) | ⟨r, hr, hra⟩
    · obtain ⟨y, hy⟩ := Option.isSome_iff_exists.mp (hseen.contents.found a ha)
      obtain ⟨x, hx, hmem⟩ := hab
      obtain rfl : y = x := Option.some.inj ((Repo.graph_of_find hy).symm.trans hx)
      cases y with
      | blob n => simp [Obj.refs] at hmem
      | tag target =>
        obtain rfl : b = target := by simpa [Obj.refs] using hmem
        exact hend (hseen.targets a ha b hx)
      | tree es =>
        simp only [Obj.refs, List.mem_map, List.mem_filter, decide_eq_true_eq] at hmem
        obtain ⟨e, ⟨he, hm⟩, rfl⟩ := hmem
        exact .inl (.inl (hseen.contents.entries a ha List.not_mem_nil es hx e he hm))
      | commit t ps =>
        rcases List.mem_cons.mp hmem with rfl | hp
        · exact .inl (.inl (hseen.trees a ha b ⟨ps, hx⟩))
        · have hcs := hseen.walked a ha ⟨t, ps, hx⟩
          exact (hwalked.parents a hcs t ps hy b hp).imp_left fun hc => .inl (hin b hc)
    · obtain ⟨x, hx, hmem⟩ := hab
      obtain rfl : x = .blob n := Option.some.inj (hx.symm.trans hn)
      simp [Obj.refs] at hmem
    · exact .inr ⟨r, hr, hra.tail hab⟩

variable [DecidableEq O]

theorem peelTip_spec {n : ℕ} {id id' : O} {x : Obj O} {seen seen' : Finset O}
    (h : peelTip R n id seen = .ok (x, id', seen')) :
    R.graph.Peel id id' ∧ R.find id' = some x ∧ x.kind ≠ .tag ∧ seen ⊆ seen' ∧
      (id ∈ seen' ∨ id = id') ∧
      ∀ a ∈ seen', a ∉ seen → (R.find a).isSome ∧
        ∃ b, R.graph.Target a b ∧ (b ∈ seen' ∨ b = id') := by
  induction n generalizing id seen with
  | zero => cases h
  | succ n ih =>
    unfold peelTip at h
    cases hf : R.find id with
    | none => simp [hf] at h
    | some y =>
      have hobj := Repo.graph_of_find hf
      cases y with
      | tag target =>
        simp only [hf] at h
        obtain ⟨hpeel, hfind, hkind, hsub, hmem, hnew⟩ := ih h
        have hid : id ∈ seen' := hsub (Finset.mem_insert_self _ _)
        refine ⟨.head hobj hpeel, hfind, hkind, (Finset.subset_insert _ _).trans hsub,
          .inl hid, fun a ha hno => ?_⟩
        by_cases haid : a = id
        · exact haid ▸ ⟨by rw [hf]; rfl, target, hobj, hmem⟩
        · exact hnew a ha (by simp [haid, hno])
      | _ =>
        simp only [hf, Except.ok.injEq, Prod.mk.injEq] at h
        obtain ⟨rfl, rfl, rfl⟩ := h
        exact ⟨.refl, hf, by simp [Obj.kind], subset_rfl, .inr rfl, fun a ha hno => absurd ha hno⟩

theorem peelTip_contents {n : ℕ} {id id' : O} {x : Obj O} {seen seen' : Finset O}
    (hc : TreesChecked R [] seen) (h : peelTip R n id seen = .ok (x, id', seen')) :
    TreesChecked R [] seen' := by
  obtain ⟨-, -, -, hsub, -, hnew⟩ := peelTip_spec h
  refine ⟨fun o ho => ?_, fun t ht hnot es hes e he hm => ?_⟩
  · by_cases hold : o ∈ seen
    · exact hc.found o hold
    · exact (hnew o ho hold).1
  · by_cases hold : t ∈ seen
    · exact hsub (hc.entries t hold hnot es hes e he hm)
    · obtain ⟨-, b, hb, -⟩ := hnew t ht hold
      exact absurd hb (not_target_of_contents (.inl ⟨es, hes⟩))

theorem TipsChecked.extend {commits commits' : List O} {seen seen₁ seen' : Finset O} {n : ℕ}
    {t id : O} {x : Obj O} (h : TipsChecked R commits seen)
    (hpeel : peelTip R n t seen = .ok (x, id, seen₁)) (hsub : seen₁ ⊆ seen')
    (hcommits : ∀ c ∈ commits, c ∈ commits') (hcontents : TreesChecked R [] seen')
    (hadds : ∀ o ∈ seen', o ∉ seen₁ → R.graph.IsTree o ∨ R.graph.IsBlob o)
    (hend : Settled R seen' commits' id) :
    TipsChecked R commits' seen' ∧ Settled R seen' commits' t := by
  obtain ⟨-, -, -, hsub₁, hself, hnew⟩ := peelTip_spec hpeel
  refine ⟨⟨hcontents, fun a ha b hab => ?_, fun o ho => ?_⟩, ?_⟩
  · by_cases ha₁ : a ∈ seen₁
    · by_cases hold : a ∈ seen
      · exact (h.targets a hold b hab).mono (hsub₁.trans hsub) hcommits
      · obtain ⟨-, b', hb', hmem⟩ := hnew a ha₁ hold
        obtain rfl : b = b' := Obj.tag.inj (Option.some.inj (hab.symm.trans hb'))
        rcases hmem with hmem | rfl
        · exact .inl (hsub hmem)
        · exact hend
    · exact absurd hab (not_target_of_contents (hadds a ha ha₁))
  · by_cases ho₁ : o ∈ seen₁
    · by_cases hold : o ∈ seen
      · exact h.noCommit o hold
      · obtain ⟨-, b, hb, -⟩ := hnew o ho₁ hold
        rintro ⟨t', ps, hc⟩
        simp [Graph.Target, hc] at hb
    · exact not_commit_of_contents (hadds o ho ho₁)
  · rcases hself with hmem | rfl
    · exact .inl (hsub hmem)
    · exact hend

theorem checkTip_checked {st st' : Finset O × List O} {t : O}
    (h : TipsChecked R st.2 st.1) (hstep : checkTip R st t = .ok st') :
    TipsChecked R st'.2 st'.1 ∧ Settled R st'.1 st'.2 t ∧ st.1 ⊆ st'.1 ∧
      ∀ c ∈ st.2, c ∈ st'.2 := by
  unfold checkTip at hstep
  obtain ⟨⟨x, id, seen₁⟩, hpeel, hstep⟩ := bind_eq_ok hstep
  obtain ⟨-, hfind, hkind, hsub₁, -, -⟩ := peelTip_spec hpeel
  have hobj := Repo.graph_of_find hfind
  have hcontents := peelTip_contents h.contents hpeel
  have hkeep : ∀ c ∈ st.2, c ∈ st.2 := fun _ hc => hc
  have hnone : ∀ o ∈ seen₁, o ∉ seen₁ → R.graph.IsTree o ∨ R.graph.IsBlob o :=
    fun o ho hno => absurd ho hno
  cases x with
  | tag _ => exact absurd rfl hkind
  | commit tree ps =>
    cases hstep
    obtain ⟨htips, hself⟩ := h.extend hpeel subset_rfl
      (fun c hc => List.mem_append_left [id] hc) hcontents hnone (.inr (.inl (by simp)))
    exact ⟨htips, hself, hsub₁, fun c hc => List.mem_append_left _ hc⟩
  | blob n =>
    cases hstep
    obtain ⟨htips, hself⟩ := h.extend hpeel subset_rfl hkeep hcontents hnone
      (.inr (.inr ⟨⟨n, hobj⟩, by rw [hfind]; rfl⟩))
    exact ⟨htips, hself, hsub₁, hkeep⟩
  | tree es =>
    by_cases hseen : id ∈ seen₁
    · simp only [hseen, if_true] at hstep
      cases hstep
      obtain ⟨htips, hself⟩ := h.extend hpeel subset_rfl hkeep hcontents hnone (.inl hseen)
      exact ⟨htips, hself, hsub₁, hkeep⟩
    · simp only [hseen, if_false] at hstep
      obtain ⟨seen₂, hcheck, rfl⟩ := map_eq_ok hstep
      obtain ⟨hcontents₂, hsub₂, hadds⟩ :=
        checkTree_checked hcontents (by rw [hfind]; rfl) hcheck
      have hsub₁₂ := (Finset.subset_insert id seen₁).trans hsub₂
      have hadds' : ∀ o ∈ seen₂, o ∉ seen₁ → R.graph.IsTree o ∨ R.graph.IsBlob o := by
        intro o ho hno
        by_cases hid : o = id
        · exact .inl (hid ▸ ⟨es, hobj⟩)
        · exact hadds o ho (by simp [hid, hno])
      obtain ⟨htips, hself⟩ := h.extend hpeel hsub₁₂ hkeep hcontents₂ hadds'
        (.inl (hsub₂ (Finset.mem_insert_self _ _)))
      exact ⟨htips, hself, hsub₁.trans hsub₁₂, hkeep⟩

theorem checkTips_checked {tips : List O} {st : Finset O × List O}
    (h : tips.foldlM (checkTip R) (∅, []) = .ok st) :
    TipsChecked R st.2 st.1 ∧ ∀ t ∈ tips, Settled R st.1 st.2 t :=
  foldlM_taken (I := fun done s => TipsChecked R s.2 s.1 ∧ ∀ t ∈ done, Settled R s.1 s.2 t)
    (fun done t s s' _ hI hstep => by
      obtain ⟨hchecked, hdone⟩ := hI
      obtain ⟨hchecked', hself, hsub, hcommits⟩ := checkTip_checked hchecked hstep
      refine ⟨hchecked', fun d hd => ?_⟩
      rcases List.mem_append.mp hd with hd | hd
      · exact (hdone d hd).mono hsub hcommits
      · exact List.mem_singleton.mp hd ▸ hself)
    h ⟨⟨⟨fun _ ho => absurd ho (Finset.notMem_empty _),
      fun _ ht => absurd ht (Finset.notMem_empty _)⟩,
      fun _ ha => absurd ha (Finset.notMem_empty _),
      fun _ ho => absurd ho (Finset.notMem_empty _)⟩, fun _ ht => absurd ht List.not_mem_nil⟩

/-! ## The walk -/

theorem WalkChecked.add {commits done : List O} {seen seen' : Finset O} {c t : O} {ps : List O}
    (h : WalkChecked R commits done seen) (hc : R.graph.obj c = some (.commit t ps))
    (hsub : insert c seen ⊆ seen') (hcontents : TreesChecked R [] seen') (ht : t ∈ seen')
    (hadds : ∀ o ∈ seen', o ∉ insert c seen → R.graph.IsTree o ∨ R.graph.IsBlob o) :
    WalkChecked R commits (done ++ [c]) seen' := by
  have hkeep : ∀ d ∈ commits, d ∈ commits := fun _ hd => hd
  refine ⟨hcontents, fun a ha b hab => ?_, fun d hd hdc => ?_, fun d hd t' ht' => ?_⟩
  · by_cases hmem : a ∈ insert c seen
    · rcases Finset.mem_insert.mp hmem with rfl | hold
      · simp [Graph.Target, hc] at hab
      · exact (h.targets a hold b hab).mono ((Finset.subset_insert _ _).trans hsub) hkeep
    · exact absurd hab (not_target_of_contents (hadds a ha hmem))
  · by_cases hmem : d ∈ insert c seen
    · rcases Finset.mem_insert.mp hmem with rfl | hold
      · simp
      · exact List.mem_append_left _ (h.walked d hold hdc)
    · exact absurd hdc (not_commit_of_contents (hadds d hd hmem))
  · by_cases hmem : d ∈ insert c seen
    · rcases Finset.mem_insert.mp hmem with rfl | hold
      · obtain ⟨ps', hd'⟩ := ht'
        rw [hc] at hd'
        obtain ⟨rfl, -⟩ := Obj.commit.inj (Option.some.inj hd')
        exact ht
      · exact hsub (Finset.mem_insert_of_mem (h.trees d hold t' ht'))
    · obtain ⟨ps', hd'⟩ := ht'
      exact absurd ⟨t', ps', hd'⟩ (not_commit_of_contents (hadds d hd hmem))

theorem checkCommit_checked {commits done : List O} {seen seen' : Finset O} {c : O}
    (h : WalkChecked R commits done seen) (hstep : checkCommit R seen c = .ok seen') :
    WalkChecked R commits (done ++ [c]) seen' ∧ insert c seen ⊆ seen' := by
  unfold checkCommit at hstep
  by_cases hseen : c ∈ seen
  · rw [if_pos hseen] at hstep
    cases hstep
    refine ⟨⟨h.contents, h.targets, fun d hd hdc => ?_, h.trees⟩, ?_⟩
    · exact List.mem_append_left _ (h.walked d hd hdc)
    · rw [Finset.insert_eq_of_mem hseen]
  rw [if_neg hseen] at hstep
  cases hf : R.find c with
  | none => simp [hf] at hstep
  | some x =>
    have hobj := Repo.graph_of_find hf
    cases x with
    | tree _ => simp [hf] at hstep
    | blob _ => simp [hf] at hstep
    | tag _ => simp [hf] at hstep
    | commit t ps =>
      simp only [hf] at hstep
      have hcontents : TreesChecked R [] (insert c seen) := by
        refine ⟨fun o ho => ?_, fun d hd hnot es hes e he hm => ?_⟩
        · rcases Finset.mem_insert.mp ho with rfl | ho
          · rw [hf]
            rfl
          · exact h.contents.found o ho
        · rcases Finset.mem_insert.mp hd with rfl | hd
          · simp [hobj] at hes
          · exact Finset.mem_insert_of_mem (h.contents.entries d hd hnot es hes e he hm)
      by_cases hmem : t ∈ insert c seen
      · rw [if_pos hmem] at hstep
        cases hstep
        exact ⟨h.add hobj subset_rfl hcontents hmem fun o ho hno => absurd ho hno, subset_rfl⟩
      rw [if_neg hmem] at hstep
      by_cases hnone : (R.find t).isNone = true
      · rw [if_pos hnone] at hstep
        cases hstep
      rw [if_neg hnone] at hstep
      obtain ⟨y, hy⟩ : ∃ y, R.find t = some y :=
        Option.ne_none_iff_exists'.mp fun hn => hnone (by rw [hn]; rfl)
      obtain ⟨hcontents', hsub, hadds⟩ := checkTree_checked hcontents (by rw [hy]; rfl) hstep
      have htree : R.graph.IsTree t := by
        have hkind := R.graph.tree_kind hobj (Repo.graph_of_find hy)
        cases y with
        | tree es => exact ⟨es, Repo.graph_of_find hy⟩
        | commit _ _ => cases hkind
        | blob _ => cases hkind
        | tag _ => cases hkind
      have hsub' := (Finset.subset_insert t (insert c seen)).trans hsub
      refine ⟨h.add hobj hsub' hcontents' (hsub (Finset.mem_insert_self _ _)) fun o ho hno => ?_,
        hsub'⟩
      by_cases hot : o = t
      · exact .inl (hot ▸ htree)
      · exact hadds o ho (fun hin => (Finset.mem_insert.mp hin).elim hot hno)

theorem checkCommits_checked {commits cs : List O} {seen seen' : Finset O}
    (h : WalkChecked R commits [] seen) (hwalk : cs.foldlM (checkCommit R) seen = .ok seen') :
    WalkChecked R commits cs seen' ∧ seen ⊆ seen' ∧ ∀ c ∈ cs, c ∈ seen' :=
  foldlM_taken (I := fun done s => WalkChecked R commits done s ∧ seen ⊆ s ∧ ∀ c ∈ done, c ∈ s)
    (fun done c s s' _ hI hstep => by
      obtain ⟨hchecked, hsub, hin⟩ := hI
      obtain ⟨hchecked', hsub'⟩ := checkCommit_checked hchecked hstep
      have hmono := (Finset.subset_insert c s).trans hsub'
      refine ⟨hchecked', hsub.trans hmono, fun d hd => ?_⟩
      rcases List.mem_append.mp hd with hd | hd
      · exact hmono (hin d hd)
      · exact hsub' (List.mem_singleton.mp hd ▸ Finset.mem_insert_self _ _))
    hwalk ⟨h, subset_rfl, fun _ hc => absurd hc List.not_mem_nil⟩

/-! ## The check -/

theorem hiddenTip_reach {r h : O} (hr : hiddenTip R r = some h) : R.graph.Reach r h := by
  unfold hiddenTip at hr
  cases hf : R.find r with
  | none => simp [hf] at hr
  | some x =>
    cases x with
    | commit t ps =>
      simp only [hf, Option.some.injEq] at hr
      exact hr ▸ .refl
    | tree _ => simp [hf] at hr
    | blob _ => simp [hf] at hr
    | tag target =>
      simp only [hf] at hr
      cases hpeel : peelTip R maxTags r ∅ with
      | error e => simp [hpeel] at hr
      | ok res =>
        obtain ⟨y, id, seen⟩ := res
        cases y with
        | commit _ _ =>
          simp only [hpeel, Option.some.injEq] at hr
          exact hr ▸ Graph.Peel.reach (peelTip_spec hpeel).1
        | tree _ => simp [hpeel] at hr
        | blob _ => simp [hpeel] at hr
        | tag _ => simp [hpeel] at hr

theorem checkConnectivity_sound {walk : CommitWalk R.localGraph} {refs tips : List O}
    {stop : Bool} (h : checkConnectivity R walk refs tips stop = .ok ()) {t o : O}
    (ht : t ∈ tips) (hto : R.graph.Reach t o) :
    (R.find o).isSome ∨ ∃ r ∈ refs, R.graph.Reach r o := by
  unfold checkConnectivity at h
  obtain ⟨⟨seen, commits⟩, htips, h⟩ := bind_eq_ok h
  obtain ⟨hchecked, hsettled⟩ := checkTips_checked htips
  have hself := hsettled t (List.mem_eraseDups.mpr ht)
  have hstart : WalkChecked R commits [] seen :=
    ⟨hchecked.contents, hchecked.targets, fun c hc hcc => absurd hcc (hchecked.noCommit c hc),
      fun c hc t ⟨ps, hobj⟩ => absurd ⟨t, ps, hobj⟩ (hchecked.noCommit c hc)⟩
  by_cases hnil : commits = []
  · subst hnil
    have hnothing : Walked walk refs [] [] :=
      ⟨fun _ hc => absurd hc List.not_mem_nil, fun _ hc => absurd hc List.not_mem_nil⟩
    exact settled_reach hstart (fun _ hc => absurd hc List.not_mem_nil) hnothing hself hto
  · simp only [hnil, if_false] at h
    generalize hhid : (if stop = true then refs.eraseDups.filterMap (hiddenTip R) else []) = hidden
      at h
    have hhidden : ∀ h ∈ hidden, ∃ r ∈ refs, R.graph.Reach r h := by
      intro d hd
      rw [← hhid] at hd
      split_ifs at hd
      · obtain ⟨r, hr, hrd⟩ := List.mem_filterMap.mp hd
        exact ⟨r, List.mem_eraseDups.mp hr, hiddenTip_reach hrd⟩
      · exact absurd hd List.not_mem_nil
    cases hwalk : walk.walk commits hidden with
    | none => simp [hwalk] at h
    | some cs =>
      simp only [hwalk] at h
      obtain ⟨seen', hfold, -⟩ := map_eq_ok h
      obtain ⟨hdone, hsub, hin⟩ := checkCommits_checked hstart hfold
      exact settled_reach hdone hin (walked_of_walk hhidden hwalk)
        (hself.mono hsub fun _ hc => hc) hto

end Walgit.Objects
