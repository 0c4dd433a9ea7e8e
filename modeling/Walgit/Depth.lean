import Walgit.FetchTotal

/-!
# The depth of a shallow fetch

`compute_shallow` searches the commits level by level. A commit is found at its
least distance from a want, over all paths: the commits that it has seen at the
end are those within the depth, the shallow ones are those that are not within
one less and have parents, and the excluded ones are the parents that are not
within the depth.
-/

namespace Walgit.Objects

variable {O : Type} (G : Graph O)

/-- `c` is at a depth of at most `d`: a want is at depth one, a parent one deeper than a commit it
is a parent of, and the least depth counts. -/
def Within (wants : List O) : ℕ → O → Prop
  | 0, _ => False
  | d + 1, c => c ∈ wants ∨ ∃ b, Within wants d b ∧ G.Parent b c

def CutOff (wants : List O) (d : ℕ) (p : O) : Prop :=
  ¬ Within G wants d p ∧ ∃ c, Within G wants d c ∧ G.Parent c p

/-- A commit at exactly the depth that has parents. -/
def Boundary (wants : List O) (d : ℕ) (c : O) : Prop :=
  Within G wants d c ∧ ¬ Within G wants (d - 1) c ∧ ∃ p, G.Parent c p

variable {G} {wants : List O}

theorem Within.succ {d : ℕ} {c : O} (h : Within G wants d c) : Within G wants (d + 1) c := by
  induction d generalizing c with
  | zero => exact absurd h id
  | succ d ih =>
    rcases h with hw | ⟨b, hb, hbc⟩
    · exact .inl hw
    · exact .inr ⟨b, ih hb, hbc⟩

theorem Within.mono {d d' : ℕ} {c : O} (hd : d ≤ d') (h : Within G wants d c) :
    Within G wants d' c := by
  induction hd with
  | refl => exact h
  | step _ ih => exact ih.succ

theorem Within.requested {d : ℕ} {c : O} (h : Within G wants d c) : Requested G wants c := by
  induction d generalizing c with
  | zero => exact absurd h id
  | succ d ih =>
    rcases h with hw | ⟨b, hb, hbc⟩
    · exact ⟨c, hw, .refl⟩
    · exact (ih hb).trans (.single (Graph.link_parent hbc))

theorem Within.isCommit (hG : G.Closed) (hw : ∀ w ∈ wants, G.IsCommit w) {d : ℕ} {c : O}
    (h : Within G wants d c) : G.IsCommit c := by
  cases d with
  | zero => exact absurd h id
  | succ d =>
    rcases h with hc | ⟨b, _, hbc⟩
    · exact hw c hc
    · exact isCommit_of_parent hG hbc

theorem within_of_exhausted {d : ℕ} (h : ∀ c, Within G wants (d + 1) c → Within G wants d c)
    {d' : ℕ} {c : O} (hc : Within G wants d' c) : Within G wants d c := by
  induction d' generalizing c with
  | zero => exact absurd hc id
  | succ d' ih =>
    refine h c ?_
    rcases hc with hw | ⟨b, hb, hbc⟩
    · exact .inl hw
    · exact .inr ⟨b, ih hb, hbc⟩

theorem cutOff_of_beyond {d : ℕ} (hd : 0 < d) {w c : O} (hw : w ∈ wants) (h : G.Ancestor w c)
    (hc : ¬ Within G wants d c) : ∃ p, CutOff G wants d p ∧ G.Ancestor p c := by
  induction h with
  | refl =>
    refine absurd ?_ hc
    cases d with
    | zero => exact absurd hd (lt_irrefl 0)
    | succ d => exact .inl hw
  | @tail b c hwb hbc ih =>
    by_cases hb : Within G wants d b
    · exact ⟨c, ⟨hc, b, hb, hbc⟩, .refl⟩
    · obtain ⟨p, hp, hpb⟩ := ih hb
      exact ⟨p, hp, hpb.tail hbc⟩

theorem parent_iff {c t p : O} {ps : List O} (hc : G.obj c = some (.commit t ps)) :
    G.Parent c p ↔ p ∈ ps := by
  constructor
  · rintro ⟨t', ps', hc', hp⟩
    obtain ⟨rfl, rfl⟩ := Obj.commit.inj (Option.some.inj (hc'.symm.trans hc))
    exact hp
  · exact fun hp => ⟨t, ps, hc, hp⟩

variable (wants) in
/-- The search before the level of depth `j + 1`. -/
structure LevelInv (G : Graph O) (j : ℕ) (level : List O) (st : LevelState O) : Prop where
  seen : ∀ c, c ∈ st.seen ↔ Within G wants j c
  level : ∀ c, Within G wants (j + 1) c ↔ c ∈ st.seen ∨ c ∈ level
  plan : st.plan = ⟨[], []⟩

/-- A level, taken up to the commits `done`; `last` tells whether the parents of its new commits
are cut off or searched next. -/
structure LevelTaken (G : Graph O) (old : Finset O) (last : Bool) (done : List O)
    (st : LevelState O) : Prop where
  seen : ∀ c, c ∈ st.seen ↔ c ∈ old ∨ c ∈ done
  commits : ∀ c ∈ done, c ∉ old → G.IsCommit c
  next : ∀ p, p ∈ st.next ↔ last = false ∧ ∃ c ∈ done, c ∉ old ∧ G.Parent c p
  shallow : ∀ c, c ∈ st.plan.shallow ↔ last = true ∧ c ∈ done ∧ c ∉ old ∧ ∃ p, G.Parent c p
  exclude : ∀ p, p ∈ st.plan.exclude ↔ last = true ∧ ∃ c ∈ done, c ∉ old ∧ G.Parent c p

theorem LevelTaken.within {G : Graph O} {j : ℕ} {level : List O} {st st' : LevelState O}
    {last : Bool} (h : LevelInv wants G j level st) (ht : LevelTaken G st.seen last level st')
    (c : O) : c ∈ st'.seen ↔ Within G wants (j + 1) c := by
  rw [ht.seen c, h.level c]

theorem LevelInv.step {G : Graph O} {j : ℕ} {level : List O} {st st' : LevelState O}
    (h : LevelInv wants G j level st) (ht : LevelTaken G st.seen false level st') :
    LevelInv wants G (j + 1) st'.next st' := by
  refine ⟨ht.within h, fun c => ?_, ?_⟩
  · rw [ht.within h c, ht.next c]
    constructor
    · rintro (hw | ⟨b, hb, hbc⟩)
      · exact .inl (.inl hw)
      · by_cases hold : Within G wants j b
        · exact .inl (.inr ⟨b, hold, hbc⟩)
        · have hseen : b ∉ st.seen := fun hs => hold ((h.seen b).mp hs)
          exact .inr ⟨rfl, b, ((h.level b).mp hb).resolve_left hseen, hseen, hbc⟩
    · rintro (hc | ⟨-, b, hb, -, hbc⟩)
      · exact hc.succ
      · exact .inr ⟨b, (h.level b).mpr (.inr hb), hbc⟩
  · have hs : st'.plan.shallow = [] := List.eq_nil_iff_forall_not_mem.mpr fun c hc => by
      simpa using ((ht.shallow c).mp hc).1
    have he : st'.plan.exclude = [] := List.eq_nil_iff_forall_not_mem.mpr fun c hc => by
      simpa using ((ht.exclude c).mp hc).1
    exact congrArg₂ ShallowPlan.mk hs he

theorem LevelInv.exhausted {G : Graph O} {j : ℕ} {st : LevelState O}
    (h : LevelInv wants G j [] st) (n : ℕ) :
    (∀ c, c ∈ st.seen ↔ Within G wants (j + n) c) := by
  have hend : ∀ c, Within G wants (j + 1) c → Within G wants j c := by
    intro c hc
    rcases (h.level c).mp hc with hs | hs
    · exact (h.seen c).mp hs
    · exact absurd hs List.not_mem_nil
  intro c
  rw [h.seen c]
  exact ⟨fun hc => hc.mono (Nat.le_add_right j n), within_of_exhausted hend⟩

/-- What the search from depth `j + 1` to depth `j + n + 1` ends with. -/
structure LevelsDone (wants : List O) (G : Graph O) (d : ℕ) (st : LevelState O) : Prop where
  seen : ∀ c, c ∈ st.seen ↔ Within G wants (d + 1) c
  shallow : ∀ c, c ∈ st.plan.shallow ↔ Boundary G wants (d + 1) c
  exclude : ∀ p, p ∈ st.plan.exclude ↔
    ∃ c, Within G wants (d + 1) c ∧ ¬ Within G wants d c ∧ G.Parent c p

theorem LevelTaken.done {G : Graph O} {j : ℕ} {level : List O} {st st' : LevelState O}
    (h : LevelInv wants G j level st) (ht : LevelTaken G st.seen true level st') :
    LevelsDone wants G j st' := by
  have hnew : ∀ c, c ∈ level ∧ c ∉ st.seen ↔ Within G wants (j + 1) c ∧ ¬ Within G wants j c := by
    intro c
    rw [h.level c, ← h.seen c]
    tauto
  refine ⟨ht.within h, fun c => ?_, fun p => ?_⟩
  · have := hnew c
    rw [ht.shallow c, Boundary, Nat.add_sub_cancel]
    tauto
  · rw [ht.exclude p]
    constructor
    · rintro ⟨-, c, hc, hold, hp⟩
      obtain ⟨h1, h2⟩ := (hnew c).mp ⟨hc, hold⟩
      exact ⟨c, h1, h2, hp⟩
    · rintro ⟨c, h1, h2, hp⟩
      obtain ⟨hc, hold⟩ := (hnew c).mpr ⟨h1, h2⟩
      exact ⟨rfl, c, hc, hold, hp⟩

theorem LevelInv.empty_done {G : Graph O} {j : ℕ} {st : LevelState O}
    (h : LevelInv wants G j [] st) (n : ℕ) : LevelsDone wants G (j + n) st := by
  have hsame : ∀ c, Within G wants (j + n + 1) c → Within G wants (j + n) c := by
    intro c hc
    exact (h.exhausted n c).mp ((h.exhausted (n + 1) c).mpr hc)
  refine ⟨h.exhausted (n + 1), fun c => ?_, fun p => ?_⟩
  · rw [h.plan]
    refine ⟨fun hc => absurd hc List.not_mem_nil, fun hc => absurd (hsame c hc.1) ?_⟩
    exact hc.2.1
  · rw [h.plan]
    refine ⟨fun hp => absurd hp List.not_mem_nil, ?_⟩
    rintro ⟨c, h1, h2, -⟩
    exact absurd (hsame c h1) h2

section Levels

variable [DecidableEq O] {R : Repo O}

theorem LevelTaken.visit {old : Finset O} {last : Bool} {done : List O} {st st' : LevelState O}
    {c : O} (h : LevelTaken R.graph old last done st)
    (hstep : visitLevel R last st c = .ok st') :
    LevelTaken R.graph old last (done ++ [c]) st' := by
  unfold visitLevel at hstep
  by_cases hseen : c ∈ st.seen
  · rw [if_pos hseen] at hstep
    cases hstep
    -- a commit that was seen changes nothing
    have hmem : c ∈ old ∨ c ∈ done := (h.seen c).mp hseen
    have hex : ∀ {P : O → Prop},
        (∃ b ∈ done ++ [c], b ∉ old ∧ P b) ↔ ∃ b ∈ done, b ∉ old ∧ P b := by
      intro P
      constructor
      · rintro ⟨b, hb, hold, hP⟩
        rcases List.mem_append.mp hb with hb | hb
        · exact ⟨b, hb, hold, hP⟩
        · obtain rfl := List.mem_singleton.mp hb
          exact ⟨b, hmem.resolve_left hold, hold, hP⟩
      · rintro ⟨b, hb, hold, hP⟩
        exact ⟨b, List.mem_append_left _ hb, hold, hP⟩
    refine ⟨fun x => ?_, fun x hx hold => ?_, fun p => ?_, fun x => ?_, fun p => ?_⟩
    · rw [h.seen x, List.mem_append, List.mem_singleton]
      constructor
      · rintro (hx | hx)
        · exact .inl hx
        · exact .inr (.inl hx)
      · rintro (hx | hx | rfl)
        · exact .inl hx
        · exact .inr hx
        · exact hmem
    · rcases List.mem_append.mp hx with hx | hx
      · exact h.commits x hx hold
      · obtain rfl := List.mem_singleton.mp hx
        exact h.commits x (hmem.resolve_left hold) hold
    · rw [h.next p, hex]
    · rw [h.shallow x, List.mem_append, List.mem_singleton]
      constructor
      · rintro ⟨hl, hx, hold, hp⟩
        exact ⟨hl, .inl hx, hold, hp⟩
      · rintro ⟨hl, hx | rfl, hold, hp⟩
        · exact ⟨hl, hx, hold, hp⟩
        · exact ⟨hl, hmem.resolve_left hold, hold, hp⟩
    · rw [h.exclude p, hex]
  · rw [if_neg hseen] at hstep
    have hnew : c ∉ old ∧ c ∉ done := by
      rw [h.seen c, not_or] at hseen
      exact hseen
    cases hf : R.find c with
    | none => simp [hf] at hstep
    | some x =>
      cases x with
      | tree _ => simp [hf] at hstep
      | blob _ => simp [hf] at hstep
      | tag _ => simp [hf] at hstep
      | commit t ps =>
        have hobj := Repo.graph_of_find hf
        have hpar := fun p => parent_iff (p := p) hobj
        have hseen' : ∀ x, x ∈ insert c st.seen ↔ x ∈ old ∨ x ∈ done ++ [c] := by
          intro x
          rw [Finset.mem_insert, h.seen x, List.mem_append, List.mem_singleton]
          tauto
        have hcommits : ∀ x ∈ done ++ [c], x ∉ old → R.graph.IsCommit x := by
          intro x hx hold
          rcases List.mem_append.mp hx with hx | hx
          · exact h.commits x hx hold
          · exact List.mem_singleton.mp hx ▸ ⟨t, ps, hobj⟩
        have hex : ∀ p, (∃ b ∈ done ++ [c], b ∉ old ∧ R.graph.Parent b p) ↔
            (∃ b ∈ done, b ∉ old ∧ R.graph.Parent b p) ∨ p ∈ ps := by
          intro p
          constructor
          · rintro ⟨b, hb, hold, hP⟩
            rcases List.mem_append.mp hb with hb | hb
            · exact .inl ⟨b, hb, hold, hP⟩
            · obtain rfl := List.mem_singleton.mp hb
              exact .inr ((hpar p).mp hP)
          · rintro (⟨b, hb, hold, hP⟩ | hp)
            · exact ⟨b, List.mem_append_left _ hb, hold, hP⟩
            · exact ⟨c, by simp, hnew.1, (hpar p).mpr hp⟩
        simp only [hf] at hstep
        cases hlast : last with
        | false =>
          simp only [hlast, Bool.false_eq_true, if_false, Except.ok.injEq] at hstep
          subst hstep
          refine ⟨hseen', hcommits, fun p => ?_, fun x => ?_, fun p => ?_⟩
          · rw [hex, List.mem_append, h.next p]
            simp [hlast]
          · simp [h.shallow x, hlast]
          · simp [h.exclude p, hlast]
        | true =>
          simp only [hlast, if_true, Except.ok.injEq] at hstep
          subst hstep
          refine ⟨hseen', hcommits, fun p => ?_, fun x => ?_, fun p => ?_⟩
          · simp [h.next p, hlast]
          · have hold := h.shallow x
            rw [hlast] at hold
            have hparents : (∃ p, R.graph.Parent c p) ↔ ps ≠ [] := by
              simp only [hpar]
              exact ⟨fun ⟨p, hp⟩ => List.ne_nil_of_mem hp, List.exists_mem_of_ne_nil ps⟩
            by_cases hps : ps = []
            · simp only [hps, if_true, hold, true_and, List.mem_append, List.mem_singleton]
              constructor
              · rintro ⟨hx, h1, h2⟩
                exact ⟨.inl hx, h1, h2⟩
              · rintro ⟨hx | rfl, h1, h2⟩
                · exact ⟨hx, h1, h2⟩
                · exact absurd hps (hparents.mp h2)
            · simp only [hps, if_false, List.mem_append, hold, true_and, List.mem_singleton]
              constructor
              · rintro (⟨hx, h1, h2⟩ | rfl)
                · exact ⟨.inl hx, h1, h2⟩
                · exact ⟨.inr rfl, hnew.1, hparents.mpr hps⟩
              · rintro ⟨hx | rfl, h1, h2⟩
                · exact .inl ⟨hx, h1, h2⟩
                · exact .inr rfl
          · rw [hex, List.mem_append, h.exclude p]
            simp [hlast]

theorem level_taken {last : Bool} {level : List O} {st st' : LevelState O}
    (hplan : st.plan = ⟨[], []⟩)
    (h : level.foldlM (visitLevel R last) { st with next := [] } = .ok st') :
    LevelTaken R.graph st.seen last level st' :=
  foldlM_taken (I := LevelTaken R.graph st.seen last) (fun _ _ _ _ _ hI hstep => hI.visit hstep) h
    ⟨fun c => by simp, fun c hc => absurd hc List.not_mem_nil, fun p => by simp,
      fun c => by simp [hplan], fun p => by simp [hplan]⟩

theorem shallowLevels_done {n j : ℕ} {level : List O} {st st' : LevelState O}
    (h : LevelInv wants R.graph j level st)
    (hrun : shallowLevels R (n + 1) level st = .ok st') :
    LevelsDone wants R.graph (j + n) st' ∧ ∀ c ∈ level, c ∉ st.seen → R.graph.IsCommit c := by
  induction n generalizing j level st with
  | zero =>
    by_cases hlevel : level = []
    · subst hlevel
      cases hrun
      exact ⟨h.empty_done 0, fun c hc => absurd hc List.not_mem_nil⟩
    · rw [shallowLevels, if_neg hlevel] at hrun
      obtain ⟨st₁, hfold, hrest⟩ := bind_eq_ok hrun
      cases hrest
      have ht := level_taken h.plan hfold
      exact ⟨LevelTaken.done h ht, ht.commits⟩
  | succ n ih =>
    by_cases hlevel : level = []
    · subst hlevel
      cases hrun
      exact ⟨h.empty_done (n + 1), fun c hc => absurd hc List.not_mem_nil⟩
    · rw [shallowLevels, if_neg hlevel] at hrun
      obtain ⟨st₁, hfold, hrest⟩ := bind_eq_ok hrun
      have ht := level_taken h.plan hfold
      obtain ⟨hdone, -⟩ := ih (h.step ht) hrest
      rw [Nat.add_right_comm, Nat.add_assoc] at hdone
      exact ⟨hdone, ht.commits⟩

/-- The depth that a request means: zero is taken for one. -/
def effectiveDepth (depth : ℕ) : ℕ := max depth 1

theorem effectiveDepth_pos (depth : ℕ) : 0 < effectiveDepth depth :=
  Nat.lt_of_lt_of_le Nat.zero_lt_one (le_max_right depth 1)

theorem computeShallow_spec {depth : ℕ} {plan : ShallowPlan O}
    (h : computeShallow R wants depth = .ok plan) :
    (∀ w ∈ wants, R.graph.IsCommit w) ∧
    (∀ c, c ∈ plan.shallow ↔ Boundary R.graph wants (effectiveDepth depth) c) ∧
    ∀ p, p ∈ plan.exclude ↔ CutOff R.graph wants (effectiveDepth depth) p := by
  unfold computeShallow at h
  obtain ⟨st, hrun, hplan⟩ := bind_eq_ok h
  obtain ⟨n, hn⟩ : ∃ n, max depth 1 = n + 1 := ⟨max depth 1 - 1, by omega⟩
  have hinit : LevelInv wants R.graph 0 wants (⟨∅, [], ⟨[], []⟩⟩ : LevelState O) := by
    refine ⟨fun c => ?_, fun c => ?_, rfl⟩
    · exact ⟨fun hc => absurd hc (Finset.notMem_empty c), fun hc => absurd hc id⟩
    · constructor
      · rintro (hw | ⟨b, hb, -⟩)
        · exact .inr hw
        · exact absurd hb id
      · rintro (hc | hw)
        · exact absurd hc (Finset.notMem_empty c)
        · exact .inl hw
  rw [hn] at hrun
  obtain ⟨hdone, hcommits⟩ := shallowLevels_done hinit hrun
  rw [Nat.zero_add] at hdone
  cases hplan
  rw [effectiveDepth, hn]
  refine ⟨fun w hw => hcommits w hw (Finset.notMem_empty w), hdone.shallow, fun p => ?_⟩
  simp only [List.mem_filter, List.mem_dedup, decide_eq_true_eq, hdone.exclude p, hdone.seen p]
  constructor
  · rintro ⟨⟨c, hc, -, hp⟩, hnot⟩
    exact ⟨hnot, c, hc, hp⟩
  · rintro ⟨hnot, c, hc, hp⟩
    exact ⟨⟨c, hc, fun hold => hnot (.inr ⟨c, hold, hp⟩), hp⟩, hnot⟩

theorem visitLevel_ok (hl : AllLocal R) {last : Bool} (st : LevelState O)
    (hst : ∀ c ∈ st.next, R.graph.IsCommit c) (hG : R.graph.Closed) {c : O}
    (hc : R.graph.IsCommit c) :
    ∃ st', visitLevel R last st c = .ok st' ∧ ∀ c ∈ st'.next, R.graph.IsCommit c := by
  obtain ⟨t, ps, hobj⟩ := hc
  by_cases hseen : c ∈ st.seen
  · exact ⟨st, by rw [visitLevel, if_pos hseen], hst⟩
  cases last with
  | true =>
    refine ⟨⟨insert c st.seen, st.next, ⟨if ps = [] then st.plan.shallow else
      st.plan.shallow ++ [c], st.plan.exclude ++ ps⟩⟩, ?_, hst⟩
    rw [visitLevel, if_neg hseen, hl.find, hobj]
    rfl
  | false =>
    refine ⟨⟨insert c st.seen, st.next ++ ps, st.plan⟩, ?_, fun p hp => ?_⟩
    · rw [visitLevel, if_neg hseen, hl.find, hobj]
      rfl
    rcases List.mem_append.mp hp with hp | hp
    · exact hst p hp
    · exact isCommit_of_parent hG ⟨t, ps, hobj, hp⟩

theorem shallowLevels_ok (hG : R.graph.Closed) (hl : AllLocal R) {n : ℕ} {level : List O}
    (hlevel : ∀ c ∈ level, R.graph.IsCommit c) (st : LevelState O) :
    ∃ st', shallowLevels R n level st = .ok st' := by
  induction n generalizing level st with
  | zero => exact ⟨st, rfl⟩
  | succ n ih =>
    rw [shallowLevels]
    split_ifs
    · exact ⟨st, rfl⟩
    · obtain ⟨st₁, hfold, hnext⟩ := foldlM_ok (f := visitLevel R (n = 0)) (l := level)
        (s := { st with next := [] }) (I := fun st => ∀ c ∈ st.next, R.graph.IsCommit c)
        (fun s hs c hc => visitLevel_ok hl s hs hG (hlevel c hc))
        (fun c hc => absurd hc List.not_mem_nil)
      rw [hfold]
      exact ih hnext st₁

theorem computeShallow_ok (hG : R.graph.Closed) (hl : AllLocal R)
    (hw : ∀ w ∈ wants, R.graph.IsCommit w) (depth : ℕ) :
    ∃ plan, computeShallow R wants depth = .ok plan := by
  obtain ⟨st, hst⟩ := shallowLevels_ok hG hl (n := max depth 1) hw ⟨∅, [], ⟨[], []⟩⟩
  exact ⟨_, by rw [computeShallow, hst]; rfl⟩

end Levels

end Walgit.Objects
