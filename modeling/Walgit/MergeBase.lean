import Walgit.WebObjects

/-!
# The merge base of the remote reader

Two breadth-first walks, from either commit, advance by the smaller of their
frontiers, and the first commit that one of them finds among those of the other
is returned. It is a common ancestor; it is the branch point if no way to the
common ancestors goes around it.
-/

namespace Walgit.Web

variable {O : Type} [DecidableEq O]

section Code

/-- One side of the walk: `fa` and `sa`, or `fb` and `sb`. -/
structure Side (O : Type) where
  frontier : List O
  seen : Finset O

def Side.start (c : O) : Side O := ⟨[c], {c}⟩

/-- The loop over the parents of a commit, up to one that the other side has seen. -/
def expand (other : Finset O) : List O → Side O → Option O × Side O
  | [], s => (none, s)
  | par :: ps, s =>
    if par ∈ other then (some par, s)
    else if par ∈ s.seen then expand other ps s
    else expand other ps ⟨s.frontier ++ [par], insert par s.seen⟩

/-- The picked side takes the front of its frontier; it is never without one. -/
def advance (R : Remote O) (self other : Side O) : Except (ApiError O) (Option O × Side O) :=
  match self.frontier with
  | [] => .ok (none, self)
  | oid :: rest =>
    if oid ∈ other.seen then .ok (some oid, ⟨rest, self.seen⟩)
    else do
      let m ← R.commit oid
      .ok (expand other.seen m.parents ⟨rest, self.seen⟩)

def pickA (a b : Side O) : Bool :=
  if a.frontier = [] then false
  else if b.frontier = [] then true
  else a.frontier.length ≤ b.frontier.length

/-- The walk, with `n` commits of the budget left. -/
def mergeLoop (R : Remote O) (budget : ℕ) : ℕ → Side O → Side O → Except (ApiError O) (Option O)
  | n, a, b =>
    if a.frontier = [] ∧ b.frontier = [] then .ok none
    else
      match n with
      | 0 => .error (.mergeBaseTooFar budget)
      | n + 1 =>
        if pickA a b then do
          let (found, a) ← advance R a b
          match found with
          | some c => .ok (some c)
          | none => mergeLoop R budget n a b
        else do
          let (found, b) ← advance R b a
          match found with
          | some c => .ok (some c)
          | none => mergeLoop R budget n a b

def mergeBase (R : Remote O) (budget : ℕ) (a b : String) : Except (ApiError O) (Option O) := do
  let a ← R.hexId a
  let b ← R.hexId b
  if a = b then .ok (some a)
  else mergeLoop R budget budget (Side.start a) (Side.start b)

end Code

section Spec

variable (R : Remote O) (a b : O)

/-- An ancestor of both commits, of which each is one of its own. -/
def Common (x : O) : Prop := Ancestor R a x ∧ Ancestor R b x

omit [DecidableEq O] in
/-- A way from `a` to `x` goes around `c`. -/
def Avoids (c x : O) : Prop :=
  a ≠ c ∧ Relation.ReflTransGen (fun u v => Parent R u v ∧ v ≠ c) a x

/-- Every way from either commit to a common ancestor leads through `c`. -/
def BranchPoint (c : O) : Prop :=
  Common R a b c ∧ ∀ x, Common R a b x → ¬ Avoids R a c x ∧ ¬ Avoids R b c x

/-- A common ancestor that is no proper ancestor of another one. -/
def Best (x : O) : Prop :=
  Common R a b x ∧ ∀ y, Common R a b y → Ancestor R y x → y = x

/-- What a side has seen while the parents of a commit are looked at. -/
structure Walking (s : Side O) : Prop where
  start : a ∈ s.seen
  frontier : ∀ x ∈ s.frontier, x ∈ s.seen
  reach : ∀ x ∈ s.seen, Ancestor R a x
  within : ∀ x ∈ s.seen, ∀ c ∉ s.seen, Avoids R a c x

/-- What a side has seen between two commits. -/
structure Walked (s : Side O) : Prop extends Walking R a s where
  closed : ∀ x ∈ s.seen, x ∉ s.frontier → ∀ p, Parent R x p → p ∈ s.seen

/-- What the walk of `a` and `b` may return as their base. -/
def Meets (x : O) : Prop := Common R a b x ∧ ∀ c, BranchPoint R a b c → x = c

end Spec

variable {R : Remote O} {a b c x y : O} {s s' : Side O} {other : Finset O} {ps : List O}
  {found : Option O} {budget n : ℕ}

section Relations

omit [DecidableEq O]

theorem Common.symm (h : Common R a b x) : Common R b a x := And.symm h

theorem BranchPoint.symm (h : BranchPoint R a b c) : BranchPoint R b a c :=
  ⟨h.1.symm, fun x hx => (h.2 x hx.symm).symm⟩

theorem Meets.symm (h : Meets R a b x) : Meets R b a x :=
  ⟨h.1.symm, fun c hc => h.2 c hc.symm⟩

theorem Avoids.parent (h : Avoids R a c x) (hp : Parent R x y) (hne : y ≠ c) : Avoids R a c y :=
  ⟨h.1, h.2.tail ⟨hp, hne⟩⟩

theorem meets_self : Meets R a a a := by
  refine ⟨⟨.refl, .refl⟩, fun c hc => ?_⟩
  by_contra hne
  exact (hc.2 a ⟨.refl, .refl⟩).1 ⟨hne, .refl⟩

end Relations

section Expand

omit [DecidableEq O] in
theorem walking_start : Walking R a (Side.start a) where
  start := Finset.mem_singleton_self a
  frontier x hx := Finset.mem_singleton.mpr (List.mem_singleton.mp hx)
  reach x hx := Finset.mem_singleton.mp hx ▸ .refl
  within x hx c hc := by
    obtain rfl := Finset.mem_singleton.mp hx
    exact ⟨fun heq => hc (Finset.mem_singleton.mpr heq.symm), .refl⟩

omit [DecidableEq O] in
theorem walked_start : Walked R a (Side.start a) where
  toWalking := walking_start
  closed _ hx hfront := absurd (List.mem_singleton.mpr (Finset.mem_singleton.mp hx)) hfront

theorem Walking.insert (h : Walking R a s) (hy : y ∈ s.seen) (hp : Parent R y x) :
    Walking R a ⟨s.frontier ++ [x], insert x s.seen⟩ where
  start := Finset.mem_insert_of_mem h.start
  frontier z hz := by
    rcases List.mem_append.mp hz with hz | hz
    · exact Finset.mem_insert_of_mem (h.frontier z hz)
    · exact Finset.mem_insert.mpr (.inl (List.mem_singleton.mp hz))
  reach z hz := by
    rcases Finset.mem_insert.mp hz with rfl | hz
    · exact (h.reach y hy).tail hp
    · exact h.reach z hz
  within z hz c hc := by
    rw [Finset.mem_insert, not_or] at hc
    rcases Finset.mem_insert.mp hz with rfl | hz
    · exact (h.within y hy c hc.2).parent hp (Ne.symm hc.1)
    · exact h.within z hz c hc.2

/-- What the loop over the parents of `y` leads to. -/
structure Expanded (R : Remote O) (a y : O) (other : Finset O) (ps : List O) (s s' : Side O)
    (found : Option O) : Prop where
  walking : Walking R a s'
  disjoint : Disjoint s'.seen other
  grows : s.seen ⊆ s'.seen
  frontier : ∀ x ∈ s.frontier, x ∈ s'.frontier
  fresh : ∀ x ∈ s'.seen, x ∉ s'.frontier → x ∈ s.seen
  all : found = none → ∀ p ∈ ps, p ∈ s'.seen
  met : ∀ x, found = some x → x ∈ other ∧ Parent R y x

theorem expand_spec (hw : Walking R a s) (hd : Disjoint s.seen other) (hy : y ∈ s.seen)
    (hps : ∀ p ∈ ps, Parent R y p) (he : expand other ps s = (found, s')) :
    Expanded R a y other ps s s' found := by
  induction ps generalizing s with
  | nil =>
    cases he
    exact
      { walking := hw
        disjoint := hd
        grows := subset_rfl
        frontier := fun _ hx => hx
        fresh := fun _ hx _ => hx
        all := fun _ _ hp => nomatch hp
        met := fun _ hx => nomatch hx }
  | cons par ps ih =>
    rw [List.forall_mem_cons] at hps
    rw [expand] at he
    split_ifs at he with hother hseen
    · cases he
      refine ⟨hw, hd, subset_rfl, fun _ hx => hx, fun _ hx _ => hx, nofun, ?_⟩
      rintro x ⟨⟩
      exact ⟨hother, hps.1⟩
    · have hrest := ih hw hd hy hps.2 he
      refine { hrest with all := fun hnone => ?_ }
      rw [List.forall_mem_cons]
      exact ⟨hrest.grows hseen, hrest.all hnone⟩
    · have hrest := ih (hw.insert hy hps.1) (Finset.disjoint_insert_left.mpr ⟨hother, hd⟩)
        (Finset.mem_insert_of_mem hy) hps.2 he
      refine { hrest with
        grows := (Finset.subset_insert par s.seen).trans hrest.grows
        frontier := fun x hx => hrest.frontier x (List.mem_append_left _ hx)
        fresh := fun x hx hfront => ?_
        all := fun hnone => ?_ }
      · refine (Finset.mem_insert.mp (hrest.fresh x hx hfront)).resolve_left ?_
        rintro rfl
        exact hfront (hrest.frontier x (List.mem_append_right _ (List.mem_singleton_self x)))
      · rw [List.forall_mem_cons]
        exact ⟨hrest.grows (Finset.mem_insert_self par s.seen), hrest.all hnone⟩

end Expand

section Loop

theorem meets_of_seen {t : Side O} (hs : Walking R a s) (ht : Walking R b t)
    (hd : Disjoint s.seen t.seen) (hy : y ∈ s.seen) (hp : Parent R y x) (hx : x ∈ t.seen) :
    Meets R a b x := by
  have hcommon : Common R a b x := ⟨(hs.reach y hy).tail hp, ht.reach x hx⟩
  refine ⟨hcommon, fun c hc => ?_⟩
  by_contra hne
  obtain ⟨hca, hcb⟩ := hc.2 x hcommon
  have hct : c ∈ t.seen := by
    by_contra hmem
    exact hcb (ht.within x hx c hmem)
  have hcs : c ∈ s.seen := by
    by_contra hmem
    exact hca ((hs.within y hy c hmem).parent hp hne)
  exact Finset.disjoint_left.mp hd hcs hct

omit [DecidableEq O] in
/-- The picked side is never empty, so each step of the loop takes a commit and counts it: the
`continue` of the source is not reached. -/
theorem picked_nonempty {t : Side O} (h : ¬ (s.frontier = [] ∧ t.frontier = [])) :
    (if pickA s t then s else t).frontier ≠ [] := by
  unfold pickA
  by_cases hs : s.frontier = []
  · simpa [hs] using h
  · by_cases ht : t.frontier = []
    · simp [hs, ht]
    · split_ifs
      · exact hs
      · exact ht

theorem advance_spec {t : Side O} (hs : Walked R a s) (ht : Walked R b t)
    (hd : Disjoint s.seen t.seen) (hne : s.frontier ≠ [])
    (ha : advance R s t = .ok (found, s')) :
    (found = none → Walked R a s' ∧ Disjoint s'.seen t.seen) ∧
      ∀ x, found = some x → Meets R a b x := by
  rw [advance] at ha
  split at ha
  · next hnil => exact absurd hnil hne
  · next oid rest hfront =>
    have hoid : oid ∈ s.seen := hs.frontier oid (hfront ▸ List.mem_cons_self)
    rw [if_neg (Finset.disjoint_left.mp hd hoid)] at ha
    obtain ⟨m, hm, ha⟩ := bind_eq_ok ha
    have hpopped : Walking R a ⟨rest, s.seen⟩ :=
      { hs.toWalking with
        frontier := fun x hx => hs.frontier x (hfront ▸ List.mem_cons_of_mem _ hx) }
    have hparents : ∀ p ∈ m.parents, Parent R oid p := fun p hp => ⟨m, hm, hp⟩
    have hexp := expand_spec hpopped hd hoid hparents (Except.ok.inj ha)
    refine ⟨fun hnone => ⟨⟨hexp.walking, fun x hx hout p hp => ?_⟩, hexp.disjoint⟩, fun x hx => ?_⟩
    · by_cases heq : x = oid
      · obtain ⟨m', hm', hmem⟩ := hp
        rw [heq, hm] at hm'
        cases hm'
        exact hexp.all hnone p hmem
      · have hseen := hexp.fresh x hx hout
        refine hexp.grows (hs.closed x hseen (fun hmem => ?_) p hp)
        rw [hfront, List.mem_cons] at hmem
        exact hout (hexp.frontier x (hmem.resolve_left heq))
    · obtain ⟨hother, hparent⟩ := hexp.met x hx
      exact meets_of_seen hexp.walking ht.toWalking hexp.disjoint (hexp.grows hoid) hparent hother

omit [DecidableEq O] in
theorem Walked.complete (h : Walked R a s) (hfront : s.frontier = []) (hx : Ancestor R a x) :
    x ∈ s.seen := by
  induction hx with
  | refl => exact h.start
  | tail _ hp ih => exact h.closed _ ih (hfront ▸ List.not_mem_nil) _ hp

theorem mergeLoop_ok {t : Side O} {r : Option O} (hs : Walked R a s) (ht : Walked R b t)
    (hd : Disjoint s.seen t.seen) (h : mergeLoop R budget n s t = .ok r) :
    (r = none → ∀ x, ¬ Common R a b x) ∧ ∀ x, r = some x → Meets R a b x := by
  induction n generalizing s t with
  | zero =>
    rw [mergeLoop] at h
    split_ifs at h with hempty
    cases h
    exact ⟨fun _ x hx => Finset.disjoint_left.mp hd (hs.complete hempty.1 hx.1)
      (ht.complete hempty.2 hx.2), nofun⟩
  | succ n ih =>
    rw [mergeLoop] at h
    split_ifs at h with hempty hpick
    · cases h
      exact ⟨fun _ x hx => Finset.disjoint_left.mp hd (hs.complete hempty.1 hx.1)
        (ht.complete hempty.2 hx.2), nofun⟩
    · have hne : s.frontier ≠ [] := by simpa [hpick] using picked_nonempty hempty
      obtain ⟨⟨found, s'⟩, hadv, h⟩ := bind_eq_ok h
      obtain ⟨hon, hmet⟩ := advance_spec hs ht hd hne hadv
      cases found with
      | none => exact ih (hon rfl).1 ht (hon rfl).2 h
      | some c =>
        cases h
        exact ⟨nofun, fun x hx => hmet x hx⟩
    · have hne : t.frontier ≠ [] := by simpa [hpick] using picked_nonempty hempty
      obtain ⟨⟨found, t'⟩, hadv, h⟩ := bind_eq_ok h
      obtain ⟨hon, hmet⟩ := advance_spec ht hs hd.symm hne hadv
      cases found with
      | none => exact ih hs (hon rfl).1 (hon rfl).2.symm h
      | some c =>
        cases h
        exact ⟨nofun, fun x hx => (hmet x hx).symm⟩

theorem advance_error {t : Side O} {e : ApiError O} (hs : Walked R a s)
    (ha : advance R s t = .error e) : ∃ x, Ancestor R a x ∧ R.commit x = .error e := by
  rw [advance] at ha
  split at ha
  · cases ha
  · next oid rest hfront =>
    have hoid : oid ∈ s.seen := hs.frontier oid (hfront ▸ List.mem_cons_self)
    split_ifs at ha
    rcases bind_eq_error ha with ha | ⟨m, -, ha⟩
    · exact ⟨oid, hs.reach oid hoid, ha⟩
    · cases ha

/-- The walks fail where a commit cannot be read, or at the end of the budget. -/
theorem mergeLoop_error {t : Side O} {e : ApiError O} (hs : Walked R a s) (ht : Walked R b t)
    (hd : Disjoint s.seen t.seen) (h : mergeLoop R budget n s t = .error e) :
    e = .mergeBaseTooFar budget ∨
      ∃ x, (Ancestor R a x ∨ Ancestor R b x) ∧ R.commit x = .error e := by
  induction n generalizing s t with
  | zero =>
    rw [mergeLoop] at h
    split_ifs at h with hempty
    cases h
    exact .inl rfl
  | succ n ih =>
    rw [mergeLoop] at h
    split_ifs at h with hempty hpick
    · have hne : s.frontier ≠ [] := by simpa [hpick] using picked_nonempty hempty
      rcases bind_eq_error h with h | ⟨⟨found, s'⟩, hadv, h⟩
      · obtain ⟨x, hx, hread⟩ := advance_error hs h
        exact .inr ⟨x, .inl hx, hread⟩
      · obtain ⟨hon, -⟩ := advance_spec hs ht hd hne hadv
        cases found with
        | none => exact ih (hon rfl).1 ht (hon rfl).2 h
        | some c => cases h
    · have hne : t.frontier ≠ [] := by simpa [hpick] using picked_nonempty hempty
      rcases bind_eq_error h with h | ⟨⟨found, t'⟩, hadv, h⟩
      · obtain ⟨x, hx, hread⟩ := advance_error ht h
        exact .inr ⟨x, .inr hx, hread⟩
      · obtain ⟨hon, -⟩ := advance_spec ht hs hd.symm hne hadv
        cases found with
        | none => exact ih hs (hon rfl).1 (hon rfl).2.symm h
        | some c => cases h

end Loop

section Result

/-- What the remote merge base is: a common ancestor if there is one, and the branch point if
there is one; and when it fails. -/
structure MergeBaseOf (R : Remote O) (budget : ℕ) (a b : O) (r : Except (ApiError O) (Option O)) :
    Prop where
  none_iff : ∀ x, r = .ok x → (x = none ↔ ¬ ∃ y, Common R a b y)
  common : ∀ x, r = .ok (some x) → Common R a b x
  branch_point : ∀ x c, r = .ok x → BranchPoint R a b c → x = some c
  fails : ∀ e, r = .error e → e = .mergeBaseTooFar budget ∨
    ∃ x, (Ancestor R a x ∨ Ancestor R b x) ∧ R.commit x = .error e

/-- The walk may give up within its budget only. -/
theorem remote_merge_base (R : Remote O) (budget : ℕ) (a b : O) (sha sha' : String)
    (ha : R.fromHex sha = some a) (hb : R.fromHex sha' = some b) :
    MergeBaseOf R budget a b (mergeBase R budget sha sha') := by
  have hids : mergeBase R budget sha sha' = if a = b then .ok (some a)
      else mergeLoop R budget budget (Side.start a) (Side.start b) := by
    rw [mergeBase, Remote.hexId, ha, ok_bind, Remote.hexId, hb, ok_bind]
  have hok : ∀ x, mergeBase R budget sha sha' = .ok x →
      (x = none → ∀ y, ¬ Common R a b y) ∧ ∀ y, x = some y → Meets R a b y := by
    intro x hx
    rw [hids] at hx
    split_ifs at hx with heq
    · cases hx
      refine ⟨nofun, ?_⟩
      rintro y ⟨⟩
      exact heq ▸ meets_self
    · exact mergeLoop_ok walked_start walked_start (Finset.disjoint_singleton.mpr heq) hx
  refine ⟨fun x hx => ⟨fun hnone hy => ?_, fun hnone => ?_⟩, fun x hx => ((hok _ hx).2 x rfl).1,
    fun x c hx hc => ?_, fun e he => ?_⟩
  · obtain ⟨y, hy⟩ := hy
    exact (hok x hx).1 hnone y hy
  · cases x with
    | none => rfl
    | some y => exact absurd ⟨y, ((hok _ hx).2 y rfl).1⟩ hnone
  · cases x with
    | none => exact absurd hc.1 ((hok _ hx).1 rfl c)
    | some y => rw [((hok _ hx).2 y rfl).2 c hc]
  · rw [hids] at he
    split_ifs at he with heq
    exact mergeLoop_error walked_start walked_start (Finset.disjoint_singleton.mpr heq) he

/-- Commits with the given parents, each of which is its number. -/
def historyOf (parents : List (List ℕ)) : Remote ℕ :=
  ofItems (parents.zipIdx.map fun c => bareCommit c.2 0 c.1 0)

/-- The commit 1 on the root, and two commits on it. -/
theorem remote_merge_base_forked :
    MergeBaseOf (historyOf [[], [0], [1], [1]]) 10 2 3
      (mergeBase (historyOf [[], [0], [1], [1]]) 10 "2" "3") :=
  remote_merge_base _ 10 2 3 "2" "3" (by decide) (by decide)

/-- A branch off the root was merged two commits after the fork at 1: the walk meets at the root,
which is an ancestor of 1. -/
theorem first_meeting_not_best :
    let R := historyOf [[], [0], [1], [0], [1], [4], [5, 3]]
    mergeBase R 5000 "2" "6" = .ok (some 0) ∧ ¬ Best R 2 6 0 ∧ Best R 2 6 1 := by
  intro R
  have htwo : Ancestor R 2 1 := .single (parent_ofItems.mpr (by decide))
  have hsix : Ancestor R 6 1 := .head (b := 5) (parent_ofItems.mpr (by decide))
    (.head (b := 4) (parent_ofItems.mpr (by decide)) (.single (parent_ofItems.mpr (by decide))))
  refine ⟨by rfl, fun hbest => ?_, ⟨htwo, hsix⟩, fun y hy hone => ?_⟩
  · have hroot : Ancestor R 1 0 := .single (parent_ofItems.mpr (by decide))
    exact absurd (hbest.2 1 ⟨htwo, hsix⟩ hroot) (by decide)
  · have hbelow : y ∈ [0, 1, 2] := ancestor_mem (by decide) (by decide) hy.1
    have hnot : y ∈ [0, 1, 3, 4, 5, 6] := ancestor_mem (by decide) (by decide) hy.2
    rcases List.mem_cons.mp hbelow with rfl | hbelow
    · have hroot : 1 ∈ [0] := ancestor_mem (by decide) (by decide) hone
      exact absurd hroot (by decide)
    · rcases List.mem_cons.mp hbelow with rfl | hbelow
      · rfl
      · obtain rfl := List.mem_singleton.mp hbelow
        exact absurd hnot (by decide)

end Result

end Walgit.Web
