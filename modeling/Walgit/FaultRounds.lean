import Walgit.FetchRuns
import Walgit.TreeDiff

/-!
# Fault rounds

An enumeration that misses objects is taken again once they were faulted in.
What it misses is not local, so a round that finds something makes an object of
the repository local, and a repository has only so many of them.
-/

namespace Walgit.Objects

variable {O : Type}

/-- `fault` answers with what is local afterwards and how many of the objects were found. -/
structure ObjectFaulter (O : Type) where
  contains : O → Bool
  fault : (O → Bool) → List O → Except (GitError O) ((O → Bool) × ℕ)

inductive RoundsError (O : Type)
  | git (e : GitError O)
  | missingOids (missing : List O)
  | unconverged (stillMissing : ℕ)

def maxFaultRounds : ℕ := 64

/-- The enumeration loop of a fetch, with the faults it made. The first number bounds the rounds
and `attempt` enumerates with what is local. -/
def faultRounds (attempt : (O → Bool) → Except (GitError O) (Enumerated O))
    (faulter : Option (ObjectFaulter O)) :
    ℕ → (O → Bool) → ℕ × Except (RoundsError O) (Finset O × ℕ × Bool)
  | n, isLocal =>
    match attempt isLocal with
    | .error e => (0, .error (.git e))
    | .ok (.done set commits diffed) => (0, .ok (set, commits, diffed))
    | .ok (.need missing) =>
      match faulter with
      | none => (0, .error (.missingOids missing))
      | some f =>
        match n with
        | 0 => (0, .error (.unconverged missing.length))
        | n + 1 =>
          match f.fault isLocal missing with
          | .error e => (1, .error (.git e))
          | .ok (after, found) =>
            if found = 0 then (1, .error (.missingOids missing))
            else
              let rest := faultRounds attempt faulter n after
              (rest.1 + 1, rest.2)

/-- What is found is written, and what was local stays so. -/
structure ObjectFaulter.Writes (f : ObjectFaulter O) (G : Graph O) : Prop where
  keeps : ∀ {isLocal missing after found o}, f.fault isLocal missing = .ok (after, found) →
    isLocal o = true → after o = true
  found : ∀ {isLocal missing after found}, f.fault isLocal missing = .ok (after, found) →
    0 < found → ∃ o ∈ missing, after o = true ∧ (G.obj o).isSome

variable {G : Graph O} {attempt : (O → Bool) → Except (GitError O) (Enumerated O)}
  {faulter : Option (ObjectFaulter O)} {isLocal : O → Bool} {n : ℕ} {U : Finset O}

theorem faultRounds_le : (faultRounds attempt faulter n isLocal).1 ≤ n := by
  induction n generalizing isLocal with
  | zero =>
    rw [faultRounds]
    rcases attempt isLocal with e | set | missing
    · exact Nat.le_refl 0
    · exact Nat.le_refl 0
    · rcases faulter with _ | f <;> exact Nat.le_refl 0
  | succ n ih =>
    rw [faultRounds]
    rcases attempt isLocal with e | set | missing
    · exact Nat.zero_le _
    · exact Nat.zero_le _
    rcases faulter with _ | f
    · exact Nat.zero_le _
    dsimp only
    rcases f.fault isLocal missing with e | ⟨after, found⟩
    · exact Nat.le_add_left 1 n
    · dsimp only
      split_ifs
      · exact Nat.le_add_left 1 n
      · exact Nat.succ_le_succ ih

theorem ObjectFaulter.Writes.card_lt {f : ObjectFaulter O} {after : O → Bool} {missing : List O}
    {found : ℕ} (h : f.Writes G) (hU : ∀ o, (G.obj o).isSome → o ∈ U)
    (hmissing : ∀ o ∈ missing, (⟨G, isLocal⟩ : Repo O).find o = none)
    (hfault : f.fault isLocal missing = .ok (after, found)) (hfound : 0 < found) :
    (U.filter fun o => after o = false).card < (U.filter fun o => isLocal o = false).card := by
  obtain ⟨o, ho, hafter, hobj⟩ := h.found hfault hfound
  have hlocal : isLocal o = false := by
    have hnone := hmissing o ho
    rw [Repo.find] at hnone
    split_ifs at hnone with hl
    · have hobj' : (G.obj o).isSome = false := by rw [show G.obj o = none from hnone]; rfl
      exact absurd hobj (ne_true_of_eq_false hobj')
    · simpa using hl
  refine Finset.card_lt_card (Finset.ssubset_iff_subset_ne.mpr ⟨fun x hx => ?_, fun heq => ?_⟩)
  · obtain ⟨hxU, hx⟩ := Finset.mem_filter.mp hx
    refine Finset.mem_filter.mpr ⟨hxU, Bool.not_eq_true _ ▸ fun hl => ?_⟩
    rw [h.keeps hfault hl] at hx
    cases hx
  · have hmem : o ∈ U.filter fun o => after o = false :=
      heq ▸ Finset.mem_filter.mpr ⟨hU o hobj, hlocal⟩
    rw [(Finset.mem_filter.mp hmem).2] at hafter
    cases hafter

theorem faultRounds_converge (hU : ∀ o, (G.obj o).isSome → o ∈ U)
    (hwrites : ∀ f ∈ faulter, f.Writes G)
    (hneed : ∀ isLocal missing, attempt isLocal = .ok (.need missing) →
      ∀ o ∈ missing, (⟨G, isLocal⟩ : Repo O).find o = none)
    (hn : (U.filter fun o => isLocal o = false).card < n) :
    ∀ m, (faultRounds attempt faulter n isLocal).2 ≠ .error (.unconverged m) := by
  induction n generalizing isLocal with
  | zero => omega
  | succ n ih =>
    intro m
    rw [faultRounds]
    rcases hattempt : attempt isLocal with e | set | missing
    · exact nofun
    · exact nofun
    rcases faulter with _ | f
    · exact nofun
    dsimp only
    rcases hfault : f.fault isLocal missing with e | ⟨after, found⟩
    · exact nofun
    · dsimp only
      split_ifs with hfound
      · exact nofun
      · have hlt := (hwrites f rfl).card_lt hU (hneed isLocal missing hattempt) hfault
          (Nat.pos_of_ne_zero hfound)
        exact ih (by omega) m

section Enumerate

variable {R : Repo O}

def Lost (R : Repo O) (st : Collected O) : Prop := ∀ o ∈ st.missing, R.find o = none

theorem Lost.append {st : Collected O} {set : Finset O} {l : List O} (h : Lost R st)
    (hl : ∀ o ∈ l, R.find o = none) : Lost R ⟨set, st.missing ++ l⟩ :=
  fun o ho => (List.mem_append.mp ho).elim (h o) (hl o)

theorem parentTrees_lost {ps : List O} {olds : List (Old O)} {lost : List O}
    (h : parentTrees R ps = .ok (olds, lost)) : ∀ o ∈ lost, R.find o = none := by
  refine @foldlM_taken (GitError O) O (List (Old O) × List O) _
    (fun _ acc => ∀ o ∈ acc.2, R.find o = none) ps (fun _ p acc acc' _ hacc hstep => ?_) _ _ h nofun
  cases hf : R.find p with
  | none =>
    simp only [hf] at hstep
    cases hstep
    exact fun o ho => (List.mem_append.mp ho).elim (hacc o) fun ho => List.mem_singleton.mp ho ▸ hf
  | some x =>
    cases x with
    | commit _ _ =>
      simp only [hf] at hstep
      cases hstep
      exact hacc
    | tree _ => simp [hf] at hstep
    | blob _ => simp [hf] at hstep
    | tag _ => simp [hf] at hstep

variable [DecidableEq O] {rw : RevWalk R.graph} {refs haves missing : List O}
  {req : UploadPackRequest O} {contains : Option (Faulter O)} {filter : PackFilter}

theorem peelWant_lost {cur : O} {st : Collected O × List O} {st' : Collected O × List O}
    (h : peelWant R filter n cur st = .ok st') (hst : Lost R st.1) : Lost R st'.1 := by
  induction n generalizing cur st with
  | zero => cases h
  | succ n ih =>
    rw [peelWant] at h
    cases hf : R.find cur with
    | none =>
      simp only [hf] at h
      cases h
      exact hst.append fun o ho => List.mem_singleton.mp ho ▸ hf
    | some x =>
      cases x with
      | commit _ _ =>
        simp only [hf] at h
        cases h
        exact hst
      | blob _ =>
        simp only [hf] at h
        cases h
        exact hst
      | tree _ =>
        simp only [hf] at h
        obtain ⟨set, -, rfl⟩ := map_eq_ok h
        exact hst
      | tag target =>
        simp only [hf] at h
        exact ih h hst

theorem enumerateWant_lost {st st' : Collected O × List O} {w : O}
    (h : enumerateWant R filter contains st w = .ok st') (hst : Lost R st.1) : Lost R st'.1 := by
  unfold enumerateWant at h
  cases hf : R.find w with
  | none =>
    simp only [hf] at h
    split_ifs at h
    · cases h
      exact hst
    · cases h
      exact hst
  | some x =>
    cases x with
    | commit _ _ =>
      simp only [hf] at h
      cases h
      exact hst
    | tag _ =>
      simp only [hf] at h
      exact peelWant_lost h hst
    | tree _ =>
      simp only [hf] at h
      split_ifs at h
      · cases h
        exact hst
      · obtain ⟨set, -, rfl⟩ := map_eq_ok h
        exact hst
    | blob _ =>
      simp only [hf] at h
      cases h
      exact hst

theorem enterTree_lost {t : O} {olds : List (Old O)} {st : Collected O} (hst : Lost R st) :
    Lost R (enterTree R filter t olds st) := by
  unfold enterTree
  split_ifs
  · exact hst
  · exact diffTree_missing_find hst

theorem enumerateCommit_lost {diffMode : Bool} {hidden : List O} {st st' : Collected O × ℕ} {c : O}
    (h : enumerateCommit R filter diffMode hidden st c = .ok st') (hst : Lost R st.1) :
    Lost R st'.1 := by
  unfold enumerateCommit at h
  by_cases hskip : c ∈ hidden ∨ c ∈ st.1.set
  · rw [if_pos hskip] at h
    cases h
    exact hst
  rw [if_neg hskip] at h
  cases hf : R.find c with
  | none =>
    simp only [hf] at h
    cases h
    exact hst.append fun o ho => List.mem_singleton.mp ho ▸ hf
  | some x =>
    cases x with
    | tree _ => simp [hf] at h
    | blob _ => simp [hf] at h
    | tag _ => simp [hf] at h
    | commit t ps =>
      simp only [hf] at h
      split_ifs at h with hzero hfull
      · cases h
        exact hst
      · cases h
        exact enterTree_lost hst
      · obtain ⟨⟨olds, lost⟩, hparents, h⟩ := bind_eq_ok h
        split_ifs at h with hlost
        · cases h
          exact enterTree_lost hst
        · cases h
          exact hst.append (parentTrees_lost hparents)

theorem enumerate_need (h : enumerate R rw refs req haves contains = .ok (.need missing)) :
    ∀ o ∈ missing, R.find o = none := by
  unfold enumerate at h
  by_cases hpath : haves = [] ∧ contains.isNone
  · rw [if_pos hpath] at h
    obtain ⟨set, -, hset⟩ := map_eq_ok h
    cases hset
  rw [if_neg hpath] at h
  obtain ⟨⟨st₀, tips⟩, hwants, h⟩ := bind_eq_ok h
  obtain ⟨exclude, -, h⟩ := bind_eq_ok h
  obtain ⟨st₁, hwalk, h⟩ := bind_eq_ok h
  have hst₀ : Lost R st₀ := foldlM_taken (I := fun _ st => Lost R st.1)
    (fun _ _ _ _ _ hst hstep => enumerateWant_lost hstep hst) hwants nofun
  have hst₁ : Lost R st₁.1 := by
    rcases walkFrom_cases hwalk with ⟨-, rfl⟩ | ⟨cs, -, hfold⟩
    · exact hst₀
    · exact foldlM_taken (I := fun _ st => Lost R st.1)
        (fun _ _ _ _ _ hst hstep => enumerateCommit_lost hstep hst) hfold hst₀
  by_cases hmiss : st₁.1.missing = []
  · simp only [hmiss, if_true] at h
    cases h
  · simp only [hmiss, if_false] at h
    cases h
    exact fun o ho => hst₁ o (List.mem_dedup.mp ho)

end Enumerate

section Exact

variable [DecidableEq O]

/-- What a diff of `root` against `olds` collects, with nothing but `root` before. -/
structure DiffExact (R : Repo O) (filter : PackFilter) (root : O) (olds : List (Old O))
    (set : Finset O) : Prop where
  differs : ∀ o ∈ set, o = root ∨ Differs R.graph root olds o
  covers : (∀ d, filter ≠ .tree d) → ∀ j o, R.graph.Under j root o →
    ¬ Stays R.graph root olds o → filter.Wants R.graph o → o ∈ set
  common : ∀ o, Stays R.graph root olds o → Common R.graph olds o
  lacked : (∀ d, filter ≠ .tree d) → ∀ o, ¬ Common R.graph olds o → filter.Wants R.graph o →
    (o ∈ set ↔ ∃ j, R.graph.Under j root o)
  store : (∀ limit, filter ≠ .blobLimit limit) → set =
    (diffTreeNewObjects R.whole filter (R.graph.height root + 1) root olds 0 ⟨{root}, []⟩).set

/-- The rounds of a fetch make no more faults than there may be, and with more rounds than there
are objects in the repository they end by themselves. -/
structure RoundsEnd (R : Repo O) (rw : RevWalk R.graph) (refs : List O) (req : UploadPackRequest O)
    (haves : List O) (faulter : Option (ObjectFaulter O)) : Prop where
  bounded : (faultRounds (fun isLocal => enumerate ⟨R.graph, isLocal⟩ rw refs req haves
    (faulter.map ObjectFaulter.contains)) faulter maxFaultRounds R.isLocal).1 ≤ maxFaultRounds
  converge : ∀ (U : Finset O), (∀ o, (R.graph.obj o).isSome → o ∈ U) →
    (∀ f ∈ faulter, f.Writes R.graph) → ∀ n m, U.card < n →
      (faultRounds (fun isLocal => enumerate ⟨R.graph, isLocal⟩ rw refs req haves
        (faulter.map ObjectFaulter.contains)) faulter n R.isLocal).2 ≠ .error (.unconverged m)

/-- A diff that misses nothing is the difference of the trees up to what all old trees hold, in
whatever part of the store; and the rounds that fetch what is missed end. -/
theorem tree_difference (R : Repo O) (hG : R.graph.Closed) (filter : PackFilter) (root : O)
    (olds : List (Old O)) :
    ((diffTreeNewObjects R filter (R.graph.height root + 1) root olds 0 ⟨{root}, []⟩).missing = [] →
      DiffExact R filter root olds
        (diffTreeNewObjects R filter (R.graph.height root + 1) root olds 0 ⟨{root}, []⟩).set) ∧
    ∀ (rw : RevWalk R.graph) (refs : List O) (req : UploadPackRequest O) (haves : List O)
      (faulter : Option (ObjectFaulter O)), RoundsEnd R rw refs req haves faulter := by
  constructor
  · intro hmiss
    have hdiffers : ∀ o ∈ (diffTreeNewObjects R filter (R.graph.height root + 1) root olds 0
        ⟨{root}, []⟩).set, o = root ∨ Differs R.graph root olds o :=
      fun o ho => diffTree_differs rfl ho
    have hcovers := fun hdepth j o => @diffTree_covers O _ R.graph R filter root o olds _ hG rfl
      hdepth (Nat.lt_succ_self _) j hmiss
    refine ⟨hdiffers, hcovers, fun o h => h.common hG, fun hdepth o hlack hwant => ?_,
      fun hlimit => congrArg _ (diffTree_whole hlimit hmiss)⟩
    constructor
    · intro ho
      rcases hdiffers o ho with rfl | ⟨e, he, rfl⟩
      · exact ⟨0, .here _⟩
      · obtain ⟨j, hj⟩ := he.under
        exact ⟨j + 1, hj⟩
    · rintro ⟨j, hj⟩
      exact hcovers hdepth j o hj (fun h => hlack (h.common hG)) hwant
  · intro rw refs req haves faulter
    refine ⟨faultRounds_le, fun U hU hwrites n m hn => ?_⟩
    refine faultRounds_converge hU hwrites (fun isLocal missing h => enumerate_need h) ?_ m
    exact Nat.lt_of_le_of_lt (Finset.card_filter_le _ _) hn

end Exact

section Moved

/-- A blob, and two trees that have it under different names. -/
def movedObjects : List (Obj ℕ) :=
  [.blob 5, .tree [⟨.blob, "old", 0⟩], .tree [⟨.blob, "new", 0⟩]]

theorem movedObjects_wellKinded : Graph.WellKinded movedObjects := by decide

def movedRepo : Repo ℕ := ⟨.ofTable movedObjects movedObjects_wellKinded, fun _ => true⟩

theorem tree_difference_moved : DiffExact movedRepo .none 2 [.tree 1] {0, 2} := by
  have hset : (diffTreeNewObjects movedRepo .none (movedRepo.graph.height 2 + 1) 2 [.tree 1] 0
      ⟨{2}, []⟩).set = {0, 2} := by decide
  rw [← hset]
  exact (tree_difference movedRepo (Graph.ofTable_closed movedObjects_wellKinded) .none 2
    [.tree 1]).1 (by decide)

/-- A blob that moved is collected, though the old tree holds it. -/
theorem moved_blob_collected :
    ¬ ∀ (R : Repo ℕ) (t old : ℕ) (new olds : Finset ℕ), R.graph.Closed →
      walkTreeWithFilter R .none (R.graph.height t + 1) t 0 {t} = .ok new →
      walkTreeWithFilter R .none (R.graph.height old + 1) old 0 {old} = .ok olds →
      (diffTreeNewObjects R .none (R.graph.height t + 1) t [.tree old] 0 ⟨{t}, []⟩).missing = [] →
      (diffTreeNewObjects R .none (R.graph.height t + 1) t [.tree old] 0 ⟨{t}, []⟩).set =
        new \ olds := by
  intro h
  have hmoved := h movedRepo 2 1 {0, 2} {0, 1} (Graph.ofTable_closed movedObjects_wellKinded) rfl
    rfl (by decide)
  have hblob : 0 ∈ (diffTreeNewObjects movedRepo .none (movedRepo.graph.height 2 + 1) 2 [.tree 1] 0
      ⟨{2}, []⟩).set := by decide
  rw [hmoved] at hblob
  exact absurd hblob (by decide)

end Moved

end Walgit.Objects
