import Walgit.Enumerate
import Mathlib.Data.Finset.Union

/-!
# A commit walk and an object counter

The commit walk and the counter of the pack writer are used by their contracts.
These two meet the contracts: a walk that goes down from the tips, and a counter
that unpacks every object it is given.
-/

namespace Walgit.Objects

variable {O : Type}

/-- The ancestors of a commit, each after a commit it is a parent of. -/
def ancestors (G : Graph O) : ℕ → O → List O
  | 0, c => [c]
  | n + 1, c =>
    match G.obj c with
    | some (.commit _ ps) => c :: ps.flatMap (ancestors G n)
    | _ => [c]

theorem mem_ancestors {G : Graph O} {n : ℕ} {c a : O} (hn : G.height c ≤ n) :
    a ∈ ancestors G n c ↔ G.Ancestor c a := by
  induction n generalizing c with
  | zero =>
    refine ⟨fun h => ?_, fun h => ?_⟩
    · obtain rfl := List.mem_singleton.mp h
      exact .refl
    · rcases Relation.ReflTransGen.cases_head h with rfl | ⟨p, hp, -⟩
      · exact List.mem_singleton_self c
      · have := (Graph.link_parent hp).height_lt
        omega
  | succ n ih =>
    have hstep : G.Ancestor c a ↔ a = c ∨ ∃ p, G.Parent c p ∧ G.Ancestor p a := by
      constructor
      · intro h
        rcases Relation.ReflTransGen.cases_head h with rfl | ⟨p, hp, hpa⟩
        · exact .inl rfl
        · exact .inr ⟨p, hp, hpa⟩
      · rintro (rfl | ⟨p, hp, hpa⟩)
        · exact .refl
        · exact .head hp hpa
    rw [hstep]
    have hnot : (∀ t ps, G.obj c ≠ some (.commit t ps)) → ¬ ∃ p, G.Parent c p ∧ G.Ancestor p a := by
      rintro hno ⟨p, ⟨t, ps, hc, -⟩, -⟩
      exact hno t ps hc
    cases hobj : G.obj c with
    | none => simp [ancestors, hobj, hnot (by simp [hobj])]
    | some x =>
      cases x with
      | commit t ps =>
        simp only [ancestors, hobj, List.mem_cons, List.mem_flatMap]
        refine or_congr Iff.rfl ⟨?_, ?_⟩
        · rintro ⟨p, hp, hpa⟩
          have hpar : G.Parent c p := ⟨t, ps, hobj, hp⟩
          have := (Graph.link_parent hpar).height_lt
          exact ⟨p, hpar, (ih (by omega)).mp hpa⟩
        · rintro ⟨p, ⟨t', ps', hc, hp⟩, hpa⟩
          have hlt := (Graph.link_parent ⟨t', ps', hc, hp⟩ : G.Link c p).height_lt
          obtain ⟨rfl, rfl⟩ := Obj.commit.inj (Option.some.inj (hc.symm.trans hobj))
          exact ⟨p, hp, (ih (by omega)).mpr hpa⟩
      | tree _ => simp [ancestors, hobj, hnot (by simp [hobj])]
      | blob _ => simp [ancestors, hobj, hnot (by simp [hobj])]
      | tag _ => simp [ancestors, hobj, hnot (by simp [hobj])]

def isCommit (G : Graph O) (c : O) : Bool :=
  match G.obj c with
  | some (.commit _ _) => true
  | _ => false

theorem isCommit_iff {G : Graph O} {c : O} : isCommit G c = true ↔ G.IsCommit c := by
  unfold isCommit Graph.IsCommit
  cases hobj : G.obj c with
  | none => simp
  | some x => cases x <;> simp

/-- The objects that stand below an object, itself included. -/
def belowTree (G : Graph O) : ℕ → O → List O
  | 0, t => [t]
  | n + 1, t =>
    match G.obj t with
    | some (.tree es) => t :: (es.filter fun e => e.mode ≠ .gitlink).flatMap fun e =>
        belowTree G n e.oid
    | _ => [t]

theorem mem_belowTree {G : Graph O} {n k : ℕ} {t o : O} (hn : G.height t ≤ n)
    (h : G.Under k t o) : o ∈ belowTree G n t := by
  induction n generalizing k t with
  | zero =>
    have := h.height_le
    obtain rfl : k = 0 := by omega
    obtain rfl := Graph.under_zero.mp h
    exact List.mem_singleton_self t
  | succ n ih =>
    cases h with
    | here =>
      unfold belowTree
      split <;> simp
    | @entry j _ _ es e ht he hm hu =>
      have hlt := (Graph.link_entry ht he hm).height_lt
      simp only [belowTree, ht, List.mem_cons, List.mem_flatMap, List.mem_filter,
        decide_eq_true_eq]
      exact .inr ⟨e, ⟨he, hm⟩, ih (by omega) hu⟩

/-- What the pack writer unpacks of an object. -/
def unpacked (G : Graph O) (o : O) : List O :=
  match G.obj o with
  | some (.commit t _) => belowTree G (G.height t) t
  | _ => belowTree G (G.height o) o

variable [DecidableEq O]

/-- A commit walk that goes down from the tips one after another. -/
def RevWalk.down (G : Graph O) : RevWalk G where
  walk tips hidden :=
    if tips.all (isCommit G) then
      some ((tips.flatMap fun t => ancestors G (G.height t) t).dedup.filter fun c =>
        !hidden.any fun h => c ∈ ancestors G (G.height h) h)
    else none
  tips := by
    intro tips hidden cs t h ht
    split_ifs at h with hall
    exact isCommit_iff.mp (List.all_eq_true.mp hall t ht)
  mem_iff := by
    intro tips hidden cs c h
    split_ifs at h
    cases h
    simp [mem_ancestors, List.mem_filter]
  total := by
    intro tips hidden ht _
    rw [if_pos (List.all_eq_true.mpr fun t h => isCommit_iff.mpr (ht t h))]
    rfl

/-- A counter that unpacks every object of the set. -/
def Counter.unpacking (G : Graph O) : Counter G where
  count x set :=
    match x with
    | .asIs => set
    | .treeContents => set ∪ set.biUnion fun o => (unpacked G o).toFinset
  keeps := by
    intro x set o ho
    cases x with
    | asIs => exact ho
    | treeContents => exact Finset.mem_union_left _ ho
  asIs := rfl
  tree := by
    rintro set t k o ht ⟨es, hes⟩ hu
    refine Finset.mem_union_right _ (Finset.mem_biUnion.mpr ⟨t, ht, List.mem_toFinset.mpr ?_⟩)
    simpa [unpacked, hes] using mem_belowTree (le_refl _) hu
  commit := by
    rintro set c t k o hc ⟨ps, hobj⟩ hu
    refine Finset.mem_union_right _ (Finset.mem_biUnion.mpr ⟨c, hc, List.mem_toFinset.mpr ?_⟩)
    simpa [unpacked, hobj] using mem_belowTree (le_refl _) hu

def localRepo (G : Graph O) : Repo O := ⟨G, fun _ => true⟩

end Walgit.Objects
