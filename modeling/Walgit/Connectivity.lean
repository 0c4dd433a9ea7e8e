import Walgit.FetchWalk
import Mathlib.Data.List.Dedup

/-!
# The connectivity check of a push

`check_connectivity` peels the tips, walks the commits that no local ref
reaches, and looks at every tree and blob below their trees. It works on the
object database of this process. What it passes is reachable there or behind a
local ref.
-/

namespace Walgit.Objects

variable {O : Type}

inductive ConnectivityError (O : Type)
  | missing (oid : O)
  | tooDeep (oid : O)
  | gix
  deriving DecidableEq, Repr

def Repo.localGraph (R : Repo O) : Graph O where
  obj := R.find
  height := R.graph.height
  height_lt hx hb := R.graph.height_lt (Repo.graph_of_find hx) hb
  tree_kind hc hx := R.graph.tree_kind (Repo.graph_of_find hc) (Repo.graph_of_find hx)
  parent_kind hc hp hx :=
    R.graph.parent_kind (Repo.graph_of_find hc) hp (Repo.graph_of_find hx)
  entry_kind ht he hx := R.graph.entry_kind (Repo.graph_of_find ht) he (Repo.graph_of_find hx)

section Check

variable [DecidableEq O]

/-- How many tags of a chain are followed. -/
def maxTags : ℕ := 64

def peelTip (R : Repo O) :
    ℕ → O → Finset O → Except (ConnectivityError O) (Obj O × O × Finset O)
  | 0, id, _ => .error (.tooDeep id)
  | n + 1, id, seen =>
    match R.find id with
    | none => .error (.missing id)
    | some (.tag target) => peelTip R n target (insert id seen)
    | some x => .ok (x, id, seen)

/-- `visit_tree` and `visit_nontree`: what was seen, and the trees to enter next. -/
def visitEntry (R : Repo O) (st : Finset O × List O) (e : Entry O) :
    Except (ConnectivityError O) (Finset O × List O) :=
  if e.mode = .gitlink then .ok st
  else if e.oid ∈ st.1 then .ok st
  else if (R.find e.oid).isNone then .error (.missing e.oid)
  else if e.mode = .tree then .ok (insert e.oid st.1, st.2 ++ [e.oid])
  else .ok (insert e.oid st.1, st.2)

def visitTree (R : Repo O) (st : Finset O × List O) (t : O) :
    Except (ConnectivityError O) (Finset O × List O) :=
  match R.find t with
  | some (.tree es) => es.foldlM (visitEntry R) st
  | _ => .error .gix

/-- `gix_traverse::tree::breadthfirst`, level by level; the first argument bounds the levels. -/
def breadthfirst (R : Repo O) : ℕ → List O → Finset O → Except (ConnectivityError O) (Finset O)
  | 0, [], seen => .ok seen
  | 0, _ :: _, _ => .error .gix
  | n + 1, level, seen =>
    if level = [] then .ok seen
    else do
      let (seen, next) ← level.foldlM (visitTree R) (seen, [])
      breadthfirst R n next seen

def checkTree (R : Repo O) (t : O) (seen : Finset O) : Except (ConnectivityError O) (Finset O) :=
  breadthfirst R (R.graph.height t + 1) [t] seen

/-- One tip: what was seen, and the commits to walk from. -/
def checkTip (R : Repo O) (st : Finset O × List O) (t : O) :
    Except (ConnectivityError O) (Finset O × List O) := do
  let (x, id, seen) ← peelTip R maxTags t st.1
  match x with
  | .commit _ _ => pure (seen, st.2 ++ [id])
  | .tree _ =>
    if id ∈ seen then pure (seen, st.2)
    else (checkTree R id (insert id seen)).map fun seen => (seen, st.2)
  | _ => pure (seen, st.2)

/-- The commit that a local ref hides, if it leads to one. -/
def hiddenTip (R : Repo O) (r : O) : Option O :=
  match R.find r with
  | some (.commit _ _) => some r
  | some (.tag _) =>
    match peelTip R maxTags r ∅ with
    | .ok (.commit _ _, id, _) => some id
    | _ => none
  | _ => none

def checkCommit (R : Repo O) (seen : Finset O) (cid : O) :
    Except (ConnectivityError O) (Finset O) :=
  if cid ∈ seen then .ok seen
  else
    match R.find cid with
    | none => .error (.missing cid)
    | some (.commit t _) =>
      if t ∈ insert cid seen then .ok (insert cid seen)
      else if (R.find t).isNone then .error (.missing t)
      else checkTree R t (insert t (insert cid seen))
    | some _ => .error .gix

/-- `refs` are the ids of the local refs, peeled where the snapshot says to what. -/
def checkConnectivity (R : Repo O) (walk : CommitWalk R.localGraph) (refs tips : List O)
    (stopAtExistingRefs : Bool) : Except (ConnectivityError O) Unit := do
  let (seen, commits) ← tips.eraseDups.foldlM (checkTip R) (∅, [])
  let hidden := if stopAtExistingRefs then refs.eraseDups.filterMap (hiddenTip R) else []
  if commits = [] then pure ()
  else
    match walk.walk commits hidden with
    | none => .error .gix
    | some cs => (cs.foldlM (checkCommit R) seen).map fun _ => ()

end Check

/-! ## Trees -/

variable {R : Repo O}

variable (R) in
/-- What was seen is local, and every tree that is not pending has its entries seen. -/
structure TreesChecked (pending : List O) (seen : Finset O) : Prop where
  found : ∀ o ∈ seen, (R.find o).isSome
  entries : ∀ t ∈ seen, t ∉ pending → ∀ es, R.graph.obj t = some (.tree es) →
    ∀ e ∈ es, e.mode ≠ .gitlink → e.oid ∈ seen

variable (R) in
/-- From `seen` to `seen'` only trees and blobs were added, the trees to those pending. -/
structure Visited (seen seen' : Finset O) (pending : List O) : Prop where
  sub : seen ⊆ seen'
  found : ∀ o ∈ seen', o ∉ seen → (R.find o).isSome
  kinds : ∀ o ∈ seen', o ∉ seen → R.graph.IsTree o ∨ R.graph.IsBlob o
  trees : ∀ o ∈ seen', o ∉ seen → R.graph.IsTree o → o ∈ pending

theorem Visited.refl (seen : Finset O) (pending : List O) : Visited R seen seen pending :=
  ⟨subset_rfl, fun _ h h' => absurd h h', fun _ h h' => absurd h h', fun _ h h' => absurd h h'⟩

variable [DecidableEq O]

theorem Visited.trans {a b c : Finset O} {p q : List O} (h : Visited R a b p)
    (h' : Visited R b c q) (hpq : ∀ o ∈ p, o ∈ q) : Visited R a c q := by
  refine ⟨h.sub.trans h'.sub, ?_, ?_, ?_⟩ <;> intro o ho hno <;> by_cases hb : o ∈ b
  · exact h.found o hb hno
  · exact h'.found o ho hb
  · exact h.kinds o hb hno
  · exact h'.kinds o ho hb
  · exact fun ht => hpq o (h.trees o hb hno ht)
  · exact h'.trees o ho hb

theorem visitEntry_spec {t : O} {es : List (Entry O)} {e : Entry O}
    {st st' : Finset O × List O} (ht : R.graph.obj t = some (.tree es)) (he : e ∈ es)
    (h : visitEntry R st e = .ok st') :
    Visited R st.1 st'.1 st'.2 ∧ (∀ o ∈ st.2, o ∈ st'.2) ∧
      (e.mode ≠ .gitlink → e.oid ∈ st'.1) := by
  unfold visitEntry at h
  by_cases hgit : e.mode = .gitlink
  · rw [if_pos hgit] at h
    cases h
    exact ⟨.refl _ _, fun _ ho => ho, fun hm => absurd hgit hm⟩
  rw [if_neg hgit] at h
  by_cases hseen : e.oid ∈ st.1
  · rw [if_pos hseen] at h
    cases h
    exact ⟨.refl _ _, fun _ ho => ho, fun _ => hseen⟩
  rw [if_neg hseen] at h
  by_cases hnone : (R.find e.oid).isNone = true
  · rw [if_pos hnone] at h
    cases h
  rw [if_neg hnone] at h
  obtain ⟨x, hx⟩ : ∃ x, R.find e.oid = some x :=
    Option.ne_none_iff_exists'.mp fun hn => hnone (by rw [hn]; rfl)
  have hobj := Repo.graph_of_find hx
  have hkind := R.graph.entry_kind ht he hobj
  have hnew : ∀ {p : List O}, (R.graph.IsTree e.oid → e.oid ∈ p) →
      (R.graph.IsTree e.oid ∨ R.graph.IsBlob e.oid) →
      Visited R st.1 (insert e.oid st.1) p := by
    intro p htree hk
    have hself : ∀ o ∈ insert e.oid st.1, o ∉ st.1 → o = e.oid :=
      fun o ho hno => (Finset.mem_insert.mp ho).resolve_right hno
    refine ⟨Finset.subset_insert _ _, ?_, ?_, ?_⟩ <;> intro o ho hno <;>
      obtain rfl := hself o ho hno
    · exact Option.isSome_iff_exists.mpr ⟨x, hx⟩
    · exact hk
    · exact htree
  by_cases hmode : e.mode = .tree
  · rw [if_pos hmode] at h
    cases h
    rw [hmode] at hkind
    cases x with
    | tree es' =>
      exact ⟨hnew (fun _ => by simp) (.inl ⟨es', hobj⟩), fun o ho => List.mem_append_left _ ho,
        fun _ => Finset.mem_insert_self _ _⟩
    | commit _ _ => cases hkind
    | blob _ => cases hkind
    | tag _ => cases hkind
  · rw [if_neg hmode] at h
    cases h
    have hblob : e.mode = .blob := by
      cases hm : e.mode with
      | tree => exact absurd hm hmode
      | gitlink => exact absurd hm hgit
      | blob => rfl
    rw [hblob] at hkind
    cases x with
    | blob n =>
      refine ⟨hnew ?_ (.inr ⟨n, hobj⟩), fun o ho => ho, fun _ => Finset.mem_insert_self _ _⟩
      rintro ⟨es', hes⟩
      simp [hobj] at hes
    | commit _ _ => cases hkind
    | tree _ => cases hkind
    | tag _ => cases hkind

theorem visitTree_spec {t : O} {st st' : Finset O × List O} (h : visitTree R st t = .ok st') :
    Visited R st.1 st'.1 st'.2 ∧ (∀ o ∈ st.2, o ∈ st'.2) ∧
      ∀ es, R.graph.obj t = some (.tree es) → ∀ e ∈ es, e.mode ≠ .gitlink → e.oid ∈ st'.1 := by
  unfold visitTree at h
  cases hf : R.find t with
  | none => simp [hf] at h
  | some x =>
    cases x with
    | commit _ _ => simp [hf] at h
    | blob _ => simp [hf] at h
    | tag _ => simp [hf] at h
    | tree es =>
      have ht := Repo.graph_of_find hf
      simp only [hf] at h
      obtain ⟨hvis, hkeep, hdone⟩ := foldlM_taken (I := fun done s =>
          Visited R st.1 s.1 s.2 ∧ (∀ o ∈ st.2, o ∈ s.2) ∧
            ∀ e ∈ done, e.mode ≠ .gitlink → e.oid ∈ s.1)
        (fun done e s s' he hI hstep => by
          obtain ⟨hvis, hkeep, hdone⟩ := hI
          obtain ⟨hvis', hkeep', hin⟩ := visitEntry_spec ht he hstep
          refine ⟨hvis.trans hvis' hkeep', fun o ho => hkeep' o (hkeep o ho), fun d hd hm => ?_⟩
          rcases List.mem_append.mp hd with hd | hd
          · exact hvis'.sub (hdone d hd hm)
          · obtain rfl := List.mem_singleton.mp hd
            exact hin hm)
        h ⟨.refl _ _, fun _ ho => ho, fun _ he => absurd he List.not_mem_nil⟩
      refine ⟨hvis, hkeep, fun es' hes => ?_⟩
      obtain rfl : es = es' := Obj.tree.inj (Option.some.inj (ht.symm.trans hes))
      exact hdone

theorem level_checked {level : List O} {seen : Finset O} {st : Finset O × List O}
    (hc : TreesChecked R level seen) (h : level.foldlM (visitTree R) (seen, []) = .ok st) :
    Visited R seen st.1 st.2 ∧ TreesChecked R st.2 st.1 := by
  obtain ⟨hvis, hdone⟩ := foldlM_taken (I := fun done s => Visited R seen s.1 s.2 ∧
      ∀ t ∈ done, ∀ es, R.graph.obj t = some (.tree es) → ∀ e ∈ es, e.mode ≠ .gitlink →
        e.oid ∈ s.1)
    (fun done t s s' _ hI hstep => by
      obtain ⟨hvis, hdone⟩ := hI
      obtain ⟨hvis', hkeep, hin⟩ := visitTree_spec hstep
      refine ⟨hvis.trans hvis' hkeep, fun d hd es hes e he hm => ?_⟩
      rcases List.mem_append.mp hd with hd | hd
      · exact hvis'.sub (hdone d hd es hes e he hm)
      · obtain rfl := List.mem_singleton.mp hd
        exact hin es hes e he hm)
    h ⟨.refl _ _, fun _ ht => absurd ht List.not_mem_nil⟩
  refine ⟨hvis, fun o ho => ?_, fun t ht hnext es hes e he hm => ?_⟩
  · by_cases hold : o ∈ seen
    · exact hc.found o hold
    · exact hvis.found o ho hold
  · by_cases hlevel : t ∈ level
    · exact hdone t hlevel es hes e he hm
    by_cases hold : t ∈ seen
    · exact hvis.sub (hc.entries t hold hlevel es hes e he hm)
    · exact absurd (hvis.trees t ht hold ⟨es, hes⟩) hnext

variable (R) in
def AddsContents (seen seen' : Finset O) : Prop :=
  seen ⊆ seen' ∧ ∀ o ∈ seen', o ∉ seen → R.graph.IsTree o ∨ R.graph.IsBlob o

theorem AddsContents.trans {a b c : Finset O} (h : AddsContents R a b)
    (h' : AddsContents R b c) : AddsContents R a c := by
  refine ⟨h.1.trans h'.1, fun o ho hno => ?_⟩
  by_cases hb : o ∈ b
  · exact h.2 o hb hno
  · exact h'.2 o ho hb

theorem breadthfirst_checked {n : ℕ} {level : List O} {seen seen' : Finset O}
    (hc : TreesChecked R level seen) (h : breadthfirst R n level seen = .ok seen') :
    TreesChecked R [] seen' ∧ AddsContents R seen seen' := by
  induction n generalizing level seen with
  | zero =>
    cases level with
    | nil =>
      cases h
      exact ⟨hc, subset_rfl, fun _ h h' => absurd h h'⟩
    | cons _ _ => cases h
  | succ n ih =>
    unfold breadthfirst at h
    by_cases hnil : level = []
    · rw [if_pos hnil] at h
      cases h
      subst hnil
      exact ⟨hc, subset_rfl, fun _ h h' => absurd h h'⟩
    · rw [if_neg hnil] at h
      obtain ⟨⟨seen₁, next⟩, hlevel, hrest⟩ := bind_eq_ok h
      obtain ⟨hvis, hc₁⟩ := level_checked hc hlevel
      obtain ⟨hdone, hadds⟩ := ih hc₁ hrest
      exact ⟨hdone, AddsContents.trans ⟨hvis.sub, hvis.kinds⟩ hadds⟩

theorem checkTree_checked {t : O} {seen seen' : Finset O} (hc : TreesChecked R [] seen)
    (ht : (R.find t).isSome) (h : checkTree R t (insert t seen) = .ok seen') :
    TreesChecked R [] seen' ∧ AddsContents R (insert t seen) seen' := by
  refine breadthfirst_checked ⟨fun o ho => ?_, fun d hd hnot es hes e he hm => ?_⟩ h
  · rcases Finset.mem_insert.mp ho with rfl | ho
    · exact ht
    · exact hc.found o ho
  · have hmem := (Finset.mem_insert.mp hd).resolve_left (by simpa using hnot)
    exact Finset.mem_insert_of_mem (hc.entries d hmem List.not_mem_nil es hes e he hm)

end Walgit.Objects
