import Walgit.TreeCover
import Mathlib.Data.List.Dedup

/-!
# Enumerating the objects of a fetch

`compute_object_set` serves a fetch without common haves from a local
repository; `enumerate` serves every other fetch, diffing the tree of each
commit of the walk against the trees of its parents when the client has
something. Both peel the wanted tags first, collect the wanted trees and blobs,
and walk the commits from the wanted ones, hiding what the haves reach and the
parents that a depth cuts off.
-/

namespace Walgit.Objects

variable {O : Type}

/-- The commit walk: `rev_walk(tips).with_hidden(hidden).all()`. It returns, in an order of its
own, the commits that a tip reaches and no hidden commit reaches; it fails on a tip that is no
commit. -/
structure CommitWalk (G : Graph O) where
  walk : List O → List O → Option (List O)
  tips : ∀ {tips hidden cs t}, walk tips hidden = some cs → t ∈ tips → G.IsCommit t
  mem_iff : ∀ {tips hidden cs c}, walk tips hidden = some cs →
    (c ∈ cs ↔ (∃ t ∈ tips, G.Ancestor t c) ∧ ¬ ∃ h ∈ hidden, G.Ancestor h c)

/-- The walk of a whole history does not fail. -/
structure RevWalk (G : Graph O) extends CommitWalk G where
  total : ∀ {tips hidden}, (∀ t ∈ tips, G.IsCommit t) → (∀ h ∈ hidden, G.IsCommit h) →
    (walk tips hidden).isSome

/-- The fields of a fetch request that choose the objects. -/
structure UploadPackRequest (O : Type) where
  wants : List O
  haves : List O
  includeTag : Bool
  filter : Option String
  deepen : Option ℕ
  shallow : List O
  deriving DecidableEq, Repr

/-- The objects that can be faulted in: `faulter.contains`. -/
abbrev Faulter (O : Type) := O → Bool

def filterOf (filter : Option String) : PackFilter := (filter.map parseFilter).getD .none

section Enumerate

variable [DecidableEq O]

/-! ## The depth of a request -/

/-- `shallow`: the commits at the depth that have parents; `exclude`: those parents. -/
structure ShallowPlan (O : Type) where
  shallow : List O
  exclude : List O
  deriving DecidableEq, Repr

structure LevelState (O : Type) where
  seen : Finset O
  next : List O
  plan : ShallowPlan O

def visitLevel (R : Repo O) (last : Bool) (st : LevelState O) (cid : O) :
    Except (GitError O) (LevelState O) :=
  if cid ∈ st.seen then .ok st
  else
    match R.find cid with
    | some (.commit _ ps) =>
      if last then
        .ok ⟨insert cid st.seen, st.next,
          ⟨if ps = [] then st.plan.shallow else st.plan.shallow ++ [cid],
            st.plan.exclude ++ ps⟩⟩
      else .ok ⟨insert cid st.seen, st.next ++ ps, st.plan⟩
    | _ => .error (.find cid)

/-- The levels of the search; the first argument counts those that are left. -/
def shallowLevels (R : Repo O) : ℕ → List O → LevelState O → Except (GitError O) (LevelState O)
  | 0, _, st => .ok st
  | n + 1, level, st =>
    if level = [] then .ok st
    else do
      let st ← level.foldlM (visitLevel R (n = 0)) { st with next := [] }
      shallowLevels R n st.next st

def computeShallow (R : Repo O) (wants : List O) (depth : ℕ) :
    Except (GitError O) (ShallowPlan O) := do
  let st ← shallowLevels R (max depth 1) wants ⟨∅, [], ⟨[], []⟩⟩
  pure ⟨st.plan.shallow, st.plan.exclude.dedup.filter fun e => e ∉ st.seen⟩

/-- The shallow boundary a request adds to what the walk hides. -/
def boundary (R : Repo O) (wants : List O) (deepen : Option ℕ) : Except (GitError O) (List O) :=
  match deepen with
  | none => .ok []
  | some depth => (computeShallow R wants depth).map ShallowPlan.exclude

/-! ## `compute_object_set` -/

/-- The tag chain of a wanted tag, every target put into the set. -/
def followTag (R : Repo O) : ℕ → O → Finset O → Except (GitError O) (O × Finset O)
  | 0, cur, _ => .error (.find cur)
  | n + 1, cur, set =>
    match R.find cur with
    | none => .error (.find cur)
    | some (.tag target) => followTag R n target (insert target set)
    | some _ => .ok (cur, set)

def walkTree (R : Repo O) (filter : PackFilter) (t : O) (set : Finset O) :
    Except (GitError O) (Finset O) :=
  walkTreeWithFilter R filter (R.graph.height t + 1) t 0 set

/-- One want: the set, and the commits to walk from. -/
def wantObject (R : Repo O) (filter : PackFilter) (st : Finset O × List O) (w : O) :
    Except (GitError O) (Finset O × List O) :=
  match R.find w with
  | some (.commit _ _) => .ok (st.1, st.2 ++ [w])
  | some (.tag _) => do
    let (cur, set) ← followTag R (R.graph.height w + 1) w (insert w st.1)
    match R.find cur with
    | some (.commit _ _) => pure (set, st.2 ++ [cur])
    | _ => pure (set, st.2)
  | some (.tree _) =>
    if filter = .tree 0 then .ok (insert w st.1, st.2)
    else (walkTree R filter w (insert w st.1)).map fun set => (set, st.2)
  | some (.blob _) => .ok (insert w st.1, st.2)
  | none => .ok (insert w st.1, st.2)

/-- One commit of the walk. With `plain` the expansion of the pack writer finds the contents. -/
def walkCommit (R : Repo O) (filter : PackFilter) (plain : Bool) (set : Finset O) (cid : O) :
    Except (GitError O) (Finset O) :=
  if cid ∈ set then .ok set
  else if plain then .ok (insert cid set)
  else
    match R.find cid with
    | some (.commit t _) =>
      if filter = .tree 0 then .ok (insert cid set)
      else if t ∈ insert cid set then .ok (insert cid set)
      else walkTree R filter t (insert t (insert cid set))
    | _ => .error (.find cid)

/-- Annotated tags among the refs whose target is in the set. -/
def includeTags (R : Repo O) (refs : List O) (set : Finset O) : Finset O :=
  refs.foldl (fun set r =>
    if r ∈ set then set
    else
      match R.find r with
      | some (.tag target) => if target ∈ set then insert r set else set
      | _ => set) set

/-- The commits that the wants reach and nothing hidden does, each taken by `step`; there is no
walk when no want leads to a commit. -/
def walkFrom {β : Type} {G : Graph O} (rw : RevWalk G) (step : β → O → Except (GitError O) β)
    (commits hidden : List O) (init : β) : Except (GitError O) β :=
  if commits = [] then .ok init
  else
    match rw.walk commits hidden with
    | none => .error .walk
    | some cs => cs.foldlM step init

def computeObjectSet (R : Repo O) (rw : RevWalk R.graph) (refs : List O)
    (wants commonHaves : List O) (filter : Option String) (includeTag : Bool)
    (deepen : Option ℕ) : Except (GitError O) (Finset O) := do
  let (set, commits) ← wants.foldlM (wantObject R (filterOf filter)) (∅, [])
  let exclude ← boundary R wants deepen
  let plain := filter.isNone && deepen.isNone && commonHaves.isEmpty
  let set ← walkFrom rw (walkCommit R (filterOf filter) plain) commits (commonHaves ++ exclude) set
  pure (if includeTag then includeTags R refs set else set)

/-! ## `enumerate` -/

inductive Enumerated (O : Type)
  | done (set : Finset O) (commits : ℕ) (diffed : Bool)
  | need (missing : List O)

/-- The tag chain of a wanted tag, and what its end asks for. -/
def peelWant (R : Repo O) (filter : PackFilter) :
    ℕ → O → Collected O × List O → Except (GitError O) (Collected O × List O)
  | 0, cur, _ => .error (.find cur)
  | n + 1, cur, (st, commits) =>
    match R.find cur with
    | none => .ok ({ st with missing := st.missing ++ [cur] }, commits)
    | some (.commit _ _) => .ok (st, commits ++ [cur])
    | some (.tree _) =>
      (walkTree R filter cur (insert cur st.set)).map fun set => (⟨set, st.missing⟩, commits)
    | some (.blob _) => .ok (st.insert cur, commits)
    | some (.tag target) => peelWant R filter n target (st.insert target, commits)

def enumerateWant (R : Repo O) (filter : PackFilter) (faulter : Option (Faulter O))
    (st : Collected O × List O) (w : O) : Except (GitError O) (Collected O × List O) :=
  match R.find w with
  | some (.commit _ _) => .ok (st.1, st.2 ++ [w])
  | some (.tag _) => peelWant R filter (R.graph.height w + 1) w (st.1.insert w, st.2)
  | some (.tree _) =>
    if filter = .tree 0 then .ok (st.1.insert w, st.2)
    else (walkTree R filter w (insert w st.1.set)).map fun set => (⟨set, st.1.missing⟩, st.2)
  | some (.blob _) => .ok (st.1.insert w, st.2)
  | none =>
    if faulter.any fun contains => contains w then .ok (st.1, st.2 ++ [w])
    else .ok (st.1.insert w, st.2)

/-- The trees of the parents, and the parents that are not local. -/
def parentTrees (R : Repo O) (ps : List O) : Except (GitError O) (List (Old O) × List O) :=
  ps.foldlM (fun acc p =>
    match R.find p with
    | none => .ok (acc.1, acc.2 ++ [p])
    | some (.commit t _) => .ok (acc.1 ++ [.tree t], acc.2)
    | some _ => .error (.noTree p)) ([], [])

/-- The tree of a commit, diffed against `olds` unless it is in the set already. -/
def enterTree (R : Repo O) (filter : PackFilter) (t : O) (olds : List (Old O))
    (st : Collected O) : Collected O :=
  if t ∈ st.set then st
  else diffTreeNewObjects R filter (R.graph.height t + 1) t olds 0 (st.insert t)

/-- One commit of the walk, with the count of those taken. -/
def enumerateCommit (R : Repo O) (filter : PackFilter) (diffMode : Bool) (hidden : List O)
    (st : Collected O × ℕ) (cid : O) : Except (GitError O) (Collected O × ℕ) :=
  if cid ∈ hidden ∨ cid ∈ st.1.set then .ok st
  else
    match R.find cid with
    | none =>
      .ok ({ set := insert cid st.1.set, missing := st.1.missing ++ [cid] }, st.2 + 1)
    | some (.commit t ps) =>
      if filter = .tree 0 then .ok (st.1.insert cid, st.2 + 1)
      else if ps = [] ∨ diffMode = false then
        .ok (enterTree R filter t [] (st.1.insert cid), st.2 + 1)
      else do
        let (olds, lost) ← parentTrees R ps
        if lost = [] then pure (enterTree R filter t olds (st.1.insert cid), st.2 + 1)
        else
          -- the commit is taken again once its parents are local
          pure ({ set := (insert cid st.1.set).erase cid, missing := st.1.missing ++ lost }, st.2)
    | some _ => .error (.noTree cid)

def enumerate (R : Repo O) (rw : RevWalk R.graph) (refs : List O) (req : UploadPackRequest O)
    (commonHaves : List O) (faulter : Option (Faulter O)) :
    Except (GitError O) (Enumerated O) :=
  if commonHaves = [] ∧ faulter.isNone then
    (computeObjectSet R rw refs req.wants commonHaves req.filter req.includeTag req.deepen).map
      fun set => .done set 0 false
  else do
    let filter := filterOf req.filter
    let diffMode := !commonHaves.isEmpty
    let (st, commits) ← req.wants.foldlM (enumerateWant R filter faulter) (⟨∅, []⟩, [])
    let exclude ← boundary R req.wants req.deepen
    -- a have that is shallow on the client does not imply its parents
    let hidden := (commonHaves.filter fun h => h ∉ req.shallow) ++ exclude
    let (st, taken) ←
      walkFrom rw (enumerateCommit R filter diffMode hidden) commits hidden (st, 0)
    if st.missing = [] then
      pure (.done (if req.includeTag then includeTags R refs st.set else st.set) taken diffMode)
    else pure (.need st.missing.dedup)

/-! ## The pack -/

inductive ObjectExpansion
  | asIs
  | treeContents
  deriving DecidableEq, Repr

/-- The expansion of the pack writer: trees are expanded only for a clone without a filter. -/
def expansionOf (filter : Option String) (deepen : Option ℕ) (commonHaves : List O) :
    ObjectExpansion :=
  if filter.isNone ∧ deepen.isNone ∧ commonHaves = [] then .treeContents else .asIs

/-- The object count of the pack writer: it keeps the objects it is given, and with
`TreeContents` adds the tree of every commit and what stands below every tree. -/
structure Counter (G : Graph O) where
  count : ObjectExpansion → Finset O → Finset O
  keeps : ∀ {x set o}, o ∈ set → o ∈ count x set
  asIs : ∀ {set}, count .asIs set = set
  tree : ∀ {set t k o}, t ∈ set → G.IsTree t → G.Under k t o → o ∈ count .treeContents set
  commit : ∀ {set c t k o}, c ∈ set → G.TreeOf c t → G.Under k t o →
    o ∈ count .treeContents set

end Enumerate

end Walgit.Objects
