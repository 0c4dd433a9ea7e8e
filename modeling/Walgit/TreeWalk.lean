import Walgit.Lib.Fallible
import Walgit.Objects
import Mathlib.Data.List.Basic

/-!
# Walking trees for a pack

`walk_tree_with_filter` collects what a tree contains, `diff_tree_new_objects`
what it contains and some parent's tree does not contain at the same path. Both
put every object into one set and do not enter a tree that is in the set
already. The first is the second against no parents.
-/

namespace Walgit.Objects

variable {O : Type}

inductive PackFilter
  | none
  | blobNone
  | blobLimit (limit : ℕ)
  | tree (depth : ℕ)
  deriving DecidableEq, Repr

/-- `str::parse` to a 64-bit unsigned number. -/
def parseUnsigned (s : List Char) : Option ℕ :=
  let digits : List Char := match s with
    | '+' :: rest => rest
    | _ => s
  let n := digits.foldl (fun n c => 10 * n + (c.toNat - '0'.toNat)) 0
  if digits ≠ [] ∧ digits.all Char.isDigit ∧ n < 2 ^ 64 then some n else none

def afterPrefix (pre : String) (s : List Char) : Option (List Char) :=
  if pre.toList.isPrefixOf s then some (s.drop pre.length) else none

def parseFilter (spec : String) : PackFilter :=
  if spec = "blob:none" then .blobNone
  else
    match (afterPrefix "blob:limit=" spec.toList).bind parseUnsigned with
    | some n => .blobLimit n
    | none =>
      match (afterPrefix "tree:" spec.toList).bind parseUnsigned with
      | some n => .tree n
      | none => .none

/-- The repository a request is served from: the object graph, and the part of it that the
object database of this process holds. -/
structure Repo (O : Type) where
  graph : Graph O
  isLocal : O → Bool

/-- `try_find`. -/
def Repo.find (R : Repo O) (oid : O) : Option (Obj O) :=
  if R.isLocal oid then R.graph.obj oid else none

theorem Repo.graph_of_find {R : Repo O} {oid : O} {x : Obj O} (h : R.find oid = some x) :
    R.graph.obj oid = some x := by
  unfold Repo.find at h
  split at h
  · exact h
  · cases h

inductive GitError (O : Type)
  | find (oid : O)
  | noTree (oid : O)
  | walk
  deriving DecidableEq, Repr

/-- The depth check of the tree filter: a tree at `depth` is sent and not entered. -/
def PackFilter.stops (filter : PackFilter) (depth : ℕ) : Bool :=
  match filter with
  | .tree max => max < depth
  | _ => false

/-- The blob check. -/
def PackFilter.skips (filter : PackFilter) (R : Repo O) (oid : O) : Bool :=
  match filter with
  | .blobNone => true
  | .blobLimit limit =>
    match R.find oid with
    | some (.blob size) => limit < size
    | _ => false
  | _ => false

section Walk

variable [DecidableEq O]

def walkEntry (descend : O → Finset O → Except (GitError O) (Finset O)) (R : Repo O)
    (filter : PackFilter) (depth : ℕ) (set : Finset O) (e : Entry O) :
    Except (GitError O) (Finset O) :=
  if e.mode = .tree then
    if filter.stops (depth + 1) then .ok (insert e.oid set)
    else if e.oid ∈ set then .ok set
    else descend e.oid (insert e.oid set)
  else if e.mode = .gitlink then .ok set
  else if filter.skips R e.oid then .ok set
  else .ok (insert e.oid set)

/-- `walk_tree_with_filter`; the first argument bounds the recursion. -/
def walkTreeWithFilter (R : Repo O) (filter : PackFilter) :
    ℕ → O → ℕ → Finset O → Except (GitError O) (Finset O)
  | 0, t, _, _ => .error (.find t)
  | n + 1, t, depth, set =>
    match R.find t with
    | some (.tree es) =>
      es.foldlM (walkEntry (fun o s => walkTreeWithFilter R filter n o (depth + 1) s) R filter
        depth) set
    | _ => .error (.find t)

/-- A parent's subtree at the path being diffed. -/
inductive Old (O : Type)
  | absent
  | tree (oid : O)
  deriving DecidableEq, Repr

/-- What an enumeration has collected, and what it lacked. -/
structure Collected (O : Type) where
  set : Finset O
  missing : List O
  deriving DecidableEq

def Collected.insert (st : Collected O) (oid : O) : Collected O :=
  { st with set := Insert.insert oid st.set }

/-- `tree_entries`: `none` when the tree is not local. -/
def treeEntries (R : Repo O) (oid : O) : Option (List (Entry O)) :=
  match R.find oid with
  | none => none
  | some (.tree es) => some es
  | some _ => some []

def oldEntries (R : Repo O) : Old O → Option (List (Entry O))
  | .absent => some []
  | .tree oid => treeEntries R oid

/-- Lookup in the map of a tree's entries by name: the last entry of a name stays. -/
def entryAt (es : List (Entry O)) (name : String) : Option (Entry O) :=
  es.reverse.find? fun e => e.name = name

/-- The entry stands in every parent at the same path with the same id. -/
def unchanged (maps : List (List (Entry O))) (e : Entry O) : Bool :=
  !maps.isEmpty && maps.all fun m => (entryAt m e.name).any fun old => old.oid = e.oid

def subOld (name : String) (m : List (Entry O)) : Old O :=
  match entryAt m name with
  | some e => if e.mode = .tree then .tree e.oid else .absent
  | none => .absent

def diffEntry (descend : O → List (Old O) → Collected O → Collected O) (R : Repo O)
    (filter : PackFilter) (depth : ℕ) (maps : List (List (Entry O))) (st : Collected O)
    (e : Entry O) : Collected O :=
  if e.mode = .gitlink then st
  else if unchanged maps e then st
  else if e.mode = .tree then
    if filter.stops (depth + 1) then st.insert e.oid
    else if e.oid ∈ st.set then st
    else descend e.oid (maps.map (subOld e.name)) (st.insert e.oid)
  else if filter.skips R e.oid then st
  else st.insert e.oid

/-- The parents' subtrees that are not local. -/
def lostOlds (R : Repo O) (olds : List (Old O)) : List O :=
  olds.filterMap fun old =>
    match old with
    | .absent => none
    | .tree oid => if (treeEntries R oid).isSome then none else some oid

/-- `diff_tree_new_objects`; the first argument bounds the recursion. -/
def diffTreeNewObjects (R : Repo O) (filter : PackFilter) :
    ℕ → O → List (Old O) → ℕ → Collected O → Collected O
  | 0, _, _, _, st => st
  | n + 1, t, olds, depth, st =>
    match treeEntries R t with
    | none => { st with missing := st.missing ++ [t] }
    | some es =>
      if lostOlds R olds = [] then
        es.foldl (diffEntry (fun o subs s => diffTreeNewObjects R filter n o subs (depth + 1) s)
          R filter depth (olds.map fun old => (oldEntries R old).getD [])) st
      else { set := st.set.erase t, missing := st.missing ++ lostOlds R olds }

@[simp] theorem unchanged_nil (e : Entry O) : unchanged [] e = false := rfl

@[simp] theorem insert_set (st : Collected O) (oid : O) :
    (st.insert oid).set = Insert.insert oid st.set := rfl

@[simp] theorem insert_missing (st : Collected O) (oid : O) :
    (st.insert oid).missing = st.missing := rfl

theorem walkEntry_eq_diff {R : Repo O} {filter : PackFilter} {depth : ℕ} {set set' : Finset O}
    {m : List O} {e : Entry O} {walk : O → Finset O → Except (GitError O) (Finset O)}
    {diff : O → List (Old O) → Collected O → Collected O}
    (hd : ∀ {o s s'}, walk o s = .ok s' → diff o [] ⟨s, m⟩ = ⟨s', m⟩)
    (h : walkEntry walk R filter depth set e = .ok set') :
    diffEntry diff R filter depth [] ⟨set, m⟩ e = ⟨set', m⟩ := by
  unfold walkEntry at h
  unfold diffEntry
  cases hmode : e.mode with
  | gitlink =>
    simp only [hmode, reduceCtorEq, if_false, if_true] at h ⊢
    cases h
    rfl
  | blob =>
    simp only [hmode, reduceCtorEq, if_false, unchanged_nil] at h ⊢
    split_ifs at h ⊢ <;> cases h <;> rfl
  | tree =>
    simp only [hmode, reduceCtorEq, if_false, if_true, unchanged_nil] at h ⊢
    split_ifs at h ⊢
    · cases h
      rfl
    · cases h
      rfl
    · exact hd h

theorem walk_eq_diff {R : Repo O} {filter : PackFilter} {n : ℕ} {t : O} {depth : ℕ}
    {set set' : Finset O} (m : List O)
    (h : walkTreeWithFilter R filter n t depth set = .ok set') :
    diffTreeNewObjects R filter n t [] depth ⟨set, m⟩ = ⟨set', m⟩ := by
  induction n generalizing t depth set set' with
  | zero => cases h
  | succ n ih =>
    simp only [walkTreeWithFilter] at h
    simp only [diffTreeNewObjects, treeEntries, lostOlds, List.filterMap_nil, List.map_nil,
      if_true]
    cases hf : R.find t with
    | none => simp [hf] at h
    | some x =>
      cases x with
      | commit _ _ => simp [hf] at h
      | blob _ => simp [hf] at h
      | tag _ => simp [hf] at h
      | tree es =>
        simp only [hf] at h ⊢
        clear hf
        induction es generalizing set with
        | nil =>
          cases h
          rfl
        | cons e es ihes =>
          rw [List.foldlM_cons] at h
          obtain ⟨s, hs, hrest⟩ := bind_eq_ok h
          rw [List.foldl_cons, walkEntry_eq_diff ih hs]
          exact ihes hrest

end Walk

end Walgit.Objects
