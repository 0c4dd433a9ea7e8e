import Mathlib

/-!
# The bundle list

`bundles/list.pb` names the bundles of a repository. A builder adds an entry
and prunes the list by retention in one conditional write, and then deletes
the objects of the keys that were in the list it had read before and are not
in the list it wrote. Sizes, versions, filters and wall-clock stamps of the
entries decide nothing here and are left out.
-/

namespace Walgit.Bundles

inductive BundleKind
  | full | incremental
  deriving DecidableEq, Repr

structure BundleStrategy where
  name : String
  kind : BundleKind
  base : Option String
  keep : ℕ
  chain : Bool
  refs : List String
  deriving DecidableEq, Repr

structure BundleEntry where
  id : String
  key : String
  strategy : String
  creationToken : ℕ
  slot : ℕ
  seq : ℕ
  baseId : String
  tips : List (String × String)
  deriving DecidableEq, Repr

abbrev BundlesConfig := List BundleStrategy

section Retention

/-- The bundles of a strategy, oldest token first. -/
def entriesOf (list : List BundleEntry) (strategy : String) : List BundleEntry :=
  (list.filter fun b => b.strategy = strategy).insertionSort fun a b =>
    a.creationToken ≤ b.creationToken

/-- `INCREMENTALS_KEPT`. -/
def incrementalsKept : ℕ := 2

variable (cfg : BundlesConfig) (list : List BundleEntry)

/-- The newest `keep` of every full strategy, and one at least. -/
def keptFulls : List String :=
  (cfg.filter fun s => s.kind = .full).flatMap fun s =>
    ((entriesOf list s.name).reverse.take (max s.keep 1)).map BundleEntry.id

/-- The tokens of the kept fulls, in order. -/
def fullTokens (keep : List String) : List ℕ :=
  (((list.filter fun b => b.id ∈ keep ∧ b.baseId = "").map
    BundleEntry.creationToken).insertionSort (· ≤ ·)).dedup

/-- A bundle cut at a full's own instant belongs to the group before it. -/
def groupOf (tokens : List ℕ) (b : BundleEntry) : ℕ :=
  let below := (tokens.takeWhile fun t => t < b.creationToken).length
  if b.baseId = "" then below else below - 1

/-- The links of one group of a chained strategy, oldest first: a link stays when its own base
does; the first may hang on a pruned link of the group before. -/
def keepChain (baseNewest : ℕ) (groupFullKept : Bool) :
    Bool → List String → List BundleEntry → List String
  | _, keep, [] => keep
  | first, keep, b :: bs =>
    if b.creationToken ≤ baseNewest then keepChain baseNewest groupFullKept first keep bs
    else if b.baseId = "" ∨ b.baseId ∈ keep ∨ (first ∧ groupFullKept) then
      keepChain baseNewest groupFullKept false (b.id :: keep) bs
    else keepChain baseNewest groupFullKept false keep bs

def keepGroup (tokens : List ℕ) (strat : BundleStrategy) (keep : List String) (g : ℕ) :
    List String :=
  let inGroup := (entriesOf list strat.name).filter fun b => groupOf tokens b = g
  if strat.chain then
    let baseNewest := strat.base.elim 0 fun n =>
      (((entriesOf list n).filter fun b => b.id ∈ keep ∧ groupOf tokens b = g).map
        BundleEntry.creationToken).max?.getD 0
    keepChain baseNewest (g < tokens.length) true keep inGroup
  else
    ((inGroup.reverse.filter fun b => b.baseId = "" ∨ b.baseId ∈ keep).take
      incrementalsKept).map BundleEntry.id ++ keep

/-- The ids retention keeps: fulls, then the incrementals of every kept full's group. -/
def keepIds : List String :=
  let tokens := fullTokens list (keptFulls cfg list)
  (cfg.filter fun s => s.kind = .incremental).foldl
    (fun keep s => (List.range (tokens.length + 1)).foldl (keepGroup list tokens s) keep)
    (keptFulls cfg list)

def retain : List BundleEntry := list.filter fun b => b.id ∈ keepIds cfg list

end Retention

/-- The list of `build_slot`: an entry of the same strategy and token is replaced. -/
def withBuilt (entry : BundleEntry) (current : List BundleEntry) : List BundleEntry :=
  (current.filter fun b =>
    !(b.strategy = entry.strategy ∧ b.creationToken = entry.creationToken)) ++ [entry]

/-- The list of a compose: the entry is added. -/
def withComposed (entry : BundleEntry) (current : List BundleEntry) : List BundleEntry :=
  current ++ [entry]

/-- The keys of `old` that are not in `new`. -/
def prunedDiff (old new : List BundleEntry) : List String :=
  (old.map BundleEntry.key).filter fun k => k ∉ new.map BundleEntry.key

def Distinct (list : List BundleEntry) : Prop :=
  list.Pairwise fun a b => ¬ (a.strategy = b.strategy ∧ a.creationToken = b.creationToken)

instance {list : List BundleEntry} : Decidable (Distinct list) :=
  inferInstanceAs (Decidable (list.Pairwise _))

variable {cfg : BundlesConfig} {list current old new : List BundleEntry} {entry b : BundleEntry}
  {k : String}

theorem mem_retain : b ∈ retain cfg list ↔ b ∈ list ∧ b.id ∈ keepIds cfg list := by
  simp [retain]

theorem mem_prunedDiff :
    k ∈ prunedDiff old new ↔ k ∈ old.map BundleEntry.key ∧ k ∉ new.map BundleEntry.key := by
  simp [prunedDiff]

theorem mem_withBuilt (h : b ∈ withBuilt entry current) : b ∈ current ∨ b = entry := by
  rcases List.mem_append.mp h with h | h
  · exact .inl (List.mem_filter.mp h).1
  · exact .inr (List.mem_singleton.mp h)

theorem Distinct.retain (h : Distinct list) : Distinct (retain cfg list) := List.Pairwise.filter _ h

theorem Distinct.withComposed (h : Distinct current)
    (hnew : ∀ b ∈ current,
      ¬ (b.strategy = entry.strategy ∧ b.creationToken = entry.creationToken)) :
    Distinct (withComposed entry current) := by
  refine List.pairwise_append.mpr ⟨h, List.pairwise_singleton _ _, fun a ha b hb => ?_⟩
  rw [List.mem_singleton.mp hb]
  exact hnew a ha

theorem Distinct.withBuilt (h : Distinct current) : Distinct (withBuilt entry current) := by
  refine List.pairwise_append.mpr ⟨List.Pairwise.filter _ h, List.pairwise_singleton _ _, ?_⟩
  intro a ha b hb
  rw [List.mem_singleton.mp hb]
  exact not_and_or.mpr (by simpa using (List.mem_filter.mp ha).2)

end Walgit.Bundles
