import Walgit.LsRefs
import Walgit.Policy
import Walgit.Lib.Pages

/-!
# The pages of the references

The references of a snapshot are indexed as sorted namespaces, and a page is a
scan from a position found by binary search. A reader asks page after page for
what comes after the last name, while the references change. No name is read
twice, and a reference that is there all the time is read.
-/

namespace Walgit.RefPages

open Appliers SortedTable SortedRanges Pages
open LsRefs (startsWith startsWith_iff)
open Policy (stripPrefix? stripPrefix?_eq_some)

section Code

structure RefInfo where
  name : String
  sha : String
  deriving DecidableEq, Repr

structure RefIndex where
  byName : String → Option (String × String)
  branches : List RefInfo
  tags : List RefInfo
  all : List RefInfo
  headTarget : String

def RefIndex.add (idx : RefIndex) (r : Ref) : RefIndex :=
  let sha := if r.peeled = "" then r.oid else r.peeled
  { idx with
    byName := Function.update idx.byName r.name (some (r.oid, r.peeled))
    branches := idx.branches ++ ((stripPrefix? "refs/heads/" r.name).map (⟨·, r.oid⟩)).toList
    tags := idx.tags ++
      if (stripPrefix? "refs/heads/" r.name).isSome then []
      else ((stripPrefix? "refs/tags/" r.name).map (⟨·, sha⟩)).toList
    all := idx.all ++ [⟨r.name, r.oid⟩] }

def byBytes (a b : RefInfo) : Bool := a.name ≤ b.name

def RefIndex.build (snap : RefTable) : RefIndex :=
  let idx := snap.refs.foldl RefIndex.add ⟨fun _ => none, [], [], [], snap.headTarget⟩
  { idx with
    branches := idx.branches.mergeSort byBytes
    tags := idx.tags.mergeSort byBytes
    all := idx.all.mergeSort byBytes }

/-- The default branch, where `HEAD` points at a branch that exists. -/
def RefIndex.head (idx : RefIndex) : Option RefInfo := do
  let short ← stripPrefix? "refs/heads/" idx.headTarget
  let found ← idx.byName idx.headTarget
  return ⟨short, found.1⟩

def RefIndex.branch (idx : RefIndex) (short : String) : Option String :=
  (idx.byName ("refs/heads/" ++ short)).map Prod.fst

def RefIndex.tag (idx : RefIndex) (short : String) : Option String :=
  (idx.byName ("refs/tags/" ++ short)).map fun v => if v.2 = "" then v.1 else v.2

inductive RefKind
  | branches
  | tags
  | all
  | collab
  deriving DecidableEq, Repr

def collabDir : String := "refs/collab/"

/-- The rows of a listing, and the directory it stays in. -/
def RefIndex.slice (idx : RefIndex) : RefKind → List RefInfo × Option String
  | .branches => (idx.branches, none)
  | .tags => (idx.tags, none)
  | .all => (idx.all, none)
  | .collab => (idx.all, some collabDir)

/-- `pre` is the `prefix` of the request. -/
structure RefListQuery where
  pre : Option String
  q : Option String
  after : Option String
  n : Option ℕ
  deriving DecidableEq, Repr

def trimSlashes (s : String) : String :=
  String.ofList ((s.toList.dropWhile (· = '/')).rdropWhile (· = '/'))

def RefListQuery.limit (q : RefListQuery) : ℕ := max 1 (min (q.n.getD 100) 1000)

def RefListQuery.dir (q : RefListQuery) : Option String :=
  ((q.pre.map trimSlashes).filter (· ≠ "")).map (· ++ "/")

def RefListQuery.needle (q : RefListQuery) : Option String :=
  (q.q.filter (· ≠ "")).map String.toLower

def RefListQuery.start (q : RefListQuery) : String := q.after.getD ""

structure RefPage where
  refs : List RefInfo
  more : Bool
  deriving DecidableEq, Repr

def contains (needle : Option String) (name : String) : Bool :=
  needle.all fun nd => hasInfix nd.toList name.toLower.toList

def scan (ns dir needle : Option String) (n : ℕ) : List RefInfo → List RefInfo → RefPage
  | [], refs => ⟨refs, false⟩
  | r :: rest, refs =>
    if ns.any fun p => !startsWith r.name p then ⟨refs, false⟩
    else if dir.any fun p => !startsWith r.name p then ⟨refs, false⟩
    else if !contains needle r.name then scan ns dir needle n rest refs
    else if refs.length = n then ⟨refs, true⟩
    else scan ns dir needle n rest (refs ++ [r])

def lower (ns dir : Option String) (after : String) : String :=
  let low := match dir with
    | some p => if after < p then p else after
    | none => after
  max low (ns.getD "")

def refList (idx : RefIndex) (kind : RefKind) (q : RefListQuery) : RefPage :=
  let slice := (idx.slice kind).1
  let ns := (idx.slice kind).2
  let start := max (partitionPoint (fun r => r.name < lower ns q.dir q.start) slice)
    (partitionPoint (fun r => r.name ≤ q.start) slice)
  scan ns q.dir q.needle q.limit (slice.drop start) []

/-- A reader's next request: what comes after the last reference it has. -/
def RefListQuery.next (q : RefListQuery) (page : RefPage) : RefListQuery :=
  { q with after := (page.refs.getLast?.map RefInfo.name).or q.after }

/-- A reader's requests, each answered from the references as they are then. -/
def crawl (kind : RefKind) : RefListQuery → List RefTable → List RefPage
  | _, [] => []
  | q, snap :: snaps =>
    let page := refList (.build snap) kind q
    page :: if page.more then crawl kind (q.next page) snaps else []

end Code

section Spec

def rowOf (kind : RefKind) (r : Ref) : Option RefInfo :=
  match kind with
  | .branches => (stripPrefix? "refs/heads/" r.name).map (⟨·, r.oid⟩)
  | .tags => (stripPrefix? "refs/tags/" r.name).map
      (⟨·, if r.peeled = "" then r.oid else r.peeled⟩)
  | .all => some ⟨r.name, r.oid⟩
  | .collab => if startsWith r.name collabDir then some ⟨r.name, r.oid⟩ else none

def Selects (q : RefListQuery) (name : String) : Prop :=
  (∀ p ∈ q.dir, p.toList <+: name.toList) ∧ contains q.needle name

instance (q : RefListQuery) : DecidablePred (Selects q) := fun _ =>
  inferInstanceAs (Decidable (_ ∧ _))

/-- The references a request is about, in the order of their names. -/
def view (kind : RefKind) (q : RefListQuery) (snap : RefTable) : List RefInfo :=
  (snap.refs.filterMap (rowOf kind)).filter fun r => Selects q r.name

variable {snap : RefTable} {idx : RefIndex} {refs : List Ref} {rows : List RefInfo}
  {kind : RefKind} {q : RefListQuery} {p s t name after : String} {ns dir needle : Option String}

theorem foldl_add (refs : List Ref) (idx : RefIndex) :
    (refs.foldl RefIndex.add idx).branches = idx.branches ++ refs.filterMap (rowOf .branches) ∧
      (refs.foldl RefIndex.add idx).tags = idx.tags ++ refs.filterMap (rowOf .tags) ∧
      (refs.foldl RefIndex.add idx).all = idx.all ++ refs.filterMap (rowOf .all) := by
  induction refs generalizing idx with
  | nil => simp
  | cons r refs ih =>
    obtain ⟨hbranches, htags, hall⟩ := ih (idx.add r)
    rw [List.foldl_cons, hbranches, htags, hall]
    refine ⟨?_, ?_, ?_⟩
    · cases h : stripPrefix? "refs/heads/" r.name <;> simp [RefIndex.add, rowOf, h]
    · cases h : stripPrefix? "refs/heads/" r.name with
      | none => cases ht : stripPrefix? "refs/tags/" r.name <;> simp [RefIndex.add, rowOf, h, ht]
      | some n =>
        have ht : stripPrefix? "refs/tags/" r.name = none := by
          rw [Option.eq_none_iff_forall_ne_some]
          intro m hm
          rw [stripPrefix?_eq_some] at h hm
          rw [h, ← String.toList_inj] at hm
          simp at hm
        simp [RefIndex.add, rowOf, h, ht]
    · simp [RefIndex.add, rowOf]

theorem append_lt_append : p ++ s < p ++ t ↔ s < t := by
  simp only [String.lt_iff_toList_lt, String.toList_append]
  generalize s.toList = l
  generalize t.toList = m
  constructor
  · intro h
    by_contra hle
    rcases lt_or_eq_of_le (not_lt.mp hle) with hlt | rfl
    · exact lt_asymm h (List.append_left_lt hlt)
    · exact lt_irrefl _ h
  · exact List.append_left_lt

theorem sorted_rows : Sorted RefInfo.name (snap.refs.filterMap (rowOf kind)) := by
  apply List.Pairwise.filterMap _ _ snap.sorted
  intro r s hlt a ha b hb
  cases kind with
  | branches =>
    simp only [rowOf, Option.map_eq_some_iff, stripPrefix?_eq_some] at ha hb
    obtain ⟨n, hr, rfl⟩ := ha
    obtain ⟨m, hs, rfl⟩ := hb
    rwa [hr, hs, append_lt_append] at hlt
  | tags =>
    simp only [rowOf, Option.map_eq_some_iff, stripPrefix?_eq_some] at ha hb
    obtain ⟨n, hr, rfl⟩ := ha
    obtain ⟨m, hs, rfl⟩ := hb
    rwa [hr, hs, append_lt_append] at hlt
  | all =>
    simp only [rowOf, Option.some_inj] at ha hb
    subst ha hb
    exact hlt
  | collab =>
    simp only [rowOf, Option.ite_none_right_eq_some, Option.some_inj] at ha hb
    obtain ⟨-, rfl⟩ := ha
    obtain ⟨-, rfl⟩ := hb
    exact hlt

theorem mergeSort_rows : (snap.refs.filterMap (rowOf kind)).mergeSort byBytes =
    snap.refs.filterMap (rowOf kind) := by
  apply List.mergeSort_of_pairwise
  exact sorted_rows.imp fun h => decide_eq_true h.le

theorem build_slice (kind : RefKind) : ((RefIndex.build snap).slice kind).1 =
    snap.refs.filterMap (rowOf (if kind = .collab then .all else kind)) := by
  have h := foldl_add snap.refs ⟨fun _ => none, [], [], [], snap.headTarget⟩
  simp only [List.nil_append] at h
  cases kind <;> simp only [RefIndex.build, RefIndex.slice, h, mergeSort_rows, if_true] <;> rfl

theorem foldl_byName {idx : RefIndex} {v : String × String} (h : Sorted Ref.name refs) :
    (refs.foldl RefIndex.add idx).byName name = some v ↔
      (∃ r ∈ refs, r.name = name ∧ (r.oid, r.peeled) = v) ∨
        (∀ r ∈ refs, r.name ≠ name) ∧ idx.byName name = some v := by
  induction refs generalizing idx with
  | nil => simp
  | cons r refs ih =>
    obtain ⟨hlt, htail⟩ := List.pairwise_cons.mp h
    rw [List.foldl_cons, ih htail]
    by_cases hr : r.name = name
    · have hne : ∀ x ∈ refs, x.name ≠ name := fun x hx he => (hlt x hx).ne (hr.trans he.symm)
      have hno : ¬ ∃ x ∈ refs, x.name = name ∧ (x.oid, x.peeled) = v := by
        rintro ⟨x, hx, he, -⟩
        exact hne x hx he
      simpa [RefIndex.add, hr, hno] using fun _ => hne
    · simp [RefIndex.add, hr, Function.update_of_ne (Ne.symm hr)]

theorem byName_iff {v : String × String} : (RefIndex.build snap).byName name = some v ↔
    ∃ r ∈ snap.refs, r.name = name ∧ (r.oid, r.peeled) = v := by
  simp only [RefIndex.build, foldl_byName snap.sorted, reduceCtorEq, and_false, or_false]

theorem foldl_headTarget {idx : RefIndex} :
    (refs.foldl RefIndex.add idx).headTarget = idx.headTarget := by
  induction refs generalizing idx with
  | nil => rfl
  | cons r refs ih => exact ih

/-- A name that is looked up is what the listing of its namespace has. -/
theorem lookup_listed (snap : RefTable) (short sha : String) :
    let idx := RefIndex.build snap
    (idx.branch short = some sha ↔ ⟨short, sha⟩ ∈ idx.branches) ∧
      (idx.tag short = some sha ↔ ⟨short, sha⟩ ∈ idx.tags) ∧
        (idx.head = some ⟨short, sha⟩ ↔
          snap.headTarget = "refs/heads/" ++ short ∧ ⟨short, sha⟩ ∈ idx.branches) := by
  intro idx
  have hbranches : idx.branches = _ := build_slice .branches
  have htags : idx.tags = _ := build_slice .tags
  have hbranch : idx.branch short = some sha ↔ ⟨short, sha⟩ ∈ idx.branches := by
    simp [hbranches, RefIndex.branch, idx, byName_iff, rowOf, stripPrefix?_eq_some]
  refine ⟨hbranch, ?_, ?_⟩
  · simp [htags, RefIndex.tag, idx, byName_iff, rowOf, stripPrefix?_eq_some, and_assoc]
  · have hhead : idx.headTarget = snap.headTarget := foldl_headTarget
    rw [← hbranch]
    simp only [RefIndex.head, RefIndex.branch, Option.bind_eq_bind, Option.bind_eq_some_iff,
      stripPrefix?_eq_some, Option.pure_def, Option.some_inj, RefInfo.mk.injEq, hhead,
      Option.map_eq_some_iff]
    constructor
    · rintro ⟨_, htarget, v, hv, rfl, rfl⟩
      exact ⟨htarget, v, htarget ▸ hv, rfl⟩
    · rintro ⟨htarget, v, hv, rfl⟩
      exact ⟨short, htarget, v, htarget ▸ hv, rfl, rfl⟩

def Kept (ns : Option String) (q : RefListQuery) (name : String) : Prop :=
  (∀ p ∈ ns, p.toList <+: name.toList) ∧ Selects q name

instance (ns : Option String) (q : RefListQuery) : DecidablePred (Kept ns q) := fun _ =>
  inferInstanceAs (Decidable (_ ∧ _))

theorem filter_kept : ((RefIndex.build snap).slice kind).1.filter
    (fun r => Kept ((RefIndex.build snap).slice kind).2 q r.name) = view kind q snap := by
  rw [build_slice, view]
  cases kind with
  | collab =>
    rw [List.filter_filterMap, List.filter_filterMap]
    apply List.filterMap_congr
    intro r hr
    by_cases h : startsWith r.name collabDir <;>
      simp [rowOf, RefIndex.slice, Kept, h, ← startsWith_iff, Option.filter]
  | _ => simp [RefIndex.slice, Kept]

variable {r : RefInfo} {n : ℕ} {acc : List RefInfo}

theorem not_startsWith_later (hs : Sorted RefInfo.name (r :: rows)) (hr : ¬ r.name < p)
    (hp : ¬ startsWith r.name p) : ∀ x ∈ rows, ¬ startsWith x.name p := by
  intro x hx hxp
  apply hp
  have hlt := (List.pairwise_cons.mp hs).1 x hx
  rw [String.lt_iff_toList_lt] at hlt hr
  rw [startsWith_iff] at hxp ⊢
  exact prefix_of_le hlt hxp hr

/-- The rows from a start on, cut at the first that is past the namespace or the prefix, are the
rows that are kept. -/
theorem scan_eq (hs : Sorted RefInfo.name rows) (hns : ∀ p ∈ ns, ∀ r ∈ rows, ¬ r.name < p)
    (hdir : ∀ p ∈ q.dir, ∀ r ∈ rows, ¬ r.name < p) (hacc : acc.length ≤ n) :
    scan ns q.dir q.needle n rows acc =
      ⟨acc ++ (rows.filter fun r => Kept ns q r.name).take (n - acc.length),
        n - acc.length < (rows.filter fun r => Kept ns q r.name).length⟩ := by
  induction rows generalizing acc with
  | nil => simp [scan]
  | cons r rows ih =>
    have hs' := (List.pairwise_cons.mp hs).2
    have hns' := fun p hp x hx => hns p hp x (List.mem_cons_of_mem r hx)
    have hdir' := fun p hp x hx => hdir p hp x (List.mem_cons_of_mem r hx)
    have hstop : ∀ p, ¬ r.name < p → ¬ startsWith r.name p →
        (∀ name, Kept ns q name → startsWith name p) →
        ((r :: rows).filter fun r => Kept ns q r.name) = [] := by
      intro p hr hp hkept
      rw [List.filter_eq_nil_iff]
      intro x hx hk
      have hxp := hkept x.name (of_decide_eq_true hk)
      rcases List.mem_cons.mp hx with rfl | hx
      · exact hp hxp
      · exact not_startsWith_later hs hr hp x hx hxp
    have hkept : ¬ ns.any (fun p => !startsWith r.name p) →
        ¬ q.dir.any (fun p => !startsWith r.name p) → contains q.needle r.name →
        Kept ns q r.name := by
      intro h1 h2 h3
      simp only [Option.any_eq_true, Bool.not_eq_true', ← Bool.not_eq_true, startsWith_iff,
        not_exists,
        not_and, not_not] at h1 h2
      exact ⟨h1, h2, h3⟩
    rw [scan]
    split_ifs with h1 h2 h3 h4
    · obtain ⟨p, hp, hr⟩ := (Option.any_eq_true _ _).mp h1
      rw [hstop p (hns p hp r (by simp)) (by simpa using hr)
        fun name hk => startsWith_iff.mpr (hk.1 p hp)]
      simp
    · obtain ⟨p, hp, hr⟩ := (Option.any_eq_true _ _).mp h2
      rw [hstop p (hdir p hp r (by simp)) (by simpa using hr)
        fun name hk => startsWith_iff.mpr (hk.2.1 p hp)]
      simp
    · have hnot : ¬ Kept ns q r.name := fun hk => by simp [hk.2.2] at h3
      rw [ih hs' hns' hdir' hacc, List.filter_cons_of_neg (by simpa using hnot)]
    · rw [List.filter_cons_of_pos (by simpa using hkept h1 h2 (by simpa using h3))]
      simp [h4]
    · rw [List.filter_cons_of_pos (by simpa using hkept h1 h2 (by simpa using h3)),
        ih hs' hns' hdir' (by simp; omega)]
      obtain ⟨k, hk⟩ : ∃ k, n - acc.length = k + 1 := ⟨n - acc.length - 1, by omega⟩
      have hk' : n - (acc ++ [r]).length = k := by simp; omega
      rw [hk', hk]
      simp

theorem drop_eq_filter {α : Type} {xs : List α} {c : ℕ} {P : α → Bool}
    (h : ∀ i (hi : i < xs.length), i < c ↔ P xs[i]) : xs.drop c = xs.filter fun x => !P x := by
  induction xs generalizing c with
  | nil => simp
  | cons x xs ih =>
    have hhead := h 0 (by simp)
    rw [List.getElem_cons_zero] at hhead
    cases c with
    | zero =>
      have htail := @ih 0 fun i hi => (iff_of_false (Nat.not_lt_zero _) (Nat.not_lt_zero _)).trans
        (h (i + 1) (Nat.succ_lt_succ hi))
      simp only [List.drop_zero] at htail ⊢
      simp only [lt_irrefl, false_iff, Bool.not_eq_true] at hhead
      rw [List.filter_cons_of_pos (by simp [hhead]), ← htail]
    | succ c =>
      have htail := @ih c fun i hi =>
        Nat.succ_lt_succ_iff.symm.trans (h (i + 1) (Nat.succ_lt_succ hi))
      rw [List.filter_cons_of_neg (by simpa using hhead), List.drop_succ_cons, htail]

theorem not_lt_start (h : p.toList <+: name.toList) : ¬ name < p := fun hlt =>
  not_lt_of_prefix h (String.lt_iff_toList_lt.mp hlt)

/-- From the start of a page on, names are not below the namespace or the prefix, and what is kept
is not in front of it. -/
theorem lower_le_iff (ha : after < name) : ¬ name < lower ns dir after ↔
    (∀ p ∈ ns, ¬ name < p) ∧ ∀ p ∈ dir, ¬ name < p := by
  have hempty : "" ≤ name := by
    rw [String.le_iff_toList_le]
    exact not_lt.mp (List.not_lt_nil name.toList)
  have hns : ns.getD "" ≤ name ↔ ∀ p ∈ ns, ¬ name < p := by
    cases ns with
    | none => exact iff_of_true hempty (by simp)
    | some p => simp only [Option.getD_some, Option.mem_def, Option.some_inj, forall_eq', not_lt]
  have hdir : (match dir with | some p => if after < p then p else after | none => after) ≤ name ↔
      ∀ p ∈ dir, ¬ name < p := by
    cases dir with
    | none => exact iff_of_true ha.le (by simp)
    | some p =>
      by_cases hp : after < p
      · simp only [hp, if_true, Option.mem_def, Option.some_inj, forall_eq', not_lt]
      · simp only [hp, if_false, Option.mem_def, Option.some_inj, forall_eq', not_lt]
        exact iff_of_true ha.le ((not_lt.mp hp).trans ha.le)
  rw [not_lt, lower.eq_def, max_le_iff, hns, hdir, and_comm]

theorem limit_pos : 0 < q.limit := by
  simp [RefListQuery.limit]

theorem drop_start (hs : Sorted RefInfo.name rows) :
    rows.drop (max (partitionPoint (fun r => r.name < lower ns dir after) rows)
      (partitionPoint (fun r => r.name ≤ after) rows)) =
      rows.filter fun r => !(decide (r.name < lower ns dir after) || decide (r.name ≤ after)) := by
  have hlow : Partitioned (fun r => decide (r.name < lower ns dir after)) rows :=
    hs.imp fun hlt hp => decide_eq_true (hlt.trans (of_decide_eq_true hp))
  have hafter : Partitioned (fun r => decide (r.name ≤ after)) rows :=
    hs.imp fun hlt hp => decide_eq_true (hlt.le.trans (of_decide_eq_true hp))
  apply drop_eq_filter
  intro i hi
  rw [lt_max_iff, lt_partitionPoint hlow hi, lt_partitionPoint hafter hi, Bool.or_eq_true]

theorem refList_eq : refList (.build snap) kind q =
    ⟨(pageAfter RefInfo.name q.limit q.start (view kind q snap)).rows,
      (pageAfter RefInfo.name q.limit q.start (view kind q snap)).more⟩ := by
  have hs : Sorted RefInfo.name ((RefIndex.build snap).slice kind).1 := by
    rw [build_slice]
    exact sorted_rows
  rw [refList, ← filter_kept, pageAfter, firstRows]
  generalize ((RefIndex.build snap).slice kind).1 = rows at hs ⊢
  generalize ((RefIndex.build snap).slice kind).2 = ns
  rw [drop_start hs]
  have hfrom : ∀ r ∈ rows.filter fun r =>
      !(decide (r.name < lower ns q.dir q.start) || decide (r.name ≤ q.start)),
      (∀ p ∈ ns, ¬ r.name < p) ∧ ∀ p ∈ q.dir, ¬ r.name < p := by
    intro r hr
    have hr' := (List.mem_filter.mp hr).2
    simp only [Bool.not_eq_true', Bool.or_eq_false_iff, decide_eq_false_iff_not, not_le] at hr'
    exact (lower_le_iff hr'.2).mp hr'.1
  rw [scan_eq (List.Pairwise.filter _ hs) (fun p hp r hr => (hfrom r hr).1 p hp)
    (fun p hp r hr => (hfrom r hr).2 p hp) (Nat.zero_le _)]
  have hrows : (rows.filter fun r =>
      !(decide (r.name < lower ns q.dir q.start) || decide (r.name ≤ q.start))).filter
        (fun r => Kept ns q r.name) =
      (rows.filter fun r => Kept ns q r.name).filter fun r => q.start < r.name := by
    rw [List.filter_filter, List.filter_filter]
    apply List.filter_congr
    intro r _
    rw [Bool.eq_iff_iff]
    simp only [Bool.and_eq_true, Bool.not_eq_true', Bool.or_eq_false_iff, decide_eq_true_eq,
      decide_eq_false_iff_not, not_le]
    constructor
    · exact fun h => ⟨h.2.2, h.1⟩
    · intro h
      refine ⟨h.2, ?_, h.1⟩
      exact (lower_le_iff h.1).mpr ⟨fun p hp => not_lt_start (h.2.1 p hp),
        fun p hp => not_lt_start (h.2.2.1 p hp)⟩
  rw [hrows]
  simp

theorem start_next {page : RefPage} :
    (q.next page).start = lastKey RefInfo.name q.start page.refs := by
  rw [RefListQuery.start, RefListQuery.next, lastKey]
  cases page.refs.getLast? <;> simp [RefListQuery.start]

theorem crawl_eq {snaps : List RefTable} : crawl kind q snaps =
    (Pages.crawl RefInfo.name q.limit q.start (snaps.map (view kind q))).map
      fun p => ⟨p.rows, p.more⟩ := by
  induction snaps generalizing q with
  | nil => rfl
  | cons snap snaps ih =>
    rw [crawl, refList_eq, List.map_cons, Pages.crawl_cons, List.map_cons]
    simp only
    rw [ih, start_next]
    split_ifs <;> rfl

def collected (pages : List RefPage) : List RefInfo := pages.flatMap RefPage.refs

theorem collected_crawl {snaps : List RefTable} : collected (crawl kind q snaps) =
    listed RefInfo.name q.limit q.start (snaps.map (view kind q)) := by
  rw [collected, crawl_eq, List.flatMap_map, listed]

theorem sorted_view : Sorted RefInfo.name (view kind q snap) :=
  List.Pairwise.filter _ sorted_rows

theorem sorted_views {snaps : List RefTable} :
    ∀ rows ∈ snaps.map (view kind q), Sorted RefInfo.name rows := by
  simp [sorted_view]

/-- The pages that a reader is given while the references change: the names increase, so none comes
twice; what is read was there and is what the request is about; every page but the last is full; and
when no more is announced, a name that was there all the time has been read. -/
theorem crawl_listing (kind : RefKind) (q : RefListQuery) (snaps : List RefTable) :
    let pages := crawl kind q snaps
    (collected pages).Pairwise (fun r s => r.name < s.name) ∧
      (∀ r ∈ collected pages, q.start < r.name ∧ ∃ snap ∈ snaps, r ∈ view kind q snap) ∧
        (∀ page ∈ pages, page.refs.length ≤ q.limit ∧ (page.more → page.refs.length = q.limit)) ∧
          ((pages.getLast?.map RefPage.more) = some false → ∀ name, q.start < name →
            (∀ snap ∈ snaps, ∃ r ∈ view kind q snap, r.name = name) →
              ∃ r ∈ collected pages, r.name = name) := by
  intro pages
  have hcollected : collected pages = _ := collected_crawl
  rw [hcollected]
  refine ⟨sorted_listed sorted_views, fun r hr => ⟨lt_of_mem_listed sorted_views hr, ?_⟩, ?_, ?_⟩
  · simpa using mem_of_mem_listed hr
  · intro page hpage
    simp only [pages, crawl_eq, List.mem_map] at hpage
    obtain ⟨p, hp, rfl⟩ := hpage
    exact ⟨length_le hp, length_of_more hp⟩
  · intro hended name hname hall
    apply listed_of_mem limit_pos sorted_views _ hname
    · simpa using hall
    · simpa [pages, crawl_eq, Ended, Function.comp_def] using hended

/-- References that do not change are read in full, in their order, when the requests are enough for
their number. -/
theorem crawl_unchanged (kind : RefKind) (q : RefListQuery) (snap : RefTable) (requests : ℕ)
    (h : ((view kind q snap).filter fun r => q.start < r.name).length ≤ requests * q.limit) :
    collected (crawl kind q (List.replicate requests snap)) =
      (view kind q snap).filter fun r => q.start < r.name := by
  rw [collected_crawl, List.map_replicate]
  exact listed_replicate limit_pos sorted_view h

def threeBranches : RefTable where
  refs := [⟨"refs/collab/x", "9", ""⟩, ⟨"refs/heads/a", "1", ""⟩, ⟨"refs/heads/dev/b", "2", ""⟩,
    ⟨"refs/heads/main", "3", ""⟩, ⟨"refs/tags/v1", "4", "5"⟩]
  sorted := by simp only [Sorted]; decide
  headTarget := "refs/heads/main"

def pairsOf : RefListQuery := ⟨none, none, none, some 2⟩

/-- Two requests of two rows each read the three branches. -/
theorem crawl_unchanged_three :
    collected (crawl .branches pairsOf (List.replicate 2 threeBranches)) =
        [⟨"a", "1"⟩, ⟨"dev/b", "2"⟩, ⟨"main", "3"⟩] ∧
      (crawl .branches pairsOf (List.replicate 2 threeBranches)).map
        (fun page => (page.refs.length, page.more)) = [(2, true), (1, false)] := by
  have hview : (view .branches pairsOf threeBranches).filter (fun r => pairsOf.start < r.name) =
      [⟨"a", "1"⟩, ⟨"dev/b", "2"⟩, ⟨"main", "3"⟩] := by
    decide +kernel
  constructor
  · rw [crawl_unchanged .branches pairsOf threeBranches 2 (by rw [hview]; decide), hview]
  · rw [crawl_eq, List.map_map]
    decide +kernel

end Spec

end Walgit.RefPages
