import Mathlib.Data.List.Lex
import Mathlib.Data.List.Sort
import Mathlib.Data.List.Dedup
import Walgit.Lib.MergeJoin
import Walgit.WebObjects

/-!
# Faulting the difference of two trees

Before a diff is rendered, the trees and blobs that it reads are written to the
local store: two trees are walked together level by level, entries that are the
same are skipped, and what stands on one side only is taken whole. Before an
archive is made, all of a tree is written.
-/

namespace Walgit.Web

open MergeJoin (Agrees join Joined Sorted mem_join)

section Order

/-- What follows the common length of two names; a directory goes on with a slash. -/
def nextByte (a : Bytes) (aTree : Bool) (n : ℕ) : Option UInt8 :=
  a[n]?.or (if aTree then some 47 else none)

/-- git's order of tree entries. -/
def treeCmp (a : Bytes) (aTree : Bool) (b : Bytes) (bTree : Bool) : Ordering :=
  let n := min a.length b.length
  match List.compareLex compare (a.take n) (b.take n) with
  | .eq => compare (nextByte a aTree n) (nextByte b bTree n)
  | o => o

/-- The name by which git sorts an entry: that of a directory ends in a slash. -/
def sortName (a : Bytes) (aTree : Bool) : List ℕ :=
  (a ++ if aTree then [47] else []).map UInt8.toNat

variable {a b : Bytes} {aTree bTree : Bool} {c d : UInt8}

theorem treeCmp_cons : treeCmp (c :: a) aTree (d :: b) bTree =
    match compare c d with
    | .eq => treeCmp a aTree b bTree
    | o => o := by
  have hmin : min (a.length + 1) (b.length + 1) = min a.length b.length + 1 := Nat.succ_min_succ _ _
  rw [treeCmp, List.length_cons, List.length_cons, hmin]
  dsimp only [List.take_succ_cons, nextByte, List.getElem?_cons_succ]
  rw [List.compareLex_cons_cons]
  cases compare c d <;> rfl

theorem sortName_cons : sortName (c :: a) aTree = c.toNat :: sortName a aTree := rfl

theorem agrees_byte (c d : UInt8) : Agrees (compare c d) c.toNat d.toNat := by
  change Agrees (compareOfLessAndEq c d) c.toNat d.toNat
  rw [compareOfLessAndEq]
  split_ifs with hlt heq
  · exact UInt8.lt_iff_toNat_lt.mp hlt
  · exact congrArg UInt8.toNat heq
  · exact lt_of_le_of_ne (UInt8.le_iff_toNat_le.mp (UInt8.not_lt.mp hlt))
      fun h => heq (UInt8.toNat_inj.mp h.symm)

theorem agrees_head {o : Ordering} {k l : List ℕ} {m n : ℕ} (h : Agrees o m n) (hne : o ≠ .eq) :
    Agrees o (m :: k) (n :: l) := by
  cases o with
  | lt => exact List.cons_lt_cons_iff.mpr (.inl h)
  | eq => exact absurd rfl hne
  | gt => exact List.cons_lt_cons_iff.mpr (.inl h)

theorem agrees_tail {o : Ordering} {k l : List ℕ} {n : ℕ} (h : Agrees o k l) :
    Agrees o (n :: k) (n :: l) := by
  cases o with
  | lt => exact List.cons_lt_cons_iff.mpr (.inr ⟨rfl, h⟩)
  | eq => exact congrArg (List.cons n) h
  | gt => exact List.cons_lt_cons_iff.mpr (.inr ⟨rfl, h⟩)

theorem compare_ne_eq (h : c ≠ d) : compare c d ≠ .eq := fun heq =>
  h (Std.LawfulEqOrd.compare_eq_iff_eq.mp heq)

/-- The order of the code is that of the names with the slash. -/
theorem treeCmp_agrees (ha : 47 ∉ a) (hb : 47 ∉ b) :
    Agrees (treeCmp a aTree b bTree) (sortName a aTree) (sortName b bTree) := by
  induction a generalizing b with
  | nil =>
    cases b with
    | nil =>
      cases aTree <;> cases bTree
      · exact rfl
      · exact List.nil_lt_cons 47 []
      · exact List.nil_lt_cons 47 []
      · exact rfl
    | cons d b =>
      have hd : (47 : UInt8) ≠ d := fun h => hb (h ▸ List.mem_cons_self)
      cases aTree with
      | false => exact List.nil_lt_cons _ _
      | true => exact agrees_head (agrees_byte 47 d) (compare_ne_eq hd)
  | cons c a ih =>
    cases b with
    | nil =>
      have hc : c ≠ (47 : UInt8) := fun h => ha (h ▸ List.mem_cons_self)
      cases bTree with
      | false => exact List.nil_lt_cons _ _
      | true => exact agrees_head (agrees_byte c 47) (compare_ne_eq hc)
    | cons d b =>
      have hrest := ih (fun h => ha (List.mem_cons_of_mem c h)) fun h =>
        hb (List.mem_cons_of_mem d h)
      have hbyte := agrees_byte c d
      rw [treeCmp_cons, sortName_cons, sortName_cons]
      split
      · next heq =>
        rw [heq] at hbyte
        rw [show c.toNat = d.toNat from hbyte]
        exact agrees_tail hrest
      · next hne => exact agrees_head hbyte hne

end Order

variable {O : Type} [LinearOrder O]

section Pairs

/-- `sort_unstable` and `dedup`. -/
def sortDedup (oids : List O) : List O := (oids.insertionSort (· ≤ ·)).dedup

/-- What a level of the walk leads to: `stack` and `blobs`. -/
structure Level (O : Type) where
  stack : List (Option O × Option O)
  blobs : List O

def Level.dirs (lv : Level O) (a b : Option O) : Level O :=
  { lv with stack := lv.stack ++ [(a, b)] }

def Level.file (lv : Level O) (e : TreeEntryRef O) : Level O :=
  if e.mode.isBlobOrSymlink then { lv with blobs := lv.blobs ++ [e.oid] } else lv

/-- Entries that stand in the same place. -/
def visitBoth (lv : Level O) (x y : TreeEntryRef O) : Level O :=
  if x.oid = y.oid ∧ x.mode = y.mode then lv
  else
    match x.mode.isTree, y.mode.isTree with
    | true, true => lv.dirs (some x.oid) (some y.oid)
    | true, false => (lv.dirs (some x.oid) none).file y
    | false, true => (lv.dirs none (some y.oid)).file x
    | false, false => if y.oid ≠ x.oid then (lv.file x).file y else lv.file x

/-- The body of the merge walk. -/
def visit (lv : Level O) : Option (TreeEntryRef O) × Option (TreeEntryRef O) → Level O
  | (some x, some y) => visitBoth lv x y
  | (some x, none) => if x.mode.isTree then lv.dirs (some x.oid) none else lv.file x
  | (none, some y) => if y.mode.isTree then lv.dirs none (some y.oid) else lv.file y
  | (none, none) => lv

def mergeWalk (ea eb : List (TreeEntryRef O)) (lv : Level O) : Level O :=
  let cmp := fun x y : TreeEntryRef O => treeCmp x.name x.mode.isTree y.name y.mode.isTree
  (join cmp (ea.length + eb.length) ea eb).foldl visit lv

variable (R : Remote O)

/-- No tree is the empty one. -/
def entriesOf : Option O → Except (ApiError O) (List (TreeEntryRef O))
  | some t => R.treeEntries t
  | none => .ok []

def walkLevel (level : List (Option O × Option O)) : Except (ApiError O) (Level O) :=
  level.foldlM (fun lv p => do
    let ea ← entriesOf R p.1
    let eb ← entriesOf R p.2
    .ok (mergeWalk ea eb lv)) ⟨[], []⟩

def rootsOf (p : Option O × Option O) : List O := p.1.toList ++ p.2.toList

/-- One round of the loop: the trees of a level, then the blobs they lead to. -/
def faultLevel (budget : ℕ) (stack : List (Option O × Option O)) (count : ℕ) (st : LocalStore O) :
    Except (ApiError O) (List (Option O × Option O) × ℕ × LocalStore O) := do
  let want := sortDedup (stack.flatMap rootsOf)
  let count := count + want.length
  if budget < count then .error (.diffTooLarge budget)
  else
    let st ← R.faultMany want st
    let lv ← walkLevel R stack
    let blobs := sortDedup lv.blobs
    let count := count + blobs.length
    if budget < count then .error (.diffTooLarge budget)
    else
      let st ← R.faultMany blobs st
      .ok (lv.stack, count, st)

/-- The loop, for at most as many rounds as it is given. -/
def pairsLoop (budget : ℕ) : ℕ → List (Option O × Option O) → ℕ → LocalStore O →
    Option (Except (ApiError O) (LocalStore O))
  | 0, _, _, _ => none
  | n + 1, stack, count, st =>
    if stack = [] then some (R.refreshLocal st)
    else
      match faultLevel R budget stack count st with
      | .error e => some (.error e)
      | .ok (stack, count, st) => pairsLoop budget n stack count st

def faultTreePairs (budget : ℕ) (stack : List (Option O × Option O)) (st : LocalStore O) :
    Option (Except (ApiError O) (LocalStore O)) :=
  pairsLoop R budget (budget + 3) stack 0 st

end Pairs

section Archive

/-- The trees and blobs that a level leads to, and all that was met so far. -/
structure Found (O : Type) where
  next : List O
  blobs : List O
  seen : Finset O

def Found.meet (f : Found O) (e : TreeEntryRef O) : Found O :=
  if e.mode.isTree then
    if e.oid ∈ f.seen then f
    else { f with next := f.next ++ [e.oid], seen := insert e.oid f.seen }
  else if e.mode.isBlobOrSymlink ∧ e.oid ∉ f.seen then
    { f with blobs := f.blobs ++ [e.oid], seen := insert e.oid f.seen }
  else f

variable (R : Remote O)

def readFrontier (frontier : List O) (f : Found O) : Except (ApiError O) (Found O) :=
  frontier.foldlM (fun f t => do
    let es ← R.treeEntries t
    .ok (es.foldl Found.meet f)) f

/-- One round of the loop: the trees of a level, then the blobs they lead to. -/
def archiveLevel (sha : String) (budget : ℕ) (frontier : List O) (seen : Finset O) (count : ℕ)
    (st : LocalStore O) : Except (ApiError O) (List O × Finset O × ℕ × LocalStore O) := do
  let count := count + frontier.length
  if budget < count then .error (.archiveTooLarge sha budget)
  else
    let st ← R.faultMany frontier st
    let f ← readFrontier R frontier ⟨[], [], seen⟩
    let count := count + f.blobs.length
    if budget < count then .error (.archiveTooLarge sha budget)
    else
      let st ← R.faultMany f.blobs st
      .ok (f.next, f.seen, count, st)

/-- The loop, for at most as many rounds as it is given. -/
def archiveLoop (sha : String) (budget : ℕ) :
    ℕ → List O → Finset O → ℕ → LocalStore O → Option (Except (ApiError O) (LocalStore O))
  | 0, _, _, _, _ => none
  | n + 1, frontier, seen, count, st =>
    if frontier = [] then some (R.refreshLocal st)
    else
      match archiveLevel R sha budget frontier seen count st with
      | .error e => some (.error e)
      | .ok (frontier, seen, count, st) => archiveLoop sha budget n frontier seen count st

/-- The commit that is archived, read and written to the local store. -/
def archiveStart (sha : String) (st : LocalStore O) :
    Except (ApiError O) (CommitMeta O × LocalStore O) := do
  let start ← R.hexId sha
  let c ← R.commit start
  let st ← R.fault start st
  .ok (c, st)

def faultTreeAll (budget : ℕ) (sha : String) (st : LocalStore O) :
    Option (Except (ApiError O) (LocalStore O)) :=
  match archiveStart R sha st with
  | .error e => some (.error e)
  | .ok (c, st) => archiveLoop R sha budget (budget + 2) [c.tree] {c.tree} 0 st

end Archive

section Spec

/-- An entry of an object that is not in another repository. -/
def TreeEntryRef.Counts (e : TreeEntryRef O) : Prop :=
  e.mode.isTree = true ∨ e.mode.isBlobOrSymlink = true

def sortKey (e : TreeEntryRef O) : List ℕ := sortName e.name e.mode.isTree

/-- The entries are in git's order, and no name has a slash. -/
structure WellFormed (es : List (TreeEntryRef O)) : Prop where
  sorted : Sorted sortKey es
  plain : ∀ e ∈ es, 47 ∉ e.name

variable (R : Remote O)

/-- The trees of a repository: each is well formed, and the entry of a file names no tree. -/
structure Graph : Prop where
  wellFormed : ∀ t es, R.treeEntries t = .ok es → WellFormed es
  kinded : ∀ t es, R.treeEntries t = .ok es →
    ∀ e ∈ es, e.mode.isBlobOrSymlink = true → ∀ es', R.treeEntries e.oid ≠ .ok es'

/-- The entry stands at the path of the tree. -/
def At : Option O → List Bytes → TreeEntryRef O → Prop
  | _, [], _ => False
  | t, [n], e => ∃ es, entriesOf R t = .ok es ∧ e ∈ es ∧ e.name = n
  | t, n :: m :: p, e => ∃ es, entriesOf R t = .ok es ∧ ∃ d ∈ es, d.name = n ∧
      d.mode.isTree = true ∧ At (some d.oid) (m :: p) e

/-- The tree, or a tree or blob at a path of it. -/
def Below (t o : O) : Prop := o = t ∨ ∃ p e, e.Counts ∧ e.oid = o ∧ At R (some t) p e

/-- The two trees differ at the path in the entry. -/
def DiffersAt (a b : Option O) (p : List Bytes) (e : TreeEntryRef O) : Prop :=
  (At R a p e ∧ ¬ At R b p e) ∨ (At R b p e ∧ ¬ At R a p e)

/-- The first tree has a submodule at the path, with the id of the entry. -/
def Shadowed (a : Option O) (p : List Bytes) (e : TreeEntryRef O) : Prop :=
  e.mode.isTree = false ∧ ∃ x, At R a p x ∧ ¬ x.Counts ∧ x.oid = e.oid

/-- A root, or a tree or blob at a path at which the trees differ. -/
def Needed (q : Option O × Option O) (o : O) : Prop :=
  o ∈ rootsOf q ∨ ∃ p e, e.Counts ∧ e.oid = o ∧ DiffersAt R q.1 q.2 p e

/-- The entry makes a difference, and it is not one of the second tree that is shadowed. -/
def Taken (q : Option O × Option O) (p : List Bytes) (e : TreeEntryRef O) : Prop :=
  (At R q.1 p e ∧ ¬ At R q.2 p e) ∨ (At R q.2 p e ∧ ¬ At R q.1 p e ∧ ¬ Shadowed R q.1 p e)

/-- A root, or what is taken at some path. -/
def Reached (q : Option O × Option O) (o : O) : Prop :=
  o ∈ rootsOf q ∨ ∃ p e, e.Counts ∧ e.oid = o ∧ Taken R q p e

/-- What the first trees hide behind submodules is stored before, or reached elsewhere. -/
def ShadowsMet (stack : List (Option O × Option O)) (st : LocalStore O) : Prop :=
  ∀ q ∈ stack, ∀ p e, e.Counts → At R q.2 p e → ¬ At R q.1 p e → Shadowed R q.1 p e →
    e.oid ∈ st.stored ∨ ∃ q' ∈ stack, Reached R q' e.oid

end Spec

variable {R : Remote O} {o : O} {q : Option O × Option O} {x y e : TreeEntryRef O}
  {ea eb es : List (TreeEntryRef O)} {lv : Level O}
  {j : Option (TreeEntryRef O) × Option (TreeEntryRef O)}

section Visits

omit [LinearOrder O]

def fileIds (e : TreeEntryRef O) : List O := if e.mode.isBlobOrSymlink then [e.oid] else []

theorem file_eq (lv : Level O) (e : TreeEntryRef O) :
    lv.file e = ⟨lv.stack, lv.blobs ++ fileIds e⟩ := by
  rw [Level.file, fileIds]
  split_ifs
  · rfl
  · rw [List.append_nil]

theorem mem_fileIds : o ∈ fileIds e ↔ e.mode.isBlobOrSymlink = true ∧ o = e.oid := by
  rw [fileIds]
  split_ifs with hblob
  · rw [List.mem_singleton, and_iff_right hblob]
  · exact iff_of_false List.not_mem_nil fun h => hblob h.1

end Visits

section Joins

def dirsOf : Option (TreeEntryRef O) × Option (TreeEntryRef O) → List (Option O × Option O)
  | (some x, some y) =>
    if (x.oid = y.oid ∧ x.mode = y.mode) ∨ x.mode.isTree = false then []
    else [(some x.oid, some y.oid)]
  | (some x, none) => if x.mode.isTree then [(some x.oid, none)] else []
  | (none, some y) => if y.mode.isTree then [(none, some y.oid)] else []
  | (none, none) => []

def filesOf : Option (TreeEntryRef O) × Option (TreeEntryRef O) → List O
  | (some x, some y) =>
    if (x.oid = y.oid ∧ x.mode = y.mode) ∨ x.mode.isTree = true then []
    else if y.oid ≠ x.oid then fileIds x ++ fileIds y
    else fileIds x
  | (some x, none) => fileIds x
  | (none, some y) => fileIds y
  | (none, none) => []

/-- Joined entries are both directories or both not. -/
def SameKind : Option (TreeEntryRef O) × Option (TreeEntryRef O) → Prop
  | (some x, some y) => x.name = y.name ∧ x.mode.isTree = y.mode.isTree
  | _ => True

omit [LinearOrder O] in
theorem fileIds_of_tree (h : e.mode.isTree = true) : fileIds e = [] := by
  rw [fileIds, EntryMode.not_blob_of_isTree h]
  rfl

theorem visit_eq (h : SameKind j) :
    visit lv j = ⟨lv.stack ++ dirsOf j, lv.blobs ++ filesOf j⟩ := by
  rcases j with ⟨_ | x, _ | y⟩
  · simp [visit, dirsOf, filesOf]
  · simp only [visit, dirsOf, filesOf]
    split_ifs with htree
    · rw [fileIds_of_tree htree, List.append_nil, Level.dirs]
    · rw [file_eq, List.append_nil]
  · simp only [visit, dirsOf, filesOf]
    split_ifs with htree
    · rw [fileIds_of_tree htree, List.append_nil, Level.dirs]
    · rw [file_eq, List.append_nil]
  · simp only [visit, visitBoth, dirsOf, filesOf, ← h.2]
    by_cases hsame : x.oid = y.oid ∧ x.mode = y.mode
    · simp [hsame]
    · cases htree : x.mode.isTree
      · have hskip : ¬ ((x.oid = y.oid ∧ x.mode = y.mode) ∨ false = true) :=
          fun h => h.elim hsame Bool.false_ne_true
        have hfile : (x.oid = y.oid ∧ x.mode = y.mode) ∨ false = false := .inr rfl
        rw [if_neg hsame, if_neg hskip, if_pos hfile, file_eq lv x, file_eq ⟨lv.stack, _⟩ y]
        split_ifs <;> simp
      · simp [hsame, Level.dirs]

theorem foldl_visit {js : List (Option (TreeEntryRef O) × Option (TreeEntryRef O))}
    (h : ∀ j ∈ js, SameKind j) :
    js.foldl visit lv = ⟨lv.stack ++ js.flatMap dirsOf, lv.blobs ++ js.flatMap filesOf⟩ := by
  induction js generalizing lv with
  | nil => simp
  | cons j js ih =>
    rw [List.forall_mem_cons] at h
    rw [List.foldl_cons, visit_eq h.1, ih h.2]
    simp

omit [LinearOrder O] in
/-- Names without a slash are sorted apart, but for a name and itself. -/
theorem sortKey_inj (hx : 47 ∉ x.name) (hy : 47 ∉ y.name) (h : sortKey x = sortKey y) :
    x.name = y.name ∧ x.mode.isTree = y.mode.isTree := by
  have hbytes := List.map_injective_iff.mpr (fun _ _ => UInt8.toNat_inj.mp) h
  cases hxt : x.mode.isTree <;> cases hyt : y.mode.isTree <;>
    simp only [hxt, hyt, if_true, Bool.false_eq_true, if_false, List.append_nil] at hbytes
  · exact ⟨hbytes, rfl⟩
  · exact absurd (hbytes ▸ List.mem_append_right _ (List.mem_singleton_self _)) hx
  · exact absurd (hbytes ▸ List.mem_append_right _ (List.mem_singleton_self _)) hy
  · exact ⟨List.append_cancel_right hbytes, rfl⟩

omit [LinearOrder O] in
theorem sortKey_congr (hname : x.name = y.name) (htree : x.mode.isTree = y.mode.isTree) :
    sortKey x = sortKey y := by rw [sortKey, sortKey, hname, htree]

omit [LinearOrder O] in
theorem tree_of_not_counts (h : ¬ e.Counts) : e.mode.isTree = false :=
  Bool.eq_false_iff.mpr fun htree => h (.inl htree)

omit [LinearOrder O] in
theorem sortKey_eq_iff (ha : WellFormed ea) (hb : WellFormed eb) (hx : x ∈ ea) (hy : y ∈ eb) :
    sortKey x = sortKey y ↔ x.name = y.name ∧ x.mode.isTree = y.mode.isTree :=
  ⟨sortKey_inj (ha.plain x hx) (hb.plain y hy), fun h => sortKey_congr h.1 h.2⟩

omit [LinearOrder O] in
theorem WellFormed.eq (h : WellFormed es) (hx : x ∈ es) (hy : y ∈ es)
    (hname : x.name = y.name) (htree : x.mode.isTree = y.mode.isTree) : x = y := by
  have hnodup : (es.map sortKey).Nodup := List.pairwise_map.mpr (h.sorted.imp ne_of_lt)
  exact List.inj_on_of_nodup_map hnodup hx hy (sortKey_congr hname htree)

theorem mem_mergeWalk (lv : Level O) (ha : WellFormed ea) (hb : WellFormed eb) :
    (∀ q, q ∈ (mergeWalk ea eb lv).stack ↔
      q ∈ lv.stack ∨ ∃ j, Joined sortKey ea eb j ∧ q ∈ dirsOf j) ∧
    ∀ o, o ∈ (mergeWalk ea eb lv).blobs ↔
      o ∈ lv.blobs ∨ ∃ j, Joined sortKey ea eb j ∧ o ∈ filesOf j := by
  have hcmp : ∀ x ∈ ea, ∀ y ∈ eb,
      Agrees (treeCmp x.name x.mode.isTree y.name y.mode.isTree) (sortKey x) (sortKey y) :=
    fun x hx y hy => treeCmp_agrees (ha.plain x hx) (hb.plain y hy)
  have hjoin := fun j => mem_join (p := j) ha.sorted hb.sorted hcmp le_rfl
  have hkind : ∀ j ∈ join (fun x y : TreeEntryRef O => treeCmp x.name x.mode.isTree y.name
      y.mode.isTree) (ea.length + eb.length) ea eb, SameKind j := by
    intro j hj
    have hj := (hjoin j).mp hj
    rcases j with ⟨_ | x, _ | y⟩
    · trivial
    · trivial
    · trivial
    · exact (sortKey_eq_iff ha hb hj.1 hj.2.1).mp hj.2.2
  rw [mergeWalk, foldl_visit hkind]
  simp only [List.mem_append, List.mem_flatMap, hjoin, implies_true, and_self]

end Joins

section Paths

variable {a b : Option O} {n m : Bytes} {p : List Bytes}

omit [LinearOrder O]

theorem at_name (ha : entriesOf R a = .ok ea) : At R a [n] e ↔ e ∈ ea ∧ e.name = n := by
  rw [At]
  refine ⟨fun ⟨es, hes, he⟩ => ?_, fun he => ⟨ea, ha, he⟩⟩
  obtain rfl := Except.ok.inj (ha.symm.trans hes)
  exact he

theorem at_below (ha : entriesOf R a = .ok ea) : At R a (n :: m :: p) e ↔
    ∃ d ∈ ea, d.name = n ∧ d.mode.isTree = true ∧ At R (some d.oid) (m :: p) e := by
  rw [At]
  refine ⟨fun ⟨es, hes, he⟩ => ?_, fun he => ⟨ea, ha, he⟩⟩
  obtain rfl := Except.ok.inj (ha.symm.trans hes)
  exact he

theorem not_at_none : ¬ At R none p e := by
  match p with
  | [] => exact id
  | [n] =>
    rintro ⟨es, hes, he, -⟩
    cases hes
    cases he
  | n :: m :: p =>
    rintro ⟨es, hes, d, hd, -⟩
    cases hes
    cases hd

end Paths

section Levels

variable {a b : Option O} {n m : Bytes} {p : List Bytes}

omit [LinearOrder O] in
theorem joined_left_or (hx : x ∈ ea) : (∃ y, sortKey x = sortKey y ∧
    Joined sortKey ea eb (some x, some y)) ∨ Joined sortKey ea eb (some x, none) := by
  by_cases h : ∃ y ∈ eb, sortKey x = sortKey y
  · obtain ⟨y, hy, heq⟩ := h
    exact .inl ⟨y, heq, hx, hy, heq⟩
  · exact .inr ⟨hx, fun y hy heq => h ⟨y, hy, heq⟩⟩

omit [LinearOrder O] in
theorem joined_right_or (hy : y ∈ eb) : (∃ x, sortKey x = sortKey y ∧
    Joined sortKey ea eb (some x, some y)) ∨ Joined sortKey ea eb (none, some y) := by
  by_cases h : ∃ x ∈ ea, sortKey x = sortKey y
  · obtain ⟨x, hx, heq⟩ := h
    exact .inl ⟨x, heq, hx, hy, heq⟩
  · exact .inr ⟨hy, fun x hx heq => h ⟨x, hx, heq⟩⟩

omit [LinearOrder O] in
theorem not_same (hname : x.name = y.name) (hne : x ≠ y) : ¬ (x.oid = y.oid ∧ x.mode = y.mode) := by
  rintro ⟨hoid, hmode⟩
  cases x
  cases y
  exact hne (by simp_all)

/-- Where joined entries lead to: to blobs of this level, or to roots of the next. -/
def LeadsTo (j : Option (TreeEntryRef O) × Option (TreeEntryRef O)) (o : O) : Prop :=
  o ∈ filesOf j ∨ ∃ q ∈ dirsOf j, o ∈ rootsOf q

theorem leads_left : LeadsTo (some x, none) o ↔ x.Counts ∧ o = x.oid := by
  cases htree : x.mode.isTree with
  | true =>
    have hnot := EntryMode.not_blob_of_isTree htree
    simp [LeadsTo, dirsOf, filesOf, rootsOf, TreeEntryRef.Counts, htree, mem_fileIds, hnot, eq_comm]
  | false => simp [LeadsTo, dirsOf, filesOf, TreeEntryRef.Counts, htree, mem_fileIds]

theorem leads_right : LeadsTo (none, some y) o ↔ y.Counts ∧ o = y.oid := by
  cases htree : y.mode.isTree with
  | true =>
    have hnot := EntryMode.not_blob_of_isTree htree
    simp [LeadsTo, dirsOf, filesOf, rootsOf, TreeEntryRef.Counts, htree, mem_fileIds, hnot, eq_comm]
  | false => simp [LeadsTo, dirsOf, filesOf, TreeEntryRef.Counts, htree, mem_fileIds]

theorem leads_same (h : x.oid = y.oid ∧ x.mode = y.mode) : ¬ LeadsTo (some x, some y) o := by
  simp [LeadsTo, dirsOf, filesOf, h]

/-- Of two entries that differ each leads to itself, but for a file behind a submodule of its
id. -/
theorem leads_both (hkind : x.mode.isTree = y.mode.isTree)
    (hsame : ¬ (x.oid = y.oid ∧ x.mode = y.mode)) : LeadsTo (some x, some y) o ↔
      (x.Counts ∧ o = x.oid) ∨
        (y.Counts ∧ o = y.oid ∧ ¬ (y.mode.isTree = false ∧ ¬ x.Counts ∧ x.oid = y.oid)) := by
  cases htree : x.mode.isTree with
  | true =>
    have htree' := hkind.symm.trans htree
    simp [LeadsTo, dirsOf, filesOf, rootsOf, TreeEntryRef.Counts, htree, htree', hsame,
      @eq_comm O x.oid o, @eq_comm O y.oid o]
  | false =>
    have htree' := hkind.symm.trans htree
    by_cases hoid : y.oid = x.oid
    · have hmode : x.mode ≠ y.mode := fun h => hsame ⟨hoid.symm, h⟩
      simp [LeadsTo, dirsOf, filesOf, TreeEntryRef.Counts, htree, htree', hmode, hoid, mem_fileIds]
      tauto
    · simp [LeadsTo, dirsOf, filesOf, TreeEntryRef.Counts, htree, htree', hoid, mem_fileIds,
        Ne.symm hoid]

theorem leads_iff (ha : entriesOf R a = .ok ea) (hb : entriesOf R b = .ok eb)
    (hwa : WellFormed ea) (hwb : WellFormed eb) : (∃ j, Joined sortKey ea eb j ∧ LeadsTo j o) ↔
      ∃ n e, e.Counts ∧ e.oid = o ∧ Taken R (a, b) [n] e := by
  have htaken : ∀ n e, Taken R (a, b) [n] e ↔ ((e ∈ ea ∧ e.name = n) ∧ ¬ (e ∈ eb ∧ e.name = n)) ∨
      ((e ∈ eb ∧ e.name = n) ∧ ¬ (e ∈ ea ∧ e.name = n) ∧
        ¬ (e.mode.isTree = false ∧ ∃ x, (x ∈ ea ∧ x.name = n) ∧ ¬ x.Counts ∧ x.oid = e.oid)) := by
    intro n e
    simp only [Taken, Shadowed, at_name ha, at_name hb]
  simp only [htaken]
  constructor
  · rintro ⟨⟨_ | x, _ | y⟩, hj, hl⟩
    · exact hj.elim
    · obtain ⟨hc, rfl⟩ := leads_right.mp hl
      refine ⟨y.name, y, hc, rfl, .inr ⟨⟨hj.1, rfl⟩, fun h => hj.2 y h.1 rfl, ?_⟩⟩
      rintro ⟨htree, x, ⟨hx, hname⟩, hnot, -⟩
      exact hj.2 x hx (sortKey_congr hname ((tree_of_not_counts hnot).trans htree.symm))
    · obtain ⟨hc, rfl⟩ := leads_left.mp hl
      exact ⟨x.name, x, hc, rfl, .inl ⟨⟨hj.1, rfl⟩, fun h => hj.2 x h.1 rfl⟩⟩
    · obtain ⟨hx, hy, hkey⟩ := hj
      obtain ⟨hname, htree⟩ := (sortKey_eq_iff hwa hwb hx hy).mp hkey
      have hsame : ¬ (x.oid = y.oid ∧ x.mode = y.mode) := fun h => leads_same h hl
      have hne : x ≠ y := fun h => hsame (h ▸ ⟨rfl, rfl⟩)
      rcases (leads_both htree hsame).mp hl with ⟨hc, rfl⟩ | ⟨hc, rfl, hnot⟩
      · exact ⟨x.name, x, hc, rfl, .inl ⟨⟨hx, rfl⟩, fun h => hne (hwb.eq h.1 hy hname htree)⟩⟩
      · refine ⟨y.name, y, hc, rfl, .inr ⟨⟨hy, rfl⟩, fun h => hne (hwa.eq hx h.1 hname htree), ?_⟩⟩
        rintro ⟨hfile, x', ⟨hx', hname'⟩, hsub, hoid⟩
        have htree' := (tree_of_not_counts hsub).trans (hfile.symm.trans htree.symm)
        obtain rfl := hwa.eq hx' hx (hname'.trans hname.symm) htree'
        exact hnot ⟨hfile, hsub, hoid⟩
  · rintro ⟨n, e, hc, rfl, ⟨⟨he, hname⟩, hout⟩ | ⟨⟨he, hname⟩, hout, hshadow⟩⟩
    · rcases joined_left_or he with ⟨y, hkey, hj⟩ | hj
      · obtain ⟨hname', htree⟩ := (sortKey_eq_iff hwa hwb he hj.2.1).mp hkey
        have hne : e ≠ y := fun h => hout ⟨h ▸ hj.2.1, hname⟩
        exact ⟨_, hj, (leads_both htree (not_same hname' hne)).mpr (.inl ⟨hc, rfl⟩)⟩
      · exact ⟨_, hj, leads_left.mpr ⟨hc, rfl⟩⟩
    · rcases joined_right_or he with ⟨x, hkey, hj⟩ | hj
      · obtain ⟨hname', htree⟩ := (sortKey_eq_iff hwa hwb hj.1 he).mp hkey
        have hne : x ≠ e := fun h => hout ⟨h ▸ hj.1, hname⟩
        refine ⟨_, hj, (leads_both htree (not_same hname' hne)).mpr (.inr ⟨hc, rfl, ?_⟩)⟩
        rintro ⟨hfile, hsub, hoid⟩
        exact hshadow ⟨hfile, x, ⟨hj.1, hname'.trans hname⟩, hsub, hoid⟩
      · exact ⟨_, hj, leads_right.mpr ⟨hc, rfl⟩⟩

omit [LinearOrder O] in
theorem at_dir (ha : entriesOf R a = .ok ea) (hwa : WellFormed ea) (hx : x ∈ ea)
    (htree : x.mode.isTree = true) :
    At R a (x.name :: m :: p) e ↔ At R (some x.oid) (m :: p) e := by
  rw [at_below ha]
  refine ⟨?_, fun h => ⟨x, hx, rfl, htree, h⟩⟩
  rintro ⟨d, hd, hname, hdtree, h⟩
  rwa [hwa.eq hd hx hname (hdtree.trans htree.symm)] at h

omit [LinearOrder O] in
theorem not_at_dir (ha : entriesOf R a = .ok ea) (htree : y.mode.isTree = true)
    (hnone : ∀ x ∈ ea, sortKey x ≠ sortKey y) : ¬ At R a (y.name :: m :: p) e := by
  rw [at_below ha]
  rintro ⟨d, hd, hname, hdtree, -⟩
  exact hnone d hd (sortKey_congr hname (hdtree.trans htree.symm))

omit [LinearOrder O] in
theorem shadowed_congr {a' : Option O} {p' : List Bytes} (h : ∀ x, At R a p x ↔ At R a' p' x) :
    Shadowed R a p e ↔ Shadowed R a' p' e := by
  simp only [Shadowed, h]

omit [LinearOrder O] in
theorem taken_congr {a' b' : Option O} {p' : List Bytes} (ha : ∀ x, At R a p x ↔ At R a' p' x)
    (hb : ∀ x, At R b p x ↔ At R b' p' x) : Taken R (a, b) p e ↔ Taken R (a', b') p' e := by
  simp only [Taken, ha, hb, shadowed_congr ha]

omit [LinearOrder O] in
theorem not_taken_same : ¬ Taken R (a, a) p e := by
  rintro (⟨h, hnot⟩ | ⟨h, hnot, -⟩)
  · exact hnot h
  · exact hnot h

omit [LinearOrder O] in
theorem taken_both (ha : entriesOf R a = .ok ea) (hb : entriesOf R b = .ok eb)
    (hwa : WellFormed ea) (hwb : WellFormed eb) (hj : Joined sortKey ea eb (some x, some y))
    (htree : x.mode.isTree = true) :
    Taken R (a, b) (x.name :: m :: p) e ↔ Taken R (some x.oid, some y.oid) (m :: p) e := by
  obtain ⟨hname, hkind⟩ := (sortKey_eq_iff hwa hwb hj.1 hj.2.1).mp hj.2.2
  refine taken_congr (fun z => at_dir ha hwa hj.1 htree) fun z => ?_
  rw [hname]
  exact at_dir hb hwb hj.2.1 (hkind.symm.trans htree)

omit [LinearOrder O] in
theorem taken_left (ha : entriesOf R a = .ok ea) (hb : entriesOf R b = .ok eb)
    (hwa : WellFormed ea) (hj : Joined sortKey ea eb (some x, none))
    (htree : x.mode.isTree = true) :
    Taken R (a, b) (x.name :: m :: p) e ↔ Taken R (some x.oid, none) (m :: p) e := by
  refine taken_congr (fun z => at_dir ha hwa hj.1 htree) fun z => ?_
  exact iff_of_false (not_at_dir hb htree fun y hy h => hj.2 y hy h.symm) not_at_none

omit [LinearOrder O] in
theorem taken_right (ha : entriesOf R a = .ok ea) (hb : entriesOf R b = .ok eb)
    (hwb : WellFormed eb) (hj : Joined sortKey ea eb (none, some y))
    (htree : y.mode.isTree = true) :
    Taken R (a, b) (y.name :: m :: p) e ↔ Taken R (none, some y.oid) (m :: p) e := by
  refine taken_congr (fun z => ?_) fun z => at_dir hb hwb hj.1 htree
  exact iff_of_false (not_at_dir ha htree hj.2) not_at_none

theorem taken_below (ha : entriesOf R a = .ok ea) (hb : entriesOf R b = .ok eb)
    (hwa : WellFormed ea) (hwb : WellFormed eb) : (∃ n, Taken R (a, b) (n :: m :: p) e) ↔
      ∃ j, Joined sortKey ea eb j ∧ ∃ q ∈ dirsOf j, Taken R q (m :: p) e := by
  have hboth : ∀ {x y}, Joined sortKey ea eb (some x, some y) → x.mode.isTree = true →
      Taken R (a, b) (x.name :: m :: p) e →
      ∃ q ∈ dirsOf (some x, some y), Taken R q (m :: p) e := by
    intro x y hj htree ht
    rw [taken_both ha hb hwa hwb hj htree] at ht
    have hsame : ¬ (x.oid = y.oid ∧ x.mode = y.mode) := fun h => not_taken_same (h.1 ▸ ht)
    exact ⟨_, by simp [dirsOf, htree, hsame], ht⟩
  constructor
  · rintro ⟨n, ht⟩
    rcases id ht with ⟨hin, -⟩ | ⟨hin, -, -⟩
    · obtain ⟨d, hd, rfl, htree, -⟩ := (at_below ha).mp hin
      rcases joined_left_or hd with ⟨y, -, hj⟩ | hj
      · exact ⟨_, hj, hboth hj htree ht⟩
      · refine ⟨_, hj, (some d.oid, none), ?_, (taken_left ha hb hwa hj htree).mp ht⟩
        rw [dirsOf, if_pos htree]
        exact List.mem_singleton_self _
    · obtain ⟨d, hd, rfl, htree, -⟩ := (at_below hb).mp hin
      rcases joined_right_or hd with ⟨x, hkey, hj⟩ | hj
      · obtain ⟨hname, hkind⟩ := (sortKey_eq_iff hwa hwb hj.1 hd).mp hkey
        exact ⟨_, hj, hboth hj (hkind.trans htree) (hname ▸ ht)⟩
      · refine ⟨_, hj, (none, some d.oid), ?_, (taken_right ha hb hwb hj htree).mp ht⟩
        rw [dirsOf, if_pos htree]
        exact List.mem_singleton_self _
  · rintro ⟨⟨_ | x, _ | y⟩, hj, q, hq, ht⟩
    · exact hj.elim
    · rw [dirsOf] at hq
      split_ifs at hq with htree
      · obtain rfl := List.mem_singleton.mp hq
        exact ⟨y.name, (taken_right ha hb hwb hj htree).mpr ht⟩
      · cases hq
    · rw [dirsOf] at hq
      split_ifs at hq with htree
      · obtain rfl := List.mem_singleton.mp hq
        exact ⟨x.name, (taken_left ha hb hwa hj htree).mpr ht⟩
      · cases hq
    · rw [dirsOf] at hq
      split_ifs at hq with hsame
      · cases hq
      · obtain rfl := List.mem_singleton.mp hq
        rw [not_or, Bool.not_eq_false] at hsame
        exact ⟨x.name, (taken_both ha hb hwa hwb hj hsame.2).mpr ht⟩

end Levels

section Runs

/-- The trees of a pair are read and joined. -/
def JoinedOf (R : Remote O) (q : Option O × Option O)
    (j : Option (TreeEntryRef O) × Option (TreeEntryRef O)) : Prop :=
  ∃ ea eb, entriesOf R q.1 = .ok ea ∧ entriesOf R q.2 = .ok eb ∧ Joined sortKey ea eb j

variable {stack stack' level : List (Option O × Option O)} {st st' : LocalStore O}
  {budget count count' n : ℕ} {lv' : Level O} {t : Option O} {oids : List O}

omit [LinearOrder O] in
theorem wellFormed_entries (hR : Graph R)
    (h : entriesOf R t = .ok es) : WellFormed es := by
  cases t with
  | none =>
    cases h
    exact ⟨.nil, fun _ h => nomatch h⟩
  | some t => exact hR.wellFormed t es h

omit [LinearOrder O] in
theorem joinedOf_iff (ha : entriesOf R q.1 = .ok ea) (hb : entriesOf R q.2 = .ok eb) :
    JoinedOf R q j ↔ Joined sortKey ea eb j := by
  refine ⟨fun ⟨ea', eb', ha', hb', hj⟩ => ?_, fun hj => ⟨ea, eb, ha, hb, hj⟩⟩
  obtain rfl := Except.ok.inj (ha.symm.trans ha')
  obtain rfl := Except.ok.inj (hb.symm.trans hb')
  exact hj

theorem reached_iff (hR : Graph R)
    (ha : entriesOf R q.1 = .ok ea) (hb : entriesOf R q.2 = .ok eb) : Reached R q o ↔
      o ∈ rootsOf q ∨ ∃ j, JoinedOf R q j ∧ (o ∈ filesOf j ∨ ∃ q' ∈ dirsOf j, Reached R q' o) := by
  have hwa := wellFormed_entries hR ha
  have hwb := wellFormed_entries hR hb
  simp only [joinedOf_iff ha hb]
  refine or_congr_right ⟨?_, ?_⟩
  · rintro ⟨p, e, hc, heq, ht⟩
    match p with
    | [] => exact (ht.elim (fun h => h.1) fun h => h.1).elim
    | [n] =>
      obtain ⟨j, hj, hlead⟩ := (leads_iff ha hb hwa hwb).mpr ⟨n, e, hc, heq, ht⟩
      exact ⟨j, hj, hlead.imp_right fun ⟨q', hq', ho⟩ => ⟨q', hq', .inl ho⟩⟩
    | n :: m :: p =>
      obtain ⟨j, hj, q', hq', ht'⟩ := (taken_below ha hb hwa hwb).mp ⟨n, ht⟩
      exact ⟨j, hj, .inr ⟨q', hq', .inr ⟨m :: p, e, hc, heq, ht'⟩⟩⟩
  · have hlead : ∀ j, Joined sortKey ea eb j → LeadsTo j o →
        ∃ p e, e.Counts ∧ e.oid = o ∧ Taken R q p e := fun j hj h => by
      obtain ⟨n, e, he⟩ := (leads_iff ha hb hwa hwb).mp ⟨j, hj, h⟩
      exact ⟨[n], e, he⟩
    rintro ⟨j, hj, hfile | ⟨q', hq', hroot | ⟨p, e, hc, heq, ht⟩⟩⟩
    · exact hlead j hj (.inl hfile)
    · exact hlead j hj (.inr ⟨q', hq', hroot⟩)
    · match p with
      | [] => exact (ht.elim (fun h => h.1) fun h => h.1).elim
      | m :: p =>
        obtain ⟨n, ht'⟩ := (taken_below ha hb hwa hwb).mpr ⟨j, hj, q', hq', ht⟩
        exact ⟨n :: m :: p, e, hc, heq, ht'⟩

theorem walks_ok (hR : Graph R)
    (h : level.foldlM (fun lv p => do
      let ea ← entriesOf R p.1
      let eb ← entriesOf R p.2
      .ok (mergeWalk ea eb lv)) lv = .ok lv') :
    (∀ q ∈ level, ∃ ea eb, entriesOf R q.1 = .ok ea ∧ entriesOf R q.2 = .ok eb) ∧
    (∀ q', q' ∈ lv'.stack ↔ q' ∈ lv.stack ∨ ∃ q ∈ level, ∃ j, JoinedOf R q j ∧ q' ∈ dirsOf j) ∧
    ∀ o, o ∈ lv'.blobs ↔ o ∈ lv.blobs ∨ ∃ q ∈ level, ∃ j, JoinedOf R q j ∧ o ∈ filesOf j := by
  induction level generalizing lv with
  | nil =>
    cases h
    simp
  | cons q level ih =>
    rw [List.foldlM_cons] at h
    obtain ⟨mid, hstep, hrest⟩ := bind_eq_ok h
    obtain ⟨ea, ha, hstep⟩ := bind_eq_ok hstep
    obtain ⟨eb, hb, hstep⟩ := bind_eq_ok hstep
    cases hstep
    obtain ⟨hread, hstack, hblobs⟩ := ih hrest
    obtain ⟨hstack', hblobs'⟩ :=
      mem_mergeWalk lv (wellFormed_entries hR ha) (wellFormed_entries hR hb)
    refine ⟨List.forall_mem_cons.mpr ⟨⟨ea, eb, ha, hb⟩, hread⟩, fun q' => ?_, fun o => ?_⟩
    · rw [hstack, hstack', List.exists_mem_cons_iff, or_assoc]
      simp only [joinedOf_iff ha hb]
    · rw [hblobs, hblobs', List.exists_mem_cons_iff, or_assoc]
      simp only [joinedOf_iff ha hb]

theorem roots_of_dirs (h : q ∈ dirsOf j) : rootsOf q ≠ [] := by
  rcases j with ⟨_ | x, _ | y⟩ <;> rw [dirsOf] at h
  · cases h
  all_goals
    split_ifs at h
    all_goals first
      | cases h; done
      | obtain rfl := List.mem_singleton.mp h
        exact List.cons_ne_nil _ _

theorem mem_sortDedup : o ∈ sortDedup oids ↔ o ∈ oids := by
  rw [sortDedup, List.mem_dedup, List.mem_insertionSort]

theorem faultLevel_ok (hR : Graph R)
    (h : faultLevel R budget stack count st = .ok (stack', count', st')) :
    (∀ o, (o ∈ st'.stored ∨ ∃ q ∈ stack', Reached R q o) ↔
      o ∈ st.stored ∨ ∃ q ∈ stack, Reached R q o) ∧
    (∀ q ∈ stack', rootsOf q ≠ []) ∧
    count + (sortDedup (stack.flatMap rootsOf)).length ≤ count' ∧ count' ≤ budget := by
  simp only [faultLevel] at h
  split_ifs at h with hwant
  obtain ⟨st₁, hst₁, h⟩ := bind_eq_ok h
  obtain ⟨lv, hlv, h⟩ := bind_eq_ok h
  split_ifs at h with hblobs
  obtain ⟨st₂, hst₂, h⟩ := bind_eq_ok h
  cases h
  obtain ⟨hread, hdirs, hfiles⟩ := walks_ok hR hlv
  refine ⟨fun o => ?_, fun q hq => ?_, Nat.le_add_right _ _, not_lt.mp hblobs⟩
  · have hreached : (∃ q ∈ stack, Reached R q o) ↔ (∃ q ∈ stack, o ∈ rootsOf q) ∨
        (∃ q ∈ stack, ∃ j, JoinedOf R q j ∧ o ∈ filesOf j) ∨
        ∃ q ∈ stack, ∃ j, JoinedOf R q j ∧ ∃ q' ∈ dirsOf j, Reached R q' o := by
      simp only [← exists_or, ← and_or_left]
      refine exists_congr fun q => and_congr_right fun hq => ?_
      obtain ⟨ea, eb, ha, hb⟩ := hread q hq
      rw [reached_iff hR ha hb]
    have hnext : (∃ q ∈ lv.stack, Reached R q o) ↔
        ∃ q ∈ stack, ∃ j, JoinedOf R q j ∧ ∃ q' ∈ dirsOf j, Reached R q' o := by
      simp only [hdirs, List.not_mem_nil, false_or]
      grind
    rw [faultMany_ok hst₂, faultMany_ok hst₁, mem_sortDedup, mem_sortDedup, hfiles, hnext, hreached,
      List.mem_flatMap]
    simp only [List.not_mem_nil, false_or, or_assoc]
  · obtain h | ⟨_, _, j, _, hj⟩ := (hdirs q).mp hq
    · cases h
    · exact roots_of_dirs hj

theorem pairsLoop_ok (hR : Graph R)
    (h : pairsLoop R budget n stack count st = some (.ok st')) :
    o ∈ st'.stored ↔ o ∈ st.stored ∨ ∃ q ∈ stack, Reached R q o := by
  induction n generalizing stack count st with
  | zero => cases h
  | succ n ih =>
    rw [pairsLoop] at h
    split_ifs at h with hstack
    · obtain rfl := refreshLocal_ok (Option.some.inj h)
      subst hstack
      simp
    · split at h
      · cases h
      · next hlevel => rw [ih h, (faultLevel_ok hR hlevel).1]

/-- Each round but the first counts a tree, so the budget ends the rounds. -/
theorem pairsLoop_ends (hR : Graph R)
    (hroots : ∀ q ∈ stack, rootsOf q ≠ []) (hcount : count ≤ budget) (hn : budget + 2 ≤ n + count) :
    pairsLoop R budget n stack count st ≠ none := by
  induction n generalizing stack count st with
  | zero => omega
  | succ n ih =>
    rw [pairsLoop]
    split_ifs with hstack
    · exact Option.some_ne_none _
    · split
      · exact Option.some_ne_none _
      · next stack' count' st' hlevel =>
        obtain ⟨-, hroots', hle, hbudget⟩ := faultLevel_ok hR hlevel
        obtain ⟨q, hq⟩ := List.exists_mem_of_ne_nil stack hstack
        obtain ⟨t, ht⟩ := List.exists_mem_of_ne_nil _ (hroots q hq)
        have hwant := List.length_pos_of_mem (mem_sortDedup.mpr (List.mem_flatMap.mpr ⟨q, hq, ht⟩))
        exact ih hroots' hbudget (by omega)

theorem faultTreePairs_ends (hR : Graph R) :
    faultTreePairs R budget stack st ≠ none := by
  rw [faultTreePairs, pairsLoop]
  split_ifs with hstack
  · exact Option.some_ne_none _
  · split
    · exact Option.some_ne_none _
    · next stack' count' st' hlevel =>
      obtain ⟨-, hroots', -, hbudget⟩ := faultLevel_ok hR hlevel
      exact pairsLoop_ends hR hroots' hbudget (by omega)

end Runs

section Archives

variable {f f' : Found O} {frontier frontier' : List O} {seen seen' : Finset O} {t : O}
  {st st' : LocalStore O} {sha : String} {budget count count' n : ℕ}

theorem meet_seen : o ∈ (f.meet e).seen ↔ o ∈ f.seen ∨ (e.Counts ∧ e.oid = o) := by
  rw [Found.meet, TreeEntryRef.Counts]
  split_ifs with htree hseen hblob <;> grind

theorem meet_new (h : ∀ o, o ∈ f.seen ↔ o ∈ seen ∨ o ∈ f.next ∨ o ∈ f.blobs) :
    o ∈ (f.meet e).seen ↔ o ∈ seen ∨ o ∈ (f.meet e).next ∨ o ∈ (f.meet e).blobs := by
  rw [Found.meet]
  split_ifs with htree hseen hblob <;> grind

theorem meet_blobs (h : o ∈ (f.meet e).blobs) :
    o ∈ f.blobs ∨ (e.mode.isBlobOrSymlink = true ∧ e.oid = o) := by
  rw [Found.meet] at h
  split_ifs at h with htree hseen hblob <;> grind

/-- What the entries of a level are to what was met before it. -/
structure Found.From (R : Remote O) (seen : Finset O) (f : Found O) : Prop where
  new : ∀ o, o ∈ f.seen ↔ o ∈ seen ∨ o ∈ f.next ∨ o ∈ f.blobs
  blobs : ∀ o ∈ f.blobs, ∀ es, R.treeEntries o ≠ .ok es

theorem foldl_meet_seen : o ∈ (es.foldl Found.meet f).seen ↔
    o ∈ f.seen ∨ ∃ e ∈ es, e.Counts ∧ e.oid = o := by
  induction es generalizing f with
  | nil => simp
  | cons e es ih => rw [List.foldl_cons, ih, meet_seen, List.exists_mem_cons_iff, or_assoc]

theorem foldl_meet_from (h : f.From R seen)
    (hkind : ∀ e ∈ es, e.mode.isBlobOrSymlink = true → ∀ es', R.treeEntries e.oid ≠ .ok es') :
    (es.foldl Found.meet f).From R seen := by
  induction es generalizing f with
  | nil => exact h
  | cons e es ih =>
    rw [List.forall_mem_cons] at hkind
    refine ih ⟨fun o => meet_new h.new, fun o ho => ?_⟩ hkind.2
    rcases meet_blobs ho with hold | ⟨hblob, rfl⟩
    · exact h.blobs o hold
    · exact hkind.1 hblob

theorem readFrontier_ok (hR : Graph R) (hf : f.From R seen)
    (h : readFrontier R frontier f = .ok f') : f'.From R seen ∧ f.seen ⊆ f'.seen ∧
      ∀ t ∈ frontier, ∀ es, R.treeEntries t = .ok es → ∀ e ∈ es, e.Counts → e.oid ∈ f'.seen := by
  induction frontier generalizing f with
  | nil =>
    cases h
    exact ⟨hf, fun _ h => h, fun _ h => nomatch h⟩
  | cons t frontier ih =>
    rw [readFrontier, List.foldlM_cons] at h
    obtain ⟨mid, hstep, hrest⟩ := bind_eq_ok h
    obtain ⟨es, hes, hstep⟩ := bind_eq_ok hstep
    cases hstep
    obtain ⟨hfrom, hsub, hmet⟩ := ih (foldl_meet_from hf (hR.kinded t es hes)) hrest
    refine ⟨hfrom, fun o ho => hsub (foldl_meet_seen.mpr (.inl ho)), ?_⟩
    refine List.forall_mem_cons.mpr ⟨fun es' hes' e he hc => ?_, hmet⟩
    obtain rfl := Except.ok.inj (hes.symm.trans hes')
    exact hsub (foldl_meet_seen.mpr (.inr ⟨e, he, hc, rfl⟩))

/-- What was met is stored or still to be read, and what was read names nothing else. -/
structure Archived (R : Remote O) (frontier : List O) (seen : Finset O) (st : LocalStore O) :
    Prop where
  stored : ∀ o ∈ seen, o ∈ st.stored ∨ o ∈ frontier
  closed : ∀ o ∈ seen, o ∉ frontier →
    ∀ es, R.treeEntries o = .ok es → ∀ e ∈ es, e.Counts → e.oid ∈ seen

theorem archiveLevel_ok (hR : Graph R) (hinv : Archived R frontier seen st)
    (h : archiveLevel R sha budget frontier seen count st = .ok (frontier', seen', count', st')) :
    Archived R frontier' seen' st' ∧ seen ⊆ seen' ∧ st.stored ⊆ st'.stored ∧
      count + frontier.length ≤ count' ∧ count' ≤ budget := by
  simp only [archiveLevel] at h
  split_ifs at h with hwant
  obtain ⟨st₁, hst₁, h⟩ := bind_eq_ok h
  obtain ⟨f, hf, h⟩ := bind_eq_ok h
  split_ifs at h with hblobs
  obtain ⟨st₂, hst₂, h⟩ := bind_eq_ok h
  cases h
  have hstart : (⟨[], [], seen⟩ : Found O).From R seen := ⟨fun o => by simp, fun o ho => nomatch ho⟩
  obtain ⟨hfrom, hsub, hmet⟩ := readFrontier_ok hR hstart hf
  have hstored : ∀ o, o ∈ st'.stored ↔ o ∈ st.stored ∨ o ∈ frontier ∨ o ∈ f.blobs := fun o => by
    rw [faultMany_ok hst₂, faultMany_ok hst₁, or_assoc]
  refine ⟨⟨fun o ho => ?_, fun o ho hnext es hes e he hc => ?_⟩, hsub,
    fun o ho => (hstored o).mpr (.inl ho), Nat.le_add_right _ _, not_lt.mp hblobs⟩
  · rcases (hfrom.new o).mp ho with hold | hnext | hblob
    · exact .inl ((hstored o).mpr ((hinv.stored o hold).imp_right .inl))
    · exact .inr hnext
    · exact .inl ((hstored o).mpr (.inr (.inr hblob)))
  · rcases (hfrom.new o).mp ho with hold | hnext' | hblob
    · by_cases hfrontier : o ∈ frontier
      · exact hmet o hfrontier es hes e he hc
      · exact hsub (hinv.closed o hold hfrontier es hes e he hc)
    · exact absurd hnext' hnext
    · exact absurd hes (hfrom.blobs o hblob es)

theorem archiveLoop_ok (hR : Graph R) (hinv : Archived R frontier seen st)
    (h : archiveLoop R sha budget n frontier seen count st = some (.ok st')) :
    st.stored ⊆ st'.stored ∧ ∃ S : Finset O, seen ⊆ S ∧ S ⊆ st'.stored ∧
      ∀ t ∈ S, ∀ es, R.treeEntries t = .ok es → ∀ e ∈ es, e.Counts → e.oid ∈ S := by
  induction n generalizing frontier seen count st with
  | zero => cases h
  | succ n ih =>
    rw [archiveLoop] at h
    split_ifs at h with hfrontier
    · obtain rfl := refreshLocal_ok (Option.some.inj h)
      subst hfrontier
      refine ⟨fun _ h => h, seen, fun _ h => h, fun o ho => ?_, fun t ht => ?_⟩
      · exact (hinv.stored o ho).resolve_right List.not_mem_nil
      · exact hinv.closed t ht List.not_mem_nil
    · split at h
      · cases h
      · next hlevel =>
        obtain ⟨hinv', hseen, hstored, -⟩ := archiveLevel_ok hR hinv hlevel
        obtain ⟨hrest, S, hS, hSstored, hclosed⟩ := ih hinv' h
        exact ⟨hstored.trans hrest, S, hseen.trans hS, hSstored, hclosed⟩

theorem archiveLoop_ends (hR : Graph R) (hinv : Archived R frontier seen st)
    (hcount : count ≤ budget) (hn : budget + 2 ≤ n + count) :
    archiveLoop R sha budget n frontier seen count st ≠ none := by
  induction n generalizing frontier seen count st with
  | zero => omega
  | succ n ih =>
    rw [archiveLoop]
    split_ifs with hfrontier
    · exact Option.some_ne_none _
    · split
      · exact Option.some_ne_none _
      · next hlevel =>
        obtain ⟨hinv', -, -, hle, hbudget⟩ := archiveLevel_ok hR hinv hlevel
        have hpos := List.length_pos_of_ne_nil hfrontier
        exact ih hinv' hbudget (by omega)

omit [LinearOrder O] in
theorem mem_of_at {S : Finset O} {p : List Bytes}
    (hclosed : ∀ t ∈ S, ∀ es, R.treeEntries t = .ok es → ∀ e ∈ es, e.Counts → e.oid ∈ S)
    (ht : t ∈ S) (hat : At R (some t) p e) (hc : e.Counts) : e.oid ∈ S := by
  induction p generalizing t with
  | nil => exact hat.elim
  | cons n p ih =>
    cases p with
    | nil =>
      obtain ⟨es, hes, he, -⟩ := hat
      exact hclosed t ht es hes e he hc
    | cons m p =>
      obtain ⟨es, hes, d, hd, -, htree, hat⟩ := hat
      exact ih (hclosed t ht es hes d hd (.inl htree)) hat

omit [LinearOrder O] in
theorem archived_start : Archived R [t] {t} st where
  stored _ ho := .inr (List.mem_singleton.mpr (Finset.mem_singleton.mp ho))
  closed _ ho hnot := absurd (List.mem_singleton.mpr (Finset.mem_singleton.mp ho)) hnot

theorem archiveStart_ok {c : CommitMeta O} (h : archiveStart R sha st = .ok (c, st')) :
    ∃ start, R.hexId sha = .ok start ∧ R.commit start = .ok c ∧ start ∈ st'.stored := by
  obtain ⟨start, hstart, h⟩ := bind_eq_ok h
  obtain ⟨c', hc, h⟩ := bind_eq_ok h
  obtain ⟨st₁, hst, h⟩ := bind_eq_ok h
  cases h
  exact ⟨start, hstart, hc, (fault_ok hst).mpr (.inr rfl)⟩

theorem faultTreeAll_ok {start : O} {c : CommitMeta O} (hR : Graph R)
    (h : faultTreeAll R budget sha st = some (.ok st')) (hstart : R.hexId sha = .ok start)
    (hc : R.commit start = .ok c) :
    start ∈ st'.stored ∧ ∀ o, Below R c.tree o → o ∈ st'.stored := by
  rw [faultTreeAll] at h
  split at h
  · cases h
  · next hst =>
    obtain ⟨start', hstart', hc', hmem⟩ := archiveStart_ok hst
    obtain rfl := Except.ok.inj (hstart.symm.trans hstart')
    obtain rfl := Except.ok.inj (hc.symm.trans hc')
    obtain ⟨hstored, S, hS, hSstored, hclosed⟩ := archiveLoop_ok hR archived_start h
    have hroot := hS (Finset.mem_singleton_self c.tree)
    refine ⟨hstored hmem, ?_⟩
    rintro o (rfl | ⟨p, e, hcounts, rfl, hat⟩)
    · exact hSstored hroot
    · exact hSstored (mem_of_at hclosed hroot hat hcounts)

theorem faultTreeAll_ends (hR : Graph R) : faultTreeAll R budget sha st ≠ none := by
  rw [faultTreeAll]
  split
  · exact Option.some_ne_none _
  · exact archiveLoop_ends hR archived_start (Nat.zero_le budget) le_rfl

end Archives

section Complete

variable {stack : List (Option O × Option O)} {st st' : LocalStore O} {budget : ℕ}

omit [LinearOrder O] in
theorem reached_of_needed (hq : q ∈ stack) (hmet : ShadowsMet R stack st) (h : Needed R q o) :
    o ∈ st.stored ∨ ∃ q ∈ stack, Reached R q o := by
  obtain hroot | ⟨p, e, hc, rfl, hleft | ⟨hin, hout⟩⟩ := h
  · exact .inr ⟨q, hq, .inl hroot⟩
  · exact .inr ⟨q, hq, .inr ⟨p, e, hc, rfl, .inl hleft⟩⟩
  · by_cases hshadow : Shadowed R q.1 p e
    · exact hmet q hq p e hc hin hout hshadow
    · exact .inr ⟨q, hq, .inr ⟨p, e, hc, rfl, .inr ⟨hin, hout, hshadow⟩⟩⟩

theorem needed_stored_iff (hR : Graph R)
    (h : faultTreePairs R budget stack st = some (.ok st')) :
    (∀ q ∈ stack, ∀ o, Needed R q o → o ∈ st'.stored) ↔ ShadowsMet R stack st := by
  constructor
  · intro hall q hq p e hc hin hout _
    exact (pairsLoop_ok hR h).mp (hall q hq e.oid (.inr ⟨p, e, hc, rfl, .inr ⟨hin, hout⟩⟩))
  · exact fun hmet q hq o ho => (pairsLoop_ok hR h).mpr (reached_of_needed hq hmet ho)

/-- A diff and an archive end; a diff has its differences stored just where submodules hide
nothing of them, an archive has all below its commit stored. -/
theorem faults_complete (hR : Graph R) :
    (∀ budget stack st, faultTreePairs R budget stack st ≠ none ∧
      ∀ st', faultTreePairs R budget stack st = some (.ok st') →
        ((∀ q ∈ stack, ∀ o, Needed R q o → o ∈ st'.stored) ↔ ShadowsMet R stack st)) ∧
    ∀ budget sha st, faultTreeAll R budget sha st ≠ none ∧
      ∀ st' start c, faultTreeAll R budget sha st = some (.ok st') → R.hexId sha = .ok start →
        R.commit start = .ok c → start ∈ st'.stored ∧ ∀ o, Below R c.tree o → o ∈ st'.stored :=
  ⟨fun _ _ _ => ⟨faultTreePairs_ends hR, fun _ h => needed_stored_iff hR h⟩,
    fun _ _ _ => ⟨faultTreeAll_ends hR, fun _ _ _ h => faultTreeAll_ok hR h⟩⟩

end Complete

section Submodules

theorem graph_ofItems {items : List Item} (h : ∀ es, Item.tree es ∈ items → WellFormed es ∧
    ∀ e ∈ es, e.mode.isBlobOrSymlink = true → ∀ es', items[e.oid]? ≠ some (.tree es')) :
    Graph (ofItems items) where
  wellFormed t es hes := (h es (treeEntries_ofItems hes).1).1
  kinded t es hes e he hblob es' hes' := by
    obtain ⟨-, es'', hget⟩ := treeEntries_ofItems hes'
    exact (h es (treeEntries_ofItems hes).1).2 e he hblob es'' hget

/-- A submodule, and in its place a file of the id that it has. -/
def submoduleItems : List Item :=
  [.tree [⟨[109], 2, ⟨0o160000⟩⟩], .tree [⟨[109], 2, ⟨0o100644⟩⟩], .blob, bareCommit 3 1 [] 0]

theorem submoduleItems_graph : Graph (ofItems submoduleItems) := by
  refine graph_ofItems fun es hes => ?_
  have hes : es = [⟨[109], 2, ⟨0o160000⟩⟩] ∨ es = [⟨[109], 2, ⟨0o100644⟩⟩] := by
    simpa [submoduleItems, bareCommit] using hes
  rcases hes with rfl | rfl
  · exact ⟨⟨List.pairwise_singleton _ _, by simp⟩, by simp [EntryMode.isBlobOrSymlink,
      EntryMode.fileType]⟩
  · exact ⟨⟨List.pairwise_singleton _ _, by simp⟩, by simp [submoduleItems]⟩

theorem submodule_shadowsMet : ShadowsMet (ofItems submoduleItems)
    [(some 0, some 1), (none, some 1)] emptyStore := by
  intro q hq p e hc hin hout hshadow
  have hnone : ∀ x, ¬ At (ofItems submoduleItems) none p x := by
    intro x hx
    rcases p with _ | ⟨n, _ | ⟨m, p⟩⟩ <;> simp [At, entriesOf] at hx
  have hin' : At (ofItems submoduleItems) (some 1) p e := by
    simp only [List.mem_cons, List.not_mem_nil, or_false] at hq
    rcases hq with rfl | rfl <;> exact hin
  refine .inr ⟨(none, some 1), by simp, .inr ⟨p, e, hc, rfl, .inr ⟨hin', hnone e, ?_⟩⟩⟩
  rintro ⟨-, x, hx, -⟩
  exact hnone x hx

/-- A diff of two pairs of trees, and the archive of the commit with the file. -/
theorem faults_complete_submodule :
    (∃ st', faultTreePairs (ofItems submoduleItems) 10 [(some 0, some 1), (none, some 1)]
        emptyStore = some (.ok st') ∧
      ∀ o, Needed (ofItems submoduleItems) (some 0, some 1) o → o ∈ st'.stored) ∧
    ∃ st', faultTreeAll (ofItems submoduleItems) 10 "3" emptyStore = some (.ok st') ∧
      3 ∈ st'.stored ∧ ∀ o, Below (ofItems submoduleItems) 1 o → o ∈ st'.stored :=
  ⟨⟨_, rfl, (((faults_complete submoduleItems_graph).1 10 _ emptyStore).2 _ rfl).mpr
      submodule_shadowsMet _ List.mem_cons_self⟩,
    ⟨_, rfl, ((faults_complete submoduleItems_graph).2 10 "3" emptyStore).2 _ 3
      ⟨3, 1, [], "", "", "", "", "", 0, "", ""⟩ rfl rfl (commit_ofItems.mpr rfl)⟩⟩

/-- The file is at a path where the trees differ, and it is not stored. -/
theorem shadowed_file_not_stored :
    ∃ st', faultTreePairs (ofItems submoduleItems) 10 [(some 0, some 1)] emptyStore =
        some (.ok st') ∧
      Needed (ofItems submoduleItems) (some 0, some 1) 2 ∧ 2 ∉ st'.stored := by
  refine ⟨_, rfl, .inr ⟨[[109]], ⟨[109], 2, ⟨0o100644⟩⟩, .inr (by decide), rfl, .inr ⟨?_, ?_⟩⟩,
    by decide⟩
  · exact ⟨_, rfl, List.mem_singleton_self _, rfl⟩
  · rintro ⟨es, hes, he, -⟩
    cases hes
    simp at he

end Submodules

end Walgit.Web
