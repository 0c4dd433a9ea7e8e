import Mathlib.Data.List.Nodup
import Walgit.Lib.Memo
import Walgit.Lib.NewestFirst
import Walgit.WebObjects

/-!
# The history of a path

Commits are popped newest first. A commit whose path is as in a parent is not
shown, and of its parents the first such one is followed; every other commit
is shown and all of its parents are followed.
-/

namespace Walgit.Web

open NewestFirst (Timed pop mem_pop pop_perm pop_newest)
open Memo (Tracks consult tracks_pure tracks_bind tracks_consult tracks_ite)

variable {O : Type} [DecidableEq O]

section Loop

/-- The pending commits, and all that were pushed. -/
structure Queue (O : Type) where
  heap : List (Timed O)
  seen : Finset O
  seq : ℕ

/-- A commit that was popped, and what was decided of it. -/
structure Visit (O : Type) where
  oid : O
  info : CommitMeta O
  shown : Bool
  follow : List O
  deriving DecidableEq, Repr

/-- The commits shown so far; with them, for the proofs, all that were popped. -/
structure Walk (O : Type) extends Queue O where
  out : List (CommitMeta O)
  visits : List (Visit O)

variable {m : Type → Type} [Monad m] {κ : Type} [DecidableEq κ]

/-- The first parent that has what the commit has at the path. -/
def treesameParent (read : O → m (CommitMeta O)) (look : O → m (Option κ)) (mine : Option κ) :
    List O → m (Option O)
  | [] => pure none
  | par :: ps => do
    let pm ← read par
    let theirs ← look pm.tree
    if theirs = mine then pure (some par) else treesameParent read look mine ps

/-- Whether a commit is shown, and the parents that are followed. -/
def simplify (read : O → m (CommitMeta O)) (look : O → m (Option κ)) (c : CommitMeta O) :
    m (Bool × List O) := do
  let mine ← look c.tree
  if c.parents = [] then pure (mine.isSome, c.parents)
  else
    let tp ← treesameParent read look mine c.parents
    pure (tp.elim (true, c.parents) fun par => (false, [par]))

def pushParents (read : O → m (CommitMeta O)) : List O → Queue O → m (Queue O)
  | [], q => pure q
  | par :: ps, q =>
    if par ∈ q.seen then pushParents read ps q
    else do
      let pm ← read par
      pushParents read ps
        ⟨⟨pm.commitTime, q.seq + 1, par⟩ :: q.heap, insert par q.seen, q.seq + 1⟩

/-- The commit is popped, and shown or not. -/
def Walk.visit (w : Walk O) (heap : List (Timed O)) (v : Visit O) : Walk O where
  heap := heap
  seen := w.seen
  seq := w.seq
  out := if v.shown then w.out ++ [v.info] else w.out
  visits := w.visits ++ [v]

/-- The loop, with what is left of the budget; and whether it gave up. -/
def walkLoop (take read : O → m (CommitMeta O)) (decide : CommitMeta O → m (Bool × List O))
    (want : ℕ) : ℕ → Walk O → m (Walk O × Bool)
  | budget, w =>
    match pop w.heap with
    | none => pure (w, false)
    | some (item, heap) =>
      match budget with
      | 0 => pure (w, true)
      | budget + 1 => do
        let c ← take item.val
        let d ← decide c
        let w := w.visit heap ⟨item.val, c, d.1, d.2⟩
        if d.1 ∧ want ≤ w.out.length then pure (w, false)
        else do
          let q ← pushParents read d.2 w.toQueue
          walkLoop take read decide want budget { w with toQueue := q }

def Walk.start (start : O) (c : CommitMeta O) : Walk O :=
  ⟨⟨[⟨c.commitTime, 0, start⟩], {start}, 0⟩, [], []⟩

end Loop

section Code

/-- Commits that were read and not popped, and what trees have at the path. -/
structure Tables (O : Type) where
  metas : O → Option (CommitMeta O)
  pathCache : O → Option (Option O)

abbrev Reading (O : Type) := StateT (Tables O) (Except (ApiError O))

variable (R : Remote O)

def pathOid (path : List Char) (tree : O) : Reading O (Option O) :=
  consult (·.pathCache tree) id ((R.lookupPath tree path).map (Option.map Prod.fst))
    fun v t => { t with pathCache := Function.update t.pathCache tree (some v) }

/-- The commit from the table, or read and put there. -/
def metaOf (oid : O) : Reading O (CommitMeta O) :=
  consult (·.metas oid) id (R.commit oid)
    fun c t => { t with metas := Function.update t.metas oid (some c) }

def takeMeta (oid : O) : Reading O (CommitMeta O) :=
  consult (·.metas oid) (fun t => { t with metas := Function.update t.metas oid none })
    (R.commit oid) fun _ t => t

def decideOf (path : Option (List Char)) (c : CommitMeta O) : Reading O (Bool × List O) :=
  match path with
  | none => pure (true, c.parents)
  | some p => simplify (metaOf R) (pathOid R p) c

def walkRun (start : O) (path : Option (List Char)) (want budget : ℕ) :
    Except (ApiError O) (Walk O × Bool) := do
  let c ← R.commit start
  (walkLoop (takeMeta R) (metaOf R) (decideOf R path) want budget (.start start c)).run'
    ⟨Function.update (fun _ => none) start (some c), fun _ => none⟩

def walkBounded (start : O) (path : Option (List Char)) (want budget : ℕ) :
    Except (ApiError O) (List (CommitMeta O)) :=
  (walkRun R start path want budget).map fun r => r.1.out

/-- The walk without a path where the path is empty. -/
def walk (start : O) (path : Option (List Char)) (want budget : ℕ) :
    Except (ApiError O) (List (CommitMeta O)) :=
  walkBounded R start (path.filter (· ≠ [])) want budget

end Code

section Spec

omit [DecidableEq O]

variable (R : Remote O)

/-- The entry that git finds: nothing is below a file or a submodule. -/
def entrySegs : O → EntryMode → List Bytes → Except (ApiError O) (Option (O × EntryMode))
  | cur, mode, [] => .ok (some (cur, mode))
  | cur, mode, seg :: segs =>
    if mode.isTree = false then .ok none
    else do
      let es ← R.treeEntries cur
      match es.find? (·.name = seg) with
      | none => .ok none
      | some e => entrySegs e.oid e.mode segs

def entryAt (path : List Char) (tree : O) : Except (ApiError O) (Option (O × EntryMode)) :=
  entrySegs R tree .tree (segments path)

/-- The parent has the same entry at the path. -/
def Treesame (path : List Char) (c : CommitMeta O) (par : O) : Prop :=
  ∃ pm, R.commit par = .ok pm ∧ ∃ e, entryAt R path c.tree = .ok e ∧ entryAt R path pm.tree = .ok e

/-- git's default simplification: whether a commit is shown, and what is followed. -/
inductive Simplified : Option (List Char) → CommitMeta O → Bool → List O → Prop
  | whole (c : CommitMeta O) : Simplified none c true c.parents
  | root (p : List Char) (c : CommitMeta O) (e : Option (O × EntryMode))
      (hroot : c.parents = []) (he : entryAt R p c.tree = .ok e) :
      Simplified (some p) c e.isSome []
  | changed (p : List Char) (c : CommitMeta O) (hne : c.parents ≠ [])
      (hdiff : ∀ par ∈ c.parents, ¬ Treesame R p c par) : Simplified (some p) c true c.parents
  | treesame (p : List Char) (c : CommitMeta O) (before after : List O) (par : O)
      (hps : c.parents = before ++ par :: after) (hbefore : ∀ q ∈ before, ¬ Treesame R p c q)
      (hpar : Treesame R p c par) : Simplified (some p) c false [par]

/-- A commit that is the start or followed, and not popped yet. -/
def Pending (start : O) (visits : List (Visit O)) (c : O) : Prop :=
  (c = start ∨ ∃ v ∈ visits, c ∈ v.follow) ∧ ∀ v ∈ visits, v.oid ≠ c

def shownOf (visits : List (Visit O)) : List (CommitMeta O) :=
  (visits.filter (·.shown)).map (·.info)

/-- The commits that git's history of the path pops, until as many are shown as are wanted. -/
structure PathHistory (start : O) (path : Option (List Char)) (want : ℕ)
    (visits : List (Visit O)) : Prop where
  read : ∀ v ∈ visits, R.commit v.oid = .ok v.info
  simplified : ∀ v ∈ visits, Simplified R path v.info v.shown v.follow
  once : (visits.map (·.oid)).Nodup
  newest : ∀ before v after, visits = before ++ v :: after → Pending start before v.oid ∧
    ∀ c m, Pending start before c → R.commit c = .ok m → m.commitTime ≤ v.info.commitTime
  enough : (shownOf visits).length = want ∨
    (shownOf visits).length < want ∧ ∀ c, ¬ Pending start visits c

/-- The commits can be read, and their trees along the path. -/
def Present (start : O) (path : Option (List Char)) : Prop :=
  ∀ c, Ancestor R start c →
    ∃ m, R.commit c = .ok m ∧ ∀ p ∈ path, ∃ e, entryAt R p m.tree = .ok e

/-- The path goes on below a file or a submodule. -/
def RunsThrough : O → EntryMode → List Bytes → Prop
  | _, _, [] => False
  | cur, mode, seg :: segs => mode.isTree = false ∨
      ∃ es e, R.treeEntries cur = .ok es ∧ es.find? (·.name = seg) = some e ∧
        RunsThrough e.oid e.mode segs

/-- In none of the parents that git compares does the path go on below a file, and none has
the oid alone. -/
def PlainParents (path : List Char) (mine : Option (O × EntryMode)) : List O → Prop
  | [] => True
  | par :: ps => ∀ pm, R.commit par = .ok pm →
      ¬ RunsThrough R pm.tree .tree (segments path) ∧
        ∀ theirs, entryAt R path pm.tree = .ok theirs → theirs ≠ mine →
          theirs.map Prod.fst ≠ mine.map Prod.fst ∧ PlainParents path mine ps

def Plain (path : List Char) (c : CommitMeta O) : Prop :=
  ¬ RunsThrough R c.tree .tree (segments path) ∧
    ∀ mine, entryAt R path c.tree = .ok mine → PlainParents R path mine c.parents

/-- What is no directory names no tree. -/
def LeavesNoTrees : Prop :=
  ∀ t es, R.treeEntries t = .ok es →
    ∀ e ∈ es, e.mode.isTree = false → ∀ es', R.treeEntries e.oid ≠ .ok es'

end Spec

section GitWalk

variable (R : Remote O)

def gitDecide (path : Option (List Char)) (c : CommitMeta O) :
    Except (ApiError O) (Bool × List O) :=
  match path with
  | none => .ok (true, c.parents)
  | some p => simplify R.commit (entryAt R p) c

/-- The walk with git's entries, for at most as many commits as the budget. -/
def gitWalk (start : O) (path : Option (List Char)) (want budget : ℕ) :
    Except (ApiError O) (Walk O × Bool) :=
  R.commit start >>= fun c =>
    walkLoop R.commit R.commit (gitDecide R path) want budget (.start start c)

end GitWalk

section Tables

variable {R : Remote O} {σ κ : Type} [DecidableEq κ] {Inv : σ → Prop}
  {read take : O → StateT σ (Except (ApiError O)) (CommitMeta O)}
  {look : O → StateT σ (Except (ApiError O)) (Option κ)}
  {look' : O → Except (ApiError O) (Option κ)}
  {decide : CommitMeta O → StateT σ (Except (ApiError O)) (Bool × List O)}
  {decide' : CommitMeta O → Except (ApiError O) (Bool × List O)}

omit [DecidableEq O] in
theorem tracks_treesame (hread : ∀ c, Tracks Inv (read c) (R.commit c))
    (hlook : ∀ t, Tracks Inv (look t) (look' t)) (mine : Option κ) (ps : List O) :
    Tracks Inv (treesameParent read look mine ps) (treesameParent R.commit look' mine ps) := by
  induction ps with
  | nil => exact tracks_pure none
  | cons par ps ih =>
    refine tracks_bind (hread par) fun pm _ => tracks_bind (hlook pm.tree) fun theirs _ => ?_
    exact tracks_ite (fun _ => tracks_pure _) fun _ => ih

omit [DecidableEq O] in
theorem tracks_simplify (hread : ∀ c, Tracks Inv (read c) (R.commit c))
    (hlook : ∀ t, Tracks Inv (look t) (look' t)) (c : CommitMeta O) :
    Tracks Inv (simplify read look c) (simplify R.commit look' c) := by
  refine tracks_bind (hlook c.tree) fun mine _ => tracks_ite (fun _ => tracks_pure _) fun _ => ?_
  exact tracks_bind (tracks_treesame hread hlook mine c.parents) fun tp _ => tracks_pure _

theorem tracks_push (hread : ∀ c, Tracks Inv (read c) (R.commit c)) (ps : List O) (q : Queue O) :
    Tracks Inv (pushParents read ps q) (pushParents R.commit ps q) := by
  induction ps generalizing q with
  | nil => exact tracks_pure q
  | cons par ps ih =>
    exact tracks_ite (fun _ => ih q) fun _ => tracks_bind (hread par) fun pm _ => ih _

theorem tracks_loop (htake : ∀ c, Tracks Inv (take c) (R.commit c))
    (hread : ∀ c, Tracks Inv (read c) (R.commit c))
    (hdecide : ∀ c, Tracks Inv (decide c) (decide' c)) (want budget : ℕ) (w : Walk O) :
    Tracks Inv (walkLoop take read decide want budget w)
      (walkLoop R.commit R.commit decide' want budget w) := by
  induction budget generalizing w with
  | zero =>
    rw [walkLoop, walkLoop]
    split <;> exact tracks_pure _
  | succ budget ih =>
    rw [walkLoop, walkLoop]
    split
    · exact tracks_pure _
    · next item heap _ =>
      refine tracks_bind (htake item.val) fun c _ => tracks_bind (hdecide c) fun d _ => ?_
      exact tracks_ite (fun _ => tracks_pure _) fun _ =>
        tracks_bind (tracks_push hread d.2 _) fun q _ => ih _

/-- The oid that the code finds at the path of a tree. -/
def oidAt (R : Remote O) (path : List Char) (tree : O) : Except (ApiError O) (Option O) :=
  (R.lookupPath tree path).map (Option.map Prod.fst)

/-- What the code decides of a commit, read without tables. -/
def decideRead (R : Remote O) (path : Option (List Char)) (c : CommitMeta O) :
    Except (ApiError O) (Bool × List O) :=
  match path with
  | none => .ok (true, c.parents)
  | some p => simplify R.commit (oidAt R p) c

/-- What the tables hold is what reading gives. -/
structure Tables.Sound (R : Remote O) (path : Option (List Char)) (t : Tables O) : Prop where
  metas : ∀ oid c, t.metas oid = some c → R.commit oid = .ok c
  paths : ∀ p ∈ path, ∀ tree v, t.pathCache tree = some v → oidAt R p tree = .ok v

theorem Tables.Sound.put {path : Option (List Char)} {t : Tables O} {oid : O}
    {v : Option (CommitMeta O)} (ht : t.Sound R path)
    (hv : ∀ c ∈ v, R.commit oid = .ok c) :
    Tables.Sound R path { t with metas := Function.update t.metas oid v } where
  metas oid' c h := by
    change Function.update t.metas oid v oid' = some c at h
    rw [Function.update_apply] at h
    split_ifs at h with heq
    · rw [heq, hv c h]
    · exact ht.metas oid' c h
  paths := ht.paths

theorem tracks_metaOf (path : Option (List Char)) (oid : O) :
    Tracks (Tables.Sound R path) (metaOf R oid) (R.commit oid) := by
  refine tracks_consult (fun _ ht c => ht.metas oid c) (fun _ ht => ht) fun _ ht c hc => ht.put ?_
  intro c' hc'
  rw [hc, Option.some.inj hc']

theorem tracks_takeMeta (path : Option (List Char)) (oid : O) :
    Tracks (Tables.Sound R path) (takeMeta R oid) (R.commit oid) :=
  tracks_consult (fun _ ht c => ht.metas oid c) (fun _ ht => ht.put fun _ h => nomatch h)
    fun _ ht _ _ => ht

theorem tracks_pathOid {path : Option (List Char)} {p : List Char} (hp : p ∈ path) (tree : O) :
    Tracks (Tables.Sound R path) (pathOid R p tree) (oidAt R p tree) := by
  refine tracks_consult (fun _ ht v => ht.paths p hp tree v) (fun _ ht => ht) fun t ht v hv => ?_
  refine ⟨ht.metas, fun p' hp' tree' v' h => ?_⟩
  obtain rfl := Option.mem_unique hp hp'
  change Function.update t.pathCache tree (some v) tree' = some v' at h
  rw [Function.update_apply] at h
  split_ifs at h with heq
  · rw [heq, ← Option.some.inj h]
    exact hv
  · exact ht.paths p hp tree' v' h

theorem tracks_decideOf (path : Option (List Char)) (c : CommitMeta O) :
    Tracks (Tables.Sound R path) (decideOf R path c) (decideRead R path c) := by
  cases path with
  | none => exact tracks_pure _
  | some p => exact tracks_simplify (tracks_metaOf _) (tracks_pathOid rfl) c

theorem walkRun_eq (start : O) (path : Option (List Char)) (want budget : ℕ) :
    walkRun R start path want budget = R.commit start >>= fun c =>
      walkLoop R.commit R.commit (decideRead R path) want budget (.start start c) := by
  rw [walkRun]
  cases hc : R.commit start with
  | error e => rfl
  | ok c =>
    have hempty : Tables.Sound R path ⟨fun _ => none, fun _ => none⟩ :=
      ⟨fun _ _ h => (nomatch h), fun _ _ _ _ h => nomatch h⟩
    refine (tracks_loop (tracks_takeMeta path) (tracks_metaOf path) (tracks_decideOf path) want
      budget _).eq (hempty.put (v := some c) fun c' hc' => ?_)
    rw [hc, Option.some.inj hc']

end Tables

section Queues

variable {R : Remote O} {visited ps : List O} {q q' : Queue O}

/-- The heap holds what was pushed and not popped, each once and under its time. -/
structure Queue.Holds (R : Remote O) (visited : List O) (q : Queue O) : Prop where
  mem : ∀ c, c ∈ q.heap.map Timed.val ↔ c ∈ q.seen ∧ c ∉ visited
  once : (q.heap.map Timed.val).Nodup
  times : ∀ i ∈ q.heap, ∃ m, R.commit i.val = .ok m ∧ m.commitTime = i.time

theorem pushParents_ok (hq : q.Holds R visited) (hsub : ∀ c ∈ visited, c ∈ q.seen)
    (h : pushParents R.commit ps q = .ok q') :
    q'.Holds R visited ∧ ∀ c, c ∈ q'.seen ↔ c ∈ q.seen ∨ c ∈ ps := by
  induction ps generalizing q with
  | nil =>
    cases h
    exact ⟨hq, fun c => (or_iff_left List.not_mem_nil).symm⟩
  | cons par ps ih =>
    rw [pushParents] at h
    split_ifs at h with hseen
    · obtain ⟨hholds, hmem⟩ := ih hq hsub h
      refine ⟨hholds, fun c => (hmem c).trans ?_⟩
      rw [List.mem_cons]
      grind
    · obtain ⟨pm, hpm, h⟩ := bind_eq_ok h
      have hnot : par ∉ visited := fun h => hseen (hsub par h)
      have hholds : Queue.Holds R visited
          ⟨⟨pm.commitTime, q.seq + 1, par⟩ :: q.heap, insert par q.seen, q.seq + 1⟩ := by
        refine ⟨fun c => ?_, ?_, ?_⟩
        · rw [List.map_cons, List.mem_cons, hq.mem, Finset.mem_insert]
          grind
        · rw [List.map_cons, List.nodup_cons, hq.mem]
          exact ⟨fun h => hseen h.1, hq.once⟩
        · rw [List.forall_mem_cons]
          exact ⟨⟨pm, hpm, rfl⟩, hq.times⟩
      obtain ⟨hholds', hmem⟩ := ih hholds (fun c hc => Finset.mem_insert_of_mem (hsub c hc)) h
      refine ⟨hholds', fun c => (hmem c).trans ?_⟩
      rw [Finset.mem_insert, List.mem_cons]
      tauto

end Queues

section Runs

variable {R : Remote O} {start : O} {want budget : ℕ} {w w' : Walk O} {gaveUp : Bool}
  {decide decide' : CommitMeta O → Except (ApiError O) (Bool × List O)} {visits : List (Visit O)}

/-- The commits popped so far: read and decided, each once, each the newest pending one. -/
structure Popped (R : Remote O) (decide : CommitMeta O → Except (ApiError O) (Bool × List O))
    (start : O) (visits : List (Visit O)) : Prop where
  read : ∀ v ∈ visits, R.commit v.oid = .ok v.info
  decided : ∀ v ∈ visits, decide v.info = .ok (v.shown, v.follow)
  once : (visits.map (·.oid)).Nodup
  newest : ∀ before v after, visits = before ++ v :: after → Pending start before v.oid ∧
    ∀ c m, Pending start before c → R.commit c = .ok m → m.commitTime ≤ v.info.commitTime

omit [DecidableEq O] in
theorem Popped.snoc {v : Visit O} (h : Popped R decide start visits)
    (hread : R.commit v.oid = .ok v.info) (hdecided : decide v.info = .ok (v.shown, v.follow))
    (hpending : Pending start visits v.oid) (hnewest : ∀ c m, Pending start visits c →
      R.commit c = .ok m → m.commitTime ≤ v.info.commitTime) :
    Popped R decide start (visits ++ [v]) where
  read := List.forall_mem_append.mpr ⟨h.read, List.forall_mem_singleton.mpr hread⟩
  decided := List.forall_mem_append.mpr ⟨h.decided, List.forall_mem_singleton.mpr hdecided⟩
  once := by
    rw [List.map_append, List.map_singleton, List.nodup_append]
    refine ⟨h.once, List.nodup_singleton _, fun c hc d hd heq => ?_⟩
    obtain ⟨u, hu, rfl⟩ := List.mem_map.mp hc
    exact hpending.2 u hu (heq.trans (List.mem_singleton.mp hd))
  newest before u after heq := by
    rcases List.eq_nil_or_concat after with rfl | ⟨after, x, rfl⟩
    · obtain ⟨rfl, hu⟩ := List.append_inj' heq rfl
      obtain rfl := (List.cons.inj hu).1
      exact ⟨hpending, hnewest⟩
    · rw [List.concat_eq_append, ← List.cons_append, ← List.append_assoc] at heq
      obtain ⟨rfl, -⟩ := List.append_inj' heq rfl
      exact h.newest before u after rfl

/-- What the loop keeps. -/
structure Walk.Ok (R : Remote O) (decide : CommitMeta O → Except (ApiError O) (Bool × List O))
    (start : O) (w : Walk O) : Prop where
  popped : Popped R decide start w.visits
  holds : w.toQueue.Holds R (w.visits.map (·.oid))
  seen : ∀ c, c ∈ w.seen ↔ c = start ∨ ∃ v ∈ w.visits, c ∈ v.follow
  out : w.out = shownOf w.visits

omit [DecidableEq O] in
theorem Walk.Ok.pending (h : w.Ok R decide start) {c : O} :
    c ∈ w.heap.map Timed.val ↔ Pending start w.visits c := by
  rw [h.holds.mem, h.seen, Pending, List.mem_map]
  refine and_congr_right fun _ => ?_
  exact ⟨fun hnot v hv heq => hnot ⟨v, hv, heq⟩, fun hnot ⟨v, hv, heq⟩ => hnot v hv heq⟩

omit [DecidableEq O] in
theorem ok_start {c : CommitMeta O} (hc : R.commit start = .ok c) :
    (Walk.start start c).Ok R decide start where
  popped := ⟨nofun, nofun, List.nodup_nil, fun before v after heq => by
    cases List.append_ne_nil_of_right_ne_nil before (List.cons_ne_nil v after) heq.symm⟩
  holds := ⟨fun d => by simp [Walk.start], by simp [Walk.start], fun i hi => by
    rw [List.mem_singleton.mp hi]
    exact ⟨c, hc, rfl⟩⟩
  seen d := by simp [Walk.start]
  out := rfl

variable {item : Timed O} {heap : List (Timed O)} {c : CommitMeta O} {d : Bool × List O}

omit [DecidableEq O] in
theorem Walk.Ok.pop {v : Visit O} (h : w.Ok R decide start)
    (hpop : pop w.heap = some (item, heap)) (hv : v.oid = item.val)
    (hread : R.commit v.oid = .ok v.info) (hd : decide v.info = .ok (v.shown, v.follow)) :
    Popped R decide start (w.visit heap v).visits ∧
      (w.visit heap v).toQueue.Holds R ((w.visit heap v).visits.map (·.oid)) ∧
      v.oid ∈ w.seen := by
  have hitem : item ∈ w.heap := (mem_pop hpop).mpr (.inl rfl)
  have hmem : v.oid ∈ w.heap.map Timed.val := hv ▸ List.mem_map_of_mem hitem
  have hperm := (pop_perm hpop).map Timed.val
  have hnodup := hperm.nodup_iff.mp h.holds.once
  rw [List.map_cons, List.nodup_cons] at hnodup
  have htime : v.info.commitTime = item.time := by
    obtain ⟨m, hm, ht⟩ := h.holds.times item hitem
    rw [hv] at hread
    rwa [← Except.ok.inj (hread.symm.trans hm)] at ht
  have hvisits : (w.visit heap v).visits.map (·.oid) = w.visits.map (·.oid) ++ [item.val] := by
    rw [← hv]
    exact List.map_append
  refine ⟨h.popped.snoc hread hd (h.pending.mp hmem) fun c m hc hm => ?_, ?_, ?_⟩
  · obtain ⟨i, hi, rfl⟩ := List.mem_map.mp (h.pending.mpr hc)
    obtain ⟨m', hm', ht⟩ := h.holds.times i hi
    rw [Except.ok.inj (hm.symm.trans hm'), ht, htime]
    exact pop_newest hpop hi
  · rw [hvisits]
    refine ⟨fun c => ?_, hnodup.2, fun i hi => h.holds.times i ((mem_pop hpop).mpr (.inr hi))⟩
    have hrest := hperm.mem_iff (a := c)
    rw [List.map_cons, List.mem_cons, h.holds.mem] at hrest
    change c ∈ heap.map Timed.val ↔ c ∈ w.seen ∧ _
    rw [List.mem_append, List.mem_singleton, not_or, ← and_assoc, hrest]
    grind
  · exact ((h.holds.mem v.oid).mp hmem).1

omit [DecidableEq O] in
theorem shownOf_snoc {v : Visit O} : shownOf (visits ++ [v]) =
    if v.shown then shownOf visits ++ [v.info] else shownOf visits := by
  rw [shownOf, List.filter_append, List.map_append]
  cases hshown : v.shown <;> simp [shownOf, hshown]

omit [DecidableEq O] in
theorem Walk.Ok.visit_out (h : w.Ok R decide start) (heap : List (Timed O)) (v : Visit O) :
    (w.visit heap v).out = shownOf (w.visit heap v).visits := by
  change (if v.shown then w.out ++ [v.info] else w.out) = shownOf (w.visits ++ [v])
  rw [shownOf_snoc, h.out]

theorem Walk.Ok.push {v : Visit O} {q : Queue O} (h : w.Ok R decide start)
    (hpop : NewestFirst.pop w.heap = some (item, heap)) (hv : v.oid = item.val)
    (hread : R.commit v.oid = .ok v.info) (hd : decide v.info = .ok (v.shown, v.follow))
    (hq : pushParents R.commit v.follow (w.visit heap v).toQueue = .ok q) :
    ({ w.visit heap v with toQueue := q } : Walk O).Ok R decide start := by
  obtain ⟨hpopped, hholds, hseen⟩ := h.pop hpop hv hread hd
  have hvisited : ∀ c ∈ (w.visit heap v).visits.map (·.oid), c ∈ (w.visit heap v).seen := by
    intro c hc
    rw [List.mem_map] at hc
    obtain ⟨u, hu, rfl⟩ := hc
    rcases List.mem_append.mp hu with hu | hu
    · obtain ⟨before, after, heq⟩ := List.append_of_mem hu
      have hpending := (h.popped.newest before u after heq).1.1
      refine (h.seen u.oid).mpr (hpending.imp_right fun ⟨x, hx, hmem⟩ => ⟨x, ?_, hmem⟩)
      rw [heq]
      exact List.mem_append_left _ hx
    · rw [List.mem_singleton.mp hu]
      exact hseen
  obtain ⟨hholds', hmem⟩ := pushParents_ok hholds hvisited hq
  refine ⟨hpopped, hholds', fun c => ?_, h.visit_out heap v⟩
  refine (hmem c).trans ?_
  change c ∈ w.seen ∨ c ∈ v.follow ↔ c = start ∨ ∃ u ∈ w.visits ++ [v], c ∈ u.follow
  rw [h.seen, or_assoc]
  simp only [List.mem_append, List.mem_singleton, or_and_right, exists_or, exists_eq_left]

omit [DecidableEq O] in
theorem Walk.Ok.ended (h : w.Ok R decide start) (hnone : NewestFirst.pop w.heap = none) (c : O) :
    ¬ Pending start w.visits c := by
  intro hc
  have hmem := h.pending.mpr hc
  rw [NewestFirst.pop_eq_none.mp hnone] at hmem
  cases hmem

theorem walkLoop_ok (hok : w.Ok R decide start) (hwant : w.out.length < want)
    (h : walkLoop R.commit R.commit decide want budget w = .ok (w', gaveUp)) :
    Popped R decide start w'.visits ∧ w'.out = shownOf w'.visits ∧
      (gaveUp = false → w'.out.length = want ∨
        w'.out.length < want ∧ ∀ c, ¬ Pending start w'.visits c) := by
  induction budget generalizing w with
  | zero =>
    rw [walkLoop] at h
    split at h
    · next hnone =>
      cases h
      exact ⟨hok.popped, hok.out, fun _ => .inr ⟨hwant, hok.ended hnone⟩⟩
    · cases h
      exact ⟨hok.popped, hok.out, nofun⟩
  | succ budget ih =>
    rw [walkLoop] at h
    split at h
    · next hnone =>
      cases h
      exact ⟨hok.popped, hok.out, fun _ => .inr ⟨hwant, hok.ended hnone⟩⟩
    · next item heap hpop =>
      obtain ⟨c, hc, h⟩ := bind_eq_ok h
      obtain ⟨d, hd, h⟩ := bind_eq_ok h
      have hlength : (w.visit heap ⟨item.val, c, d.1, d.2⟩).out.length =
          w.out.length + if d.1 then 1 else 0 := by
        change (if d.1 then w.out ++ [c] else w.out).length = _
        split_ifs <;> simp
      dsimp only at h
      split_ifs at h with henough
      · cases h
        obtain ⟨hpopped, -, -⟩ := hok.pop (v := ⟨item.val, c, d.1, d.2⟩) hpop rfl hc hd
        refine ⟨hpopped, hok.visit_out heap _, fun _ => .inl ?_⟩
        rw [if_pos henough.1] at hlength
        omega
      · obtain ⟨q, hq, h⟩ := bind_eq_ok h
        have hok' := hok.push (v := ⟨item.val, c, d.1, d.2⟩) hpop rfl hc hd hq
        refine ih hok' ?_ h
        change (w.visit heap ⟨item.val, c, d.1, d.2⟩).out.length < want
        rw [not_and, not_le] at henough
        split_ifs at hlength with hshown
        · exact henough hshown
        · omega

end Runs

section Agreement

variable {R : Remote O} {start : O} {want budget : ℕ} {w w' : Walk O} {gaveUp : Bool}
  {decide decide' : CommitMeta O → Except (ApiError O) (Bool × List O)}

theorem walkLoop_visits (h : walkLoop R.commit R.commit decide want budget w = .ok (w', gaveUp)) :
    ∀ v ∈ w.visits, v ∈ w'.visits := by
  induction budget generalizing w with
  | zero =>
    rw [walkLoop] at h
    split at h <;> cases h <;> exact fun _ hv => hv
  | succ budget ih =>
    rw [walkLoop] at h
    split at h
    · cases h
      exact fun _ hv => hv
    · obtain ⟨c, hc, h⟩ := bind_eq_ok h
      obtain ⟨d, hd, h⟩ := bind_eq_ok h
      intro v hv
      dsimp only at h
      split_ifs at h
      · cases h
        exact List.mem_append_left _ hv
      · obtain ⟨q, hq, h⟩ := bind_eq_ok h
        exact ih h v (List.mem_append_left _ hv)

theorem walkLoop_congr (h : walkLoop R.commit R.commit decide want budget w = .ok (w', gaveUp))
    (hdecide : ∀ v ∈ w'.visits, decide' v.info = .ok (v.shown, v.follow)) :
    walkLoop R.commit R.commit decide' want budget w = .ok (w', gaveUp) := by
  induction budget generalizing w with
  | zero =>
    rw [walkLoop] at h ⊢
    exact h
  | succ budget ih =>
    rw [walkLoop] at h ⊢
    split at h
    · exact h
    · next item heap hpop =>
      obtain ⟨c, hc, h⟩ := bind_eq_ok h
      obtain ⟨d, hd, h⟩ := bind_eq_ok h
      have hmem : (⟨item.val, c, d.1, d.2⟩ : Visit O) ∈ w'.visits := by
        dsimp only at h
        split_ifs at h
        · cases h
          exact List.mem_append_right _ (List.mem_singleton_self _)
        · obtain ⟨q, hq, h⟩ := bind_eq_ok h
          exact walkLoop_visits h _ (List.mem_append_right _ (List.mem_singleton_self _))
      have hd' : decide' c = .ok d := hdecide _ hmem
      simp only [hc, hd', ok_bind]
      dsimp only at h
      split_ifs at h ⊢
      · exact h
      · obtain ⟨q, hq, h⟩ := bind_eq_ok h
        rw [hq, ok_bind]
        exact ih h

end Agreement

section Decisions

variable {R : Remote O} {path : List Char} {c : CommitMeta O} {ps : List O} {par : O}
  {cur : O} {mode : EntryMode} {segs : List Bytes} {κ : Type} [DecidableEq κ]
  {look : O → Except (ApiError O) (Option κ)} {mine : Option κ}
  {shown shown' : Bool} {follow follow' : List O}

/-- The parent is found to have what the commit has. -/
def SameBy (R : Remote O) (look : O → Except (ApiError O) (Option κ)) (mine : Option κ) (par : O) :
    Prop :=
  ∃ pm, R.commit par = .ok pm ∧ look pm.tree = .ok mine

omit [DecidableEq O] in
theorem treesameParent_some (h : treesameParent R.commit look mine ps = .ok (some par)) :
    SameBy R look mine par ∧ ∃ before after, ps = before ++ par :: after ∧
      ∀ q ∈ before, ¬ SameBy R look mine q := by
  induction ps with
  | nil => cases h
  | cons q ps ih =>
    obtain ⟨pm, hpm, h⟩ := bind_eq_ok h
    obtain ⟨theirs, htheirs, h⟩ := bind_eq_ok h
    split_ifs at h with heq
    · cases h
      exact ⟨⟨pm, hpm, heq ▸ htheirs⟩, [], ps, rfl, nofun⟩
    · obtain ⟨hsame, before, after, rfl, hbefore⟩ := ih h
      refine ⟨hsame, q :: before, after, rfl, List.forall_mem_cons.mpr ⟨?_, hbefore⟩⟩
      rintro ⟨pm', hpm', hmine⟩
      obtain rfl := Except.ok.inj (hpm.symm.trans hpm')
      exact heq (Except.ok.inj (htheirs.symm.trans hmine))

omit [DecidableEq O] in
theorem treesameParent_none (h : treesameParent R.commit look mine ps = .ok none) :
    ∀ q ∈ ps, ¬ SameBy R look mine q := by
  induction ps with
  | nil => exact nofun
  | cons q ps ih =>
    obtain ⟨pm, hpm, h⟩ := bind_eq_ok h
    obtain ⟨theirs, htheirs, h⟩ := bind_eq_ok h
    split_ifs at h with heq
    · cases h
    · refine List.forall_mem_cons.mpr ⟨?_, ih h⟩
      rintro ⟨pm', hpm', hmine⟩
      obtain rfl := Except.ok.inj (hpm.symm.trans hpm')
      exact heq (Except.ok.inj (htheirs.symm.trans hmine))

theorem gitDecide_ok {path : Option (List Char)} (h : gitDecide R path c = .ok (shown, follow)) :
    Simplified R path c shown follow := by
  cases path with
  | none =>
    cases h
    exact .whole c
  | some p =>
    obtain ⟨mine, hmine, h⟩ := bind_eq_ok h
    have hsame : ∀ q, Treesame R p c q ↔ SameBy R (entryAt R p) mine q := fun q => by
      refine exists_congr fun pm => and_congr_right fun _ => ?_
      refine ⟨fun ⟨e, he, hpm⟩ => ?_, fun h => ⟨mine, hmine, h⟩⟩
      rwa [← Except.ok.inj (he.symm.trans hmine)]
    split_ifs at h with hroot
    · cases h
      rw [hroot]
      exact .root p c mine hroot hmine
    · obtain ⟨tp, htp, h⟩ := bind_eq_ok h
      cases tp with
      | none =>
        cases h
        exact .changed p c hroot fun q hq hq' => treesameParent_none htp q hq ((hsame q).mp hq')
      | some q =>
        cases h
        obtain ⟨hq, before, after, hps, hbefore⟩ := treesameParent_some htp
        exact .treesame p c before after q hps
          (fun q' hq' h => hbefore q' hq' ((hsame q').mp h)) ((hsame q).mpr hq)

omit [DecidableEq O] in
theorem Simplified.follow_sub {path : Option (List Char)} (h : Simplified R path c shown follow) :
    ∀ q ∈ follow, q ∈ c.parents := by
  cases h with
  | whole => exact fun _ hq => hq
  | root p c e hroot he => exact nofun
  | changed => exact fun _ hq => hq
  | treesame p c before after par hps hbefore hpar =>
    intro q hq
    rw [hps, List.mem_singleton.mp hq]
    exact List.mem_append_right _ List.mem_cons_self

omit [DecidableEq O] in
theorem Simplified.unique {path : Option (List Char)} (h : Simplified R path c shown follow)
    (h' : Simplified R path c shown' follow') : (shown, follow) = (shown', follow') := by
  classical
  cases h with
  | whole =>
    cases h'
    rfl
  | root p c e hroot he =>
    cases h' with
    | root _ _ e' _ he' => rw [Except.ok.inj (he.symm.trans he')]
    | changed _ _ hne => exact absurd hroot hne
    | treesame _ _ before after par hps =>
      rw [hroot] at hps
      cases List.append_ne_nil_of_right_ne_nil before (List.cons_ne_nil par after) hps.symm
  | changed p c hne hdiff =>
    cases h' with
    | root _ _ _ hroot => exact absurd hroot hne
    | changed => rfl
    | treesame _ _ before after par hps _ hpar =>
      refine absurd hpar (hdiff par ?_)
      rw [hps]
      exact List.mem_append_right _ List.mem_cons_self
  | treesame p c before after par hps hbefore hpar =>
    cases h' with
    | root _ _ _ hroot =>
      rw [hroot] at hps
      cases List.append_ne_nil_of_right_ne_nil before (List.cons_ne_nil par after) hps.symm
    | changed _ _ _ hdiff =>
      refine absurd hpar (hdiff par ?_)
      rw [hps]
      exact List.mem_append_right _ List.mem_cons_self
    | treesame _ _ before' after' par' hps' hbefore' hpar' =>
      have hfind : ∀ b a q, c.parents = b ++ q :: a → (∀ x ∈ b, ¬ Treesame R p c x) →
          Treesame R p c q → c.parents.find? (fun x => Treesame R p c x) = some q := by
        intro b a q hq hb hsame
        exact List.find?_eq_some_iff_append.mpr
          ⟨by simpa using hsame, b, a, hq, fun x hx => by simpa using hb x hx⟩
      have heq := (hfind _ _ _ hps hbefore hpar).symm.trans (hfind _ _ _ hps' hbefore' hpar')
      rw [Option.some.inj heq]

end Decisions

section Lookups

variable {R : Remote O} {path : List Char} {c : CommitMeta O} {ps : List O} {par : O}
  {cur : O} {mode : EntryMode} {segs : List Bytes} {mine : Option (O × EntryMode)}

omit [DecidableEq O]

/-- Where the path does not go on below a file the code finds what git does. -/
theorem lookupSegs_eq (h : ¬ RunsThrough R cur mode segs) :
    lookupSegs R cur mode segs = entrySegs R cur mode segs := by
  induction segs generalizing cur mode with
  | nil => rfl
  | cons seg segs ih =>
    rw [RunsThrough, not_or, Bool.not_eq_false] at h
    rw [lookupSegs, entrySegs, if_neg (Bool.not_eq_false _ ▸ h.1)]
    cases hes : R.treeEntries cur with
    | error e => rfl
    | ok es =>
      rw [ok_bind, ok_bind]
      cases he : es.find? (·.name = seg) with
      | none => rfl
      | some e => exact ih fun hrun => h.2 ⟨es, e, hes, he, hrun⟩

/-- Where it does, the code fails. -/
theorem lookupSegs_error (hR : LeavesNoTrees R)
    (hcur : mode.isTree = false → ∀ es, R.treeEntries cur ≠ .ok es)
    (h : RunsThrough R cur mode segs) : ∃ e, lookupSegs R cur mode segs = .error e := by
  induction segs generalizing cur mode with
  | nil => exact h.elim
  | cons seg segs ih =>
    rw [lookupSegs]
    cases hes : R.treeEntries cur with
    | error e => exact ⟨e, rfl⟩
    | ok es =>
      rcases h with hmode | ⟨es', e, hes', he, hrun⟩
      · exact absurd hes (hcur hmode es)
      · obtain rfl := Except.ok.inj (hes.symm.trans hes')
        rw [ok_bind, he]
        exact ih (hR cur es hes e (List.mem_of_find?_eq_some he)) hrun

theorem oidAt_eq (h : ¬ RunsThrough R cur .tree (segments path)) :
    oidAt R path cur = (entryAt R path cur).map (Option.map Prod.fst) := by
  rw [oidAt, Remote.lookupPath, lookupSegs_eq h, entryAt]

theorem oidAt_error (hR : LeavesNoTrees R) (h : RunsThrough R cur .tree (segments path)) :
    ∃ e, oidAt R path cur = .error e := by
  obtain ⟨e, he⟩ := lookupSegs_error hR (fun h => absurd h (by decide)) h
  exact ⟨e, by rw [oidAt, Remote.lookupPath, he]; rfl⟩

variable [DecidableEq O]

theorem treesameParent_plain (h : PlainParents R path mine ps) :
    treesameParent R.commit (oidAt R path) (mine.map Prod.fst) ps =
      treesameParent R.commit (entryAt R path) mine ps := by
  induction ps with
  | nil => rfl
  | cons par ps ih =>
    rw [treesameParent, treesameParent]
    cases hpm : R.commit par with
    | error e => rfl
    | ok pm =>
      obtain ⟨hrun, hplain⟩ := h pm hpm
      rw [ok_bind, ok_bind, oidAt_eq hrun]
      cases htheirs : entryAt R path pm.tree with
      | error e => rfl
      | ok theirs =>
        change (if theirs.map Prod.fst = mine.map Prod.fst then _ else _) =
          if theirs = mine then _ else _
        by_cases heq : theirs = mine
        · rw [if_pos heq, if_pos (congrArg _ heq)]
        · obtain ⟨hoid, hps⟩ := hplain theirs htheirs heq
          rw [if_neg heq, if_neg hoid, ih hps]

theorem decideRead_plain (h : Plain R path c) :
    decideRead R (some path) c = gitDecide R (some path) c := by
  rw [decideRead, gitDecide, simplify, simplify, oidAt_eq h.1]
  cases hmine : entryAt R path c.tree with
  | error e => rfl
  | ok mine =>
    change (if c.parents = [] then _ else _) = if c.parents = [] then _ else _
    rw [Option.isSome_map, treesameParent_plain (h.2 mine hmine)]

theorem plainParents_of_agree (hR : LeavesNoTrees R) {r : Option O}
    (hcode : treesameParent R.commit (oidAt R path) (mine.map Prod.fst) ps = .ok r)
    (hgit : treesameParent R.commit (entryAt R path) mine ps = .ok r) :
    PlainParents R path mine ps := by
  induction ps with
  | nil => trivial
  | cons par ps ih =>
    intro pm hpm
    obtain ⟨pm', hpm', hcode⟩ := bind_eq_ok hcode
    obtain rfl := Except.ok.inj (hpm.symm.trans hpm')
    obtain ⟨oid, hoid, hcode⟩ := bind_eq_ok hcode
    have hrun : ¬ RunsThrough R pm.tree .tree (segments path) := fun hrun => by
      obtain ⟨e, he⟩ := oidAt_error hR hrun
      cases he.symm.trans hoid
    refine ⟨hrun, fun theirs htheirs hne => ?_⟩
    rw [oidAt_eq hrun, htheirs] at hoid
    obtain rfl : theirs.map Prod.fst = oid := Except.ok.inj hoid
    rw [treesameParent, hpm, ok_bind, htheirs, ok_bind, if_neg hne] at hgit
    split_ifs at hcode with heq
    · cases hcode
      obtain ⟨⟨pm', hpm', hsame⟩, -⟩ := treesameParent_some hgit
      obtain rfl := Except.ok.inj (hpm.symm.trans hpm')
      exact absurd (Except.ok.inj (htheirs.symm.trans hsame)) hne
    · exact ⟨heq, ih hcode hgit⟩

theorem plain_of_agree (hR : LeavesNoTrees R) {d : Bool × List O}
    (hcode : decideRead R (some path) c = .ok d) (hgit : gitDecide R (some path) c = .ok d) :
    Plain R path c := by
  obtain ⟨oid, hoid, hcode⟩ := bind_eq_ok hcode
  have hrun : ¬ RunsThrough R c.tree .tree (segments path) := fun hrun => by
    obtain ⟨e, he⟩ := oidAt_error hR hrun
    cases he.symm.trans hoid
  refine ⟨hrun, fun mine hmine => ?_⟩
  rw [oidAt_eq hrun, hmine] at hoid
  obtain rfl : mine.map Prod.fst = oid := Except.ok.inj hoid
  rw [gitDecide, simplify, hmine, ok_bind] at hgit
  split_ifs at hcode hgit with hroot
  · rw [hroot]
    trivial
  · obtain ⟨tp, htp, hcode⟩ := bind_eq_ok hcode
    obtain ⟨tp', htp', hgit⟩ := bind_eq_ok hgit
    have heq : tp = tp' := by
      have hd := Except.ok.inj (hcode.trans hgit.symm)
      cases tp with
      | none =>
        cases tp' with
        | none => rfl
        | some q => cases congrArg Prod.fst hd
      | some q =>
        cases tp' with
        | none => cases congrArg Prod.fst hd
        | some q' => rw [List.head_eq_of_cons_eq (congrArg Prod.snd hd)]
    rw [heq] at htp
    exact plainParents_of_agree hR htp htp'

end Lookups

section Meets

variable {R : Remote O} {start : O} {path : Option (List Char)} {want budget : ℕ} {w w' : Walk O}
  {visits : List (Visit O)} {ps : List O} {q : Queue O}

theorem pushParents_total (h : ∀ p ∈ ps, ∃ m, R.commit p = .ok m) :
    ∃ q', pushParents R.commit ps q = .ok q' ∧ ∀ i ∈ q'.heap, i ∈ q.heap ∨ i.val ∈ ps := by
  induction ps generalizing q with
  | nil => exact ⟨q, rfl, fun _ hi => .inl hi⟩
  | cons par ps ih =>
    rw [List.forall_mem_cons] at h
    rw [pushParents]
    split_ifs
    · obtain ⟨q', hq', hmem⟩ := ih (q := q) h.2
      exact ⟨q', hq', fun i hi => (hmem i hi).imp_right (List.mem_cons_of_mem par)⟩
    · obtain ⟨pm, hpm⟩ := h.1
      rw [hpm, ok_bind]
      obtain ⟨q', hq', hmem⟩ := ih (q := ⟨⟨pm.commitTime, q.seq + 1, par⟩ :: q.heap,
        insert par q.seen, q.seq + 1⟩) h.2
      refine ⟨q', hq', fun i hi => ?_⟩
      rcases hmem i hi with hi | hi
      · rcases List.mem_cons.mp hi with rfl | hi
        · exact .inr List.mem_cons_self
        · exact .inl hi
      · exact .inr (List.mem_cons_of_mem par hi)

theorem treesameParent_total {p : List Char} (mine : Option (O × EntryMode))
    (h : ∀ q ∈ ps, ∃ m, R.commit q = .ok m ∧ ∃ e, entryAt R p m.tree = .ok e) :
    ∃ r, treesameParent R.commit (entryAt R p) mine ps = .ok r := by
  induction ps with
  | nil => exact ⟨none, rfl⟩
  | cons par ps ih =>
    rw [List.forall_mem_cons] at h
    obtain ⟨pm, hpm, e, he⟩ := h.1
    rw [treesameParent, hpm, ok_bind, he, ok_bind]
    split_ifs
    · exact ⟨some par, rfl⟩
    · exact ih h.2

theorem gitDecide_total (hpres : Present R start path) {c : O} {m : CommitMeta O}
    (hc : Ancestor R start c) (hm : R.commit c = .ok m) : ∃ d, gitDecide R path m = .ok d := by
  cases path with
  | none => exact ⟨_, rfl⟩
  | some p =>
    obtain ⟨m', hm', hpath⟩ := hpres c hc
    obtain rfl := Except.ok.inj (hm.symm.trans hm')
    obtain ⟨mine, hmine⟩ := hpath p rfl
    have hparents : ∀ q ∈ m.parents, ∃ m, R.commit q = .ok m ∧ ∃ e, entryAt R p m.tree = .ok e := by
      intro q hq
      obtain ⟨pm, hpm, hpath⟩ := hpres q (hc.tail ⟨m, hm, hq⟩)
      exact ⟨pm, hpm, hpath p rfl⟩
    obtain ⟨tp, htp⟩ := treesameParent_total mine hparents
    rw [gitDecide, simplify, hmine, ok_bind]
    split_ifs
    · exact ⟨_, rfl⟩
    · rw [htp, ok_bind]
      exact ⟨_, rfl⟩

theorem gitLoop_total (hpres : Present R start path)
    (hanc : ∀ i ∈ w.heap, Ancestor R start i.val) :
    ∃ r, walkLoop R.commit R.commit (gitDecide R path) want budget w = .ok r := by
  induction budget generalizing w with
  | zero =>
    rw [walkLoop]
    split <;> exact ⟨_, rfl⟩
  | succ budget ih =>
    rw [walkLoop]
    split
    · exact ⟨_, rfl⟩
    · next item heap hpop =>
      have hitem := hanc item ((mem_pop hpop).mpr (.inl rfl))
      obtain ⟨c, hc, -⟩ := hpres item.val hitem
      obtain ⟨d, hd⟩ := gitDecide_total hpres hitem hc
      simp only [hc, hd, ok_bind]
      split_ifs
      · exact ⟨_, rfl⟩
      · have hfollow : ∀ p ∈ d.2, Ancestor R start p := fun p hp =>
          hitem.tail ⟨c, hc, (gitDecide_ok hd).follow_sub p hp⟩
        obtain ⟨q, hq, hmem⟩ := pushParents_total
          (q := (w.visit heap ⟨item.val, c, d.1, d.2⟩).toQueue) fun p hp =>
            (hpres p (hfollow p hp)).imp fun _ h => h.1
        rw [hq, ok_bind]
        refine ih fun i hi => ?_
        rcases hmem i hi with hi | hi
        · exact hanc i ((mem_pop hpop).mpr (.inr hi))
        · exact hfollow i.val hi

omit [DecidableEq O] in
theorem PathHistory.ancestor (h : PathHistory R start path want visits) {v : Visit O}
    (hv : v ∈ visits) : Ancestor R start v.oid := by
  obtain ⟨before, after, heq⟩ := List.append_of_mem hv
  induction hn : before.length using Nat.strong_induction_on generalizing before v after with
  | _ n ih =>
    rcases (h.newest before v after heq).1.1 with hstart | ⟨u, hu, hfollow⟩
    · rw [hstart]
      exact .refl
    · obtain ⟨before', after', rfl⟩ := List.append_of_mem hu
      have hu' : u ∈ visits := by
        rw [heq]
        exact List.mem_append_left _ hu
      have hlt : before'.length < n := by
        rw [← hn, List.length_append, List.length_cons]
        omega
      refine (ih _ hlt hu' before' (after' ++ v :: after) ?_ rfl).tail
        ⟨u.info, h.read u hu', (h.simplified u hu').follow_sub v.oid hfollow⟩
      rw [heq, List.append_assoc, List.cons_append]

/-- The walk gives what git's history of the path shows, as many as are wanted. -/
def GivesHistory (R : Remote O) (start : O) (path : Option (List Char)) (want budget : ℕ) : Prop :=
  ∃ w, walkRun R start path want budget = .ok (w, false) ∧
    PathHistory R start path want w.visits ∧
    walkBounded R start path want budget = .ok (shownOf w.visits)

/-- The path is plain in all commits that git pops. -/
def PlainHistory (R : Remote O) (start : O) (path : Option (List Char)) (want budget : ℕ) : Prop :=
  ∀ p ∈ path, ∀ w gaveUp, gitWalk R start path want budget = .ok (w, gaveUp) →
    ∀ v ∈ w.visits, Plain R p v.info

theorem walkRun_popped {gaveUp : Bool} (hwant : 0 < want)
    (h : walkRun R start path want budget = .ok (w, gaveUp)) :
    Popped R (decideRead R path) start w.visits ∧ w.out = shownOf w.visits ∧
      (gaveUp = false → w.out.length = want ∨
        w.out.length < want ∧ ∀ c, ¬ Pending start w.visits c) := by
  rw [walkRun_eq] at h
  obtain ⟨c, hc, h⟩ := bind_eq_ok h
  exact walkLoop_ok (ok_start hc) hwant h

theorem meets_of_plain (hwant : 0 < want) (hpres : Present R start path)
    (hin : ∀ w, walkRun R start path want budget ≠ .ok (w, true))
    (hplain : PlainHistory R start path want budget) : GivesHistory R start path want budget := by
  obtain ⟨c, hc, -⟩ := hpres start .refl
  obtain ⟨⟨w, gaveUp⟩, hgit⟩ : ∃ r,
      walkLoop R.commit R.commit (gitDecide R path) want budget (.start start c) = .ok r := by
    refine gitLoop_total hpres fun i hi => ?_
    rw [List.mem_singleton.mp hi]
    exact .refl
  have hgitWalk : gitWalk R start path want budget = .ok (w, gaveUp) := by
    rw [gitWalk, hc, ok_bind, hgit]
  have hpopped := (walkLoop_ok (ok_start hc) hwant hgit).1
  have hrun : walkRun R start path want budget = .ok (w, gaveUp) := by
    rw [walkRun_eq, hc, ok_bind]
    refine walkLoop_congr hgit fun v hv => ?_
    rw [← hpopped.decided v hv]
    cases path with
    | none => rfl
    | some p => exact decideRead_plain (hplain p rfl w gaveUp hgitWalk v hv)
  obtain rfl : gaveUp = false := by
    cases gaveUp with
    | false => rfl
    | true => exact absurd hrun (hin w)
  obtain ⟨-, hout, hend⟩ := walkRun_popped hwant hrun
  refine ⟨w, hrun, ⟨hpopped.read, fun v hv => gitDecide_ok (hpopped.decided v hv), hpopped.once,
    hpopped.newest, hout ▸ hend rfl⟩, ?_⟩
  rw [walkBounded, hrun, ← hout]
  rfl

theorem plain_of_meets (hwant : 0 < want) (hpres : Present R start path) (hR : LeavesNoTrees R)
    (h : GivesHistory R start path want budget) : PlainHistory R start path want budget := by
  obtain ⟨w, hrun, hhistory, -⟩ := h
  have hpopped := (walkRun_popped hwant hrun).1
  have hdecide : ∀ v ∈ w.visits, gitDecide R path v.info = .ok (v.shown, v.follow) := by
    intro v hv
    obtain ⟨d, hd⟩ := gitDecide_total hpres (hhistory.ancestor hv) (hhistory.read v hv)
    exact hd.trans (congrArg _ ((gitDecide_ok hd).unique (hhistory.simplified v hv)))
  rw [walkRun_eq] at hrun
  obtain ⟨c, hc, hrun⟩ := bind_eq_ok hrun
  have hgit : gitWalk R start path want budget = .ok (w, false) := by
    rw [gitWalk, hc, ok_bind]
    exact walkLoop_congr hrun hdecide
  rintro p rfl w' gaveUp hgit' v hv
  obtain ⟨rfl, -⟩ := Prod.mk.inj (Except.ok.inj (hgit.symm.trans hgit'))
  exact plain_of_agree hR (hpopped.decided v hv) (hdecide v hv)

/-- Within its budget the walk gives git's history of the path where the path is plain in all
that git pops, and only there when nothing but directories names trees. -/
theorem walk_meets_iff (hwant : 0 < want) (hpres : Present R start path)
    (hin : ∀ w, walkRun R start path want budget ≠ .ok (w, true)) :
    (PlainHistory R start path want budget → GivesHistory R start path want budget) ∧
      (LeavesNoTrees R →
        (GivesHistory R start path want budget ↔ PlainHistory R start path want budget)) :=
  ⟨meets_of_plain hwant hpres hin, fun hR =>
    ⟨plain_of_meets hwant hpres hR, meets_of_plain hwant hpres hin⟩⟩

end Meets

section Examples

/-- Two contents of a file, and the commits of them. -/
def editItems : List Item :=
  [.blob, .blob, .tree [⟨[102], 0, ⟨0o100644⟩⟩], .tree [⟨[102], 1, ⟨0o100644⟩⟩],
    bareCommit 4 2 [] 10, bareCommit 5 3 [4] 20]

/-- A file that is made executable, and nothing else. -/
def executableItems : List Item :=
  [.blob, .tree [⟨[102], 0, ⟨0o100644⟩⟩], .tree [⟨[102], 0, ⟨0o100755⟩⟩], bareCommit 3 1 [] 10,
    bareCommit 4 2 [3] 20]

/-- The path `f`. -/
def fPath : List Char := ['f']

theorem segments_fPath : segments fPath = [[102]] := by decide

theorem not_runsThrough_name {items : List Item} {t : ℕ} {n : Bytes} :
    ¬ RunsThrough (ofItems items) t .tree [n] := by
  rintro (h | ⟨es, e, -, -, h⟩)
  · exact absurd h (by decide)
  · exact h

theorem present_ofItems {items : List Item} {S : List ℕ} {start : ℕ} {p : List Char}
    (hS : ∀ y ∈ S, ∀ q ∈ parentsAt items y, q ∈ S) (hstart : start ∈ S)
    (hread : ∀ c ∈ S, ∃ m, items[c]? = some (.commit m) ∧
      ∃ e, entryAt (ofItems items) p m.tree = .ok e) :
    Present (ofItems items) start (some p) := by
  intro c hc
  obtain ⟨m, hm, he⟩ := hread c (ancestor_mem hS hstart hc)
  refine ⟨m, commit_ofItems.mpr hm, fun q hq => ?_⟩
  rwa [← Option.some.inj hq]

theorem editItems_present : Present (ofItems editItems) 5 (some fPath) := by
  refine present_ofItems (S := [4, 5]) (by decide) (by decide) (List.forall_mem_cons.mpr ⟨?_, ?_⟩)
  · exact ⟨_, rfl, _, rfl⟩
  · exact List.forall_mem_singleton.mpr ⟨_, rfl, _, rfl⟩

theorem executableItems_present : Present (ofItems executableItems) 4 (some fPath) := by
  refine present_ofItems (S := [3, 4]) (by decide) (by decide) (List.forall_mem_cons.mpr ⟨?_, ?_⟩)
  · exact ⟨_, rfl, _, rfl⟩
  · exact List.forall_mem_singleton.mpr ⟨_, rfl, _, rfl⟩

theorem editItems_plain : PlainHistory (ofItems editItems) 5 (some fPath) 5 10 := by
  intro p hp w gaveUp h
  obtain rfl := Option.some.inj hp
  obtain ⟨w', hgit, hvisits⟩ : ∃ w',
      gitWalk (ofItems editItems) 5 (some fPath) 5 10 = .ok (w', false) ∧
        w'.visits = [⟨5, ⟨5, 3, [4], "", "", "", "", "", 20, "", ""⟩, true, [4]⟩,
          ⟨4, ⟨4, 2, [], "", "", "", "", "", 10, "", ""⟩, true, []⟩] := ⟨_, rfl, rfl⟩
  obtain ⟨rfl, -⟩ := Prod.mk.inj (Except.ok.inj (hgit.symm.trans h))
  rw [hvisits, List.forall_mem_cons, List.forall_mem_singleton]
  have hrun : ∀ t, ¬ RunsThrough (ofItems editItems) t .tree (segments fPath) := fun t => by
    rw [segments_fPath]
    exact not_runsThrough_name
  refine ⟨⟨hrun _, fun mine hmine pm hpm => ⟨hrun _, fun theirs htheirs _ => ⟨?_, trivial⟩⟩⟩,
    hrun _, fun _ _ => trivial⟩
  obtain rfl := Except.ok.inj hmine
  cases hpm
  obtain rfl := Except.ok.inj htheirs
  decide

/-- Both commits of a file that is edited. -/
theorem walk_meets_iff_edit : GivesHistory (ofItems editItems) 5 (some fPath) 5 10 :=
  (walk_meets_iff (by decide) editItems_present fun w h => by cases h).1 editItems_plain

/-- The commit that makes the file executable is not shown. -/
theorem mode_change_not_shown :
    Present (ofItems executableItems) 4 (some fPath) ∧
      (∀ w, walkRun (ofItems executableItems) 4 (some fPath) 5 10 ≠ .ok (w, true)) ∧
      walk (ofItems executableItems) 4 (some fPath) 5 10 =
        .ok [⟨3, 1, [], "", "", "", "", "", 10, "", ""⟩] ∧
      ¬ GivesHistory (ofItems executableItems) 4 (some fPath) 5 10 := by
  refine ⟨executableItems_present, fun w h => (by cases h), rfl, ?_⟩
  rintro ⟨w, hrun, hhistory, -⟩
  have hpopped : (⟨4, ⟨4, 2, [3], "", "", "", "", "", 20, "", ""⟩, false, [3]⟩ : Visit ℕ) ∈
      w.visits := by
    cases hrun
    exact List.mem_cons_self
  have hgit : gitDecide (ofItems executableItems) (some fPath)
      ⟨4, 2, [3], "", "", "", "", "", 20, "", ""⟩ = .ok (true, [3]) := rfl
  cases congrArg Prod.fst ((gitDecide_ok hgit).unique (hhistory.simplified _ hpopped))

/-- A path that runs through the file. -/
example : walk (ofItems executableItems) 4 (some ['f', '/', 'g']) 5 10 = .error (.notTree 0) := rfl

end Examples

end Walgit.Web
