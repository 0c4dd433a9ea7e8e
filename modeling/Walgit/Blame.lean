import Walgit.HistoryWalk

/-!
# Faulting what a blame reads

A blame follows a file from commit to parent under its path, and where a parent
does not have the path, under every path at which the parent has the content of
the file. The commits, the trees along the paths and the contents are written to
the local store.
-/

namespace Walgit.Web

open NewestFirst (Timed pop mem_pop)

variable {O : Type} [DecidableEq O]

section Code

variable (R : Remote O)

/-- Below a tree that is stored: the trees along the path, and the entry at its end. -/
def faultSegs (commit : O) (path : List Char) : O → EntryMode → List Bytes → LocalStore O →
    LocalStore O × Except (ApiError O) (O × EntryMode)
  | cur, mode, [], st => (st, .ok (cur, mode))
  | cur, _, seg :: segs, st =>
    match R.treeEntries cur with
    | .error err => (st, .error err)
    | .ok es =>
      match es.find? (·.name = seg) with
      | none => (st, .error (.pathMissing (.ofList path) commit))
      | some e =>
        if e.mode.isTree then
          match R.fault e.oid st with
          | .error err => (st, .error err)
          | .ok st => faultSegs commit path e.oid e.mode segs st
        else if segs ≠ [] then (st, .error (.pathMissing (.ofList path) commit))
        else (st, .ok (e.oid, e.mode))

/-- What is stored before it fails stays in the store. -/
def faultPath (commit : O) (path : List Char) (st : LocalStore O) :
    LocalStore O × Except (ApiError O) (CommitMeta O × O × EntryMode) :=
  match R.commit commit with
  | .error err => (st, .error err)
  | .ok c =>
    match R.fault commit st with
    | .error err => (st, .error err)
    | .ok st =>
      match R.fault c.tree st with
      | .error err => (st, .error err)
      | .ok st =>
        let r := faultSegs R commit path c.tree .tree (segments path) st
        (r.1, r.2.map fun target => (c, target))

def faultTarget (target : O × EntryMode) (st : LocalStore O) :
    Except (ApiError O) (LocalStore O) :=
  if target.2.isBlobOrSymlink then R.fault target.1 st else .ok st

/-- The trees still to be read, all that were pushed, and the names found. -/
structure Skeleton (O : Type) where
  frontier : List (List Char × O)
  seen : Finset O
  olds : List (List Char)

/-- An entry of the tree whose names start with the given text. -/
def Skeleton.meet (collect : Option O) (pre : List Char) (f : Skeleton O) (e : TreeEntryRef O) :
    Skeleton O :=
  let name := pre ++ Utf8.lossy e.name
  if e.mode.isTree then
    if e.oid ∈ f.seen then f
    else { f with frontier := f.frontier ++ [(name ++ ['/'], e.oid)], seen := insert e.oid f.seen }
  else if some e.oid = collect then { f with olds := f.olds ++ [name] }
  else f

/-- The loop over one side, with what is left of the budget. -/
def scanTrees (tooLarge : ApiError O) (collect : Option O) :
    ℕ → Skeleton O → LocalStore O → Except (ApiError O) (ℕ × List (List Char) × LocalStore O)
  | budget, f, st =>
    match f.frontier with
    | [] => .ok (budget, f.olds, st)
    | (pre, tree) :: frontier =>
      match budget with
      | 0 => .error tooLarge
      | budget + 1 => do
        let st ← R.fault tree st
        let es ← R.treeEntries tree
        scanTrees tooLarge collect budget
          (es.foldl (Skeleton.meet collect pre) { f with frontier := frontier }) st

def renamePredecessors (budget : ℕ) (parent : O) (c : CommitMeta O) (childTree blob : O)
    (path : List Char) (st : LocalStore O) :
    Except (ApiError O) (List (List Char) × LocalStore O) := do
  let tooLarge := .renameTooLarge (.ofList path) parent budget
  let child ← scanTrees R tooLarge none budget ⟨[([], childTree)], {childTree}, []⟩ st
  let own ← scanTrees R tooLarge (some blob) child.1 ⟨[([], c.tree)], {c.tree}, child.2.1⟩ child.2.2
  .ok own.2

/-- The pairs of a commit and a path that are pending, and all that were pushed. -/
structure BlameQueue (O : Type) where
  heap : List (Timed (O × List Char))
  seen : Finset (O × List Char)
  seq : ℕ

def BlameQueue.push (time : ℤ) (q : BlameQueue O) (v : O × List Char) : BlameQueue O :=
  if v ∈ q.seen then q
  else ⟨⟨time, q.seq + 1, v⟩ :: q.heap, insert v q.seen, q.seq + 1⟩

/-- The parents of a commit that has the entry at the path. -/
def blameParents (treeBudget : ℕ) (c : CommitMeta O) (target : O × EntryMode) (path : List Char) :
    List O → BlameQueue O → LocalStore O → Except (ApiError O) (BlameQueue O × LocalStore O)
  | [], q, st => .ok (q, st)
  | par :: ps, q, st => do
    let pm ← R.commit par
    let found ← R.lookupPath pm.tree path
    if found.isSome then
      blameParents treeBudget c target path ps (q.push pm.commitTime (par, path)) st
    else if target.2.isBlobOrSymlink then do
      let r ← renamePredecessors R treeBudget par pm c.tree target.1 path st
      let q := r.1.foldl (fun q old => q.push pm.commitTime (par, old)) q
      blameParents treeBudget c target path ps q r.2
    else blameParents treeBudget c target path ps q st

/-- The loop, with what is left of the budget. -/
def blameLoop (budget treeBudget : ℕ) :
    ℕ → BlameQueue O → LocalStore O → Except (ApiError O) (LocalStore O)
  | left, q, st =>
    match pop q.heap with
    | none => R.refreshLocal st
    | some (item, heap) =>
      match left with
      | 0 => .error (.blameTooDeep (.ofList item.val.2) budget)
      | left + 1 =>
        let q := { q with heap := heap }
        match faultPath R item.val.1 item.val.2 st with
        | (st, .error err) =>
          if err.isNotFound then blameLoop budget treeBudget left q st else .error err
        | (st, .ok (c, target)) => do
          let st ← faultTarget R target st
          let r ← blameParents R treeBudget c target item.val.2 c.parents q st
          blameLoop budget treeBudget left r.1 r.2

def faultBlame (budget treeBudget : ℕ) (sha : String) (path : List Char) (st : LocalStore O) :
    Except (ApiError O) (LocalStore O) := do
  let start ← R.hexId sha
  let c ← R.commit start
  blameLoop R budget treeBudget budget
    ⟨[⟨c.commitTime, 0, (start, path)⟩], {(start, path)}, 0⟩ st

end Code

section Spec

omit [DecidableEq O]

variable (R : Remote O)

/-- The object graph of a repository: the trees can be read, no two entries of one have the same
name, names are not empty and have no slash, and what is no directory names no tree. -/
structure NamedTrees : Prop where
  roots : ∀ c m, R.commit c = .ok m → ∃ es, R.treeEntries m.tree = .ok es
  dirs : ∀ t es, R.treeEntries t = .ok es →
    ∀ e ∈ es, e.mode.isTree = true → ∃ es', R.treeEntries e.oid = .ok es'
  distinct : ∀ t es, R.treeEntries t = .ok es → (es.map (·.name)).Nodup
  plain : ∀ t es, R.treeEntries t = .ok es → ∀ e ∈ es, e.name ≠ [] ∧ 47 ∉ e.name
  leaves : LeavesNoTrees R

/-- The directory at a path of the tree. -/
inductive DirAt (root : O) : List Bytes → O → Prop
  | root : DirAt root [] root
  | enter {p : List Bytes} {t : O} {es : List (TreeEntryRef O)} {e : TreeEntryRef O}
      (h : DirAt root p t) (hes : R.treeEntries t = .ok es) (he : e ∈ es)
      (htree : e.mode.isTree = true) : DirAt root (p ++ [e.name]) e.oid

/-- The content is at the path of the tree, which is that of no directory. -/
def ContentAt (root : O) (p : List Bytes) (blob : O) : Prop :=
  ∃ dir t es, ∃ e ∈ es, p = dir ++ [e.name] ∧ DirAt R root dir t ∧ R.treeEntries t = .ok es ∧
    e.mode.isTree = false ∧ e.oid = blob

/-- The path is found again: its names are texts, and each directory on the way stands nowhere
else in the tree. -/
def Unrepeated (root : O) (p : List Bytes) : Prop :=
  (∀ n ∈ p, ∃ cs, n = Utf8.encode cs) ∧ ∀ dir rest t, p = dir ++ rest → rest ≠ [] →
    DirAt R root dir t → ∀ dir', DirAt R root dir' t → dir' = dir

end Spec

section Names

/-- A name that is a text without a slash. -/
structure NameText (n : Bytes) : Prop where
  text : n = Utf8.encode (Utf8.lossy n)
  ne_nil : n ≠ []
  plain : 47 ∉ n

def textOf (p : List Bytes) : List Char := ['/'].intercalate (p.map Utf8.lossy)

/-- The text of a directory, with the slash after each name. -/
def dirText (p : List Bytes) : List Char := p.flatMap fun n => Utf8.lossy n ++ ['/']

theorem dirText_snoc (p : List Bytes) (n : Bytes) :
    dirText (p ++ [n]) = dirText p ++ Utf8.lossy n ++ ['/'] := by
  simp [dirText]

theorem textOf_snoc (p : List Bytes) (n : Bytes) :
    textOf (p ++ [n]) = dirText p ++ Utf8.lossy n := by
  induction p with
  | nil => simp [textOf, dirText]
  | cons m p ih =>
    rw [textOf] at ih
    rw [textOf, List.cons_append, List.map_cons, List.intercalate_cons_of_ne_nil (by simp), ih]
    simp [dirText]

theorem NameText.lossy_ne_nil {n : Bytes} (h : NameText n) : Utf8.lossy n ≠ [] := by
  intro heq
  rw [h.text, heq] at h
  exact h.ne_nil rfl

theorem NameText.slash {n : Bytes} (h : NameText n) : '/' ∉ Utf8.lossy n := by
  intro hmem
  refine h.plain ?_
  rw [h.text, Utf8.encode, List.mem_flatMap]
  exact ⟨'/', hmem, by decide⟩

theorem segments_textOf {p : List Bytes} (hp : ∀ n ∈ p, NameText n) (hne : p ≠ []) :
    segments (textOf p) = p := by
  have hslash : ∀ l ∈ p.map Utf8.lossy, '/' ∉ l :=
    List.forall_mem_map.mpr fun n hn => (hp n hn).slash
  have hfull : ∀ l ∈ p.map Utf8.lossy, decide (l ≠ []) = true :=
    List.forall_mem_map.mpr fun n hn => decide_eq_true (hp n hn).lossy_ne_nil
  rw [segments, textOf, List.splitOn_intercalate _ hslash (by simpa using hne),
    List.filter_eq_self.mpr hfull, List.map_map]
  exact (List.map_congr_left fun n hn => (hp n hn).text.symm).trans (List.map_id p)

theorem dirText_inj {p q : List Bytes} {n : Bytes} (hp : ∀ m ∈ p, NameText m)
    (hq : ∀ m ∈ q, NameText m) (hn : NameText n) (h : dirText p = dirText q) : p = q := by
  have hall : ∀ {r}, (∀ m ∈ r, NameText m) → segments (dirText r ++ Utf8.lossy n) = r ++ [n] := by
    intro r hr
    rw [← textOf_snoc]
    refine segments_textOf ?_ (by simp)
    exact List.forall_mem_append.mpr ⟨hr, List.forall_mem_singleton.mpr hn⟩
  exact List.append_cancel_right ((hall hp).symm.trans ((congrArg _ (congrArg (· ++ _) h)).trans
    (hall hq)))

end Names

section Scan

variable {R : Remote O} {root tree : O} {done : List (List Char × O)} {f : Skeleton O}
  {collect : Option O} {pre : List Char} {e : TreeEntryRef O} {es : List (TreeEntryRef O)}
  {old : List Char} {t : O} {budget left : ℕ} {st st' : LocalStore O} {tooLarge : ApiError O}
  {olds : List (List Char)}

theorem mem_meet_olds : old ∈ (f.meet collect pre e).olds ↔ old ∈ f.olds ∨
    (e.mode.isTree = false ∧ some e.oid = collect ∧ old = pre ++ Utf8.lossy e.name) := by
  rw [Skeleton.meet]
  split_ifs with htree hseen hcollect <;> simp_all

theorem mem_meet_seen : t ∈ (f.meet collect pre e).seen ↔ t ∈ f.seen ∨
    (e.mode.isTree = true ∧ t = e.oid) := by
  rw [Skeleton.meet]
  split_ifs with htree hseen hcollect <;> grind

theorem mem_foldl_olds : old ∈ (es.foldl (Skeleton.meet collect pre) f).olds ↔ old ∈ f.olds ∨
    ∃ e ∈ es, e.mode.isTree = false ∧ some e.oid = collect ∧ old = pre ++ Utf8.lossy e.name := by
  induction es generalizing f with
  | nil => simp
  | cons e es ih => rw [List.foldl_cons, ih, mem_meet_olds, List.exists_mem_cons_iff, or_assoc]

theorem mem_foldl_seen : t ∈ (es.foldl (Skeleton.meet collect pre) f).seen ↔ t ∈ f.seen ∨
    ∃ e ∈ es, e.mode.isTree = true ∧ t = e.oid := by
  induction es generalizing f with
  | nil => simp
  | cons e es ih => rw [List.foldl_cons, ih, mem_meet_seen, List.exists_mem_cons_iff, or_assoc]

/-- The trees pushed so far, those that were read first: each once, under the text of a path
whose directories were all pushed under theirs. -/
structure Pushed (R : Remote O) (root : O) (done : List (List Char × O)) (f : Skeleton O) :
    Prop where
  seen : ∀ t, t ∈ f.seen ↔ ∃ pre, (pre, t) ∈ done ++ f.frontier
  once : ((done ++ f.frontier).map Prod.snd).Nodup
  start : ([], root) ∈ done ++ f.frontier
  chain : ∀ i ∈ done ++ f.frontier, ∃ dir, i.1 = dirText dir ∧ DirAt R root dir i.2 ∧
    ∀ d, d <+: dir → ∃ t, DirAt R root d t ∧ (dirText d, t) ∈ done ++ f.frontier

/-- What a tree that was read names is found. -/
structure Gathered (R : Remote O) (collect : Option O) (done : List (List Char × O))
    (f : Skeleton O) : Prop where
  read : ∀ i ∈ done, ∃ es, R.treeEntries i.2 = .ok es ∧ ∀ e ∈ es,
    (e.mode.isTree = true → e.oid ∈ f.seen) ∧
    (e.mode.isTree = false → some e.oid = collect → i.1 ++ Utf8.lossy e.name ∈ f.olds)
  sound : ∀ old ∈ f.olds, ∃ i ∈ done, ∃ es, R.treeEntries i.2 = .ok es ∧ ∃ e ∈ es,
    e.mode.isTree = false ∧ some e.oid = collect ∧ old = i.1 ++ Utf8.lossy e.name

theorem Pushed.meet (h : Pushed R root done f) (htree : (pre, tree) ∈ done)
    (hes : R.treeEntries tree = .ok es) (he : e ∈ es) :
    Pushed R root done (f.meet collect pre e) := by
  rw [Skeleton.meet]
  split_ifs with hdir hseen hcollect
  · exact h
  · obtain ⟨dir, hpre, hat, hchain⟩ := h.chain (pre, tree) (List.mem_append_left _ htree)
    have hmem : ∀ i, i ∈ done ++ (f.frontier ++ [(pre ++ Utf8.lossy e.name ++ ['/'], e.oid)]) ↔
        i ∈ done ++ f.frontier ∨ i = (pre ++ Utf8.lossy e.name ++ ['/'], e.oid) := fun i => by
      rw [← List.append_assoc, List.mem_append, List.mem_singleton]
    have htext : pre ++ Utf8.lossy e.name ++ ['/'] = dirText (dir ++ [e.name]) := by
      rw [dirText_snoc, ← hpre]
    refine ⟨fun t => ?_, ?_, (hmem _).mpr (.inl h.start), fun i hi => ?_⟩
    · simp only [hmem, Finset.mem_insert, h.seen, exists_or, Prod.mk.injEq]
      grind
    · rw [← List.append_assoc, List.map_append, List.nodup_append]
      refine ⟨h.once, List.nodup_singleton _, fun a ha b hb heq => hseen ?_⟩
      obtain ⟨i, hi, rfl⟩ := List.mem_map.mp ha
      rw [List.mem_singleton.mp hb] at heq
      exact (h.seen _).mpr ⟨i.1, by rwa [← (show i.2 = e.oid from heq)]⟩
    · rcases (hmem i).mp hi with hi | rfl
      · obtain ⟨d, hd, hat', hall⟩ := h.chain i hi
        refine ⟨d, hd, hat', fun d' hd' => ?_⟩
        obtain ⟨t, ht, hmem'⟩ := hall d' hd'
        exact ⟨t, ht, (hmem _).mpr (.inl hmem')⟩
      · refine ⟨dir ++ [e.name], htext, hat.enter hes he hdir, fun d hd => ?_⟩
        rcases List.prefix_concat_iff.mp hd with rfl | hd
        · exact ⟨e.oid, hat.enter hes he hdir, (hmem _).mpr (.inr (by rw [htext]))⟩
        · obtain ⟨t, ht, hmem'⟩ := hchain d hd
          exact ⟨t, ht, (hmem _).mpr (.inl hmem')⟩
  · exact ⟨h.seen, h.once, h.start, h.chain⟩
  · exact h

theorem Pushed.foldl (h : Pushed R root done f) (htree : (pre, tree) ∈ done)
    (hes : R.treeEntries tree = .ok es) {ds : List (TreeEntryRef O)} (hds : ∀ e ∈ ds, e ∈ es) :
    Pushed R root done (ds.foldl (Skeleton.meet collect pre) f) := by
  induction ds generalizing f with
  | nil => exact h
  | cons e ds ih =>
    rw [List.forall_mem_cons] at hds
    exact ih (h.meet htree hes hds.1) hds.2

theorem scanTrees_ok (hp : Pushed R root done f) (hf : Gathered R collect done f)
    (h : scanTrees R tooLarge collect budget f st = .ok (left, olds, st')) :
    st.stored ⊆ st'.stored ∧ ∃ done' seen, Pushed R root done' ⟨[], seen, olds⟩ ∧
      Gathered R collect done' ⟨[], seen, olds⟩ := by
  induction budget generalizing f st done with
  | zero =>
    rw [scanTrees] at h
    split at h
    · next hnil =>
      cases h
      refine ⟨fun _ h => h, done, f.seen, ?_, hf.read, hf.sound⟩
      rwa [← hnil]
    · cases h
  | succ budget ih =>
    rw [scanTrees] at h
    split at h
    · next hnil =>
      cases h
      refine ⟨fun _ h => h, done, f.seen, ?_, hf.read, hf.sound⟩
      rwa [← hnil]
    · next pre tree frontier hcons =>
      obtain ⟨st₁, hst, h⟩ := bind_eq_ok h
      obtain ⟨es, hes, h⟩ := bind_eq_ok h
      have hlist : done ++ f.frontier = (done ++ [(pre, tree)]) ++ frontier := by
        rw [hcons, List.append_assoc, List.singleton_append]
      have hpushed : Pushed R root (done ++ [(pre, tree)]) { f with frontier := frontier } := by
        obtain ⟨hseen, honce, hstart, hchain⟩ := hp
        rw [hlist] at hseen honce hstart hchain
        exact ⟨hseen, honce, hstart, hchain⟩
      have hmem : (pre, tree) ∈ done ++ [(pre, tree)] :=
        List.mem_append_right _ (List.mem_singleton_self _)
      have hpushed' : Pushed R root (done ++ [(pre, tree)])
          (es.foldl (Skeleton.meet collect pre) { f with frontier := frontier }) :=
        hpushed.foldl hmem hes fun _ h => h
      have hgathered : Gathered R collect (done ++ [(pre, tree)])
          (es.foldl (Skeleton.meet collect pre) { f with frontier := frontier }) := by
        refine ⟨fun i hi => ?_, fun old hold => ?_⟩
        · rcases List.mem_append.mp hi with hi | hi
          · obtain ⟨es', hes', hall⟩ := hf.read i hi
            refine ⟨es', hes', fun e he => ⟨fun htree => ?_, fun hleaf hblob => ?_⟩⟩
            · exact mem_foldl_seen.mpr (.inl ((hall e he).1 htree))
            · exact mem_foldl_olds.mpr (.inl ((hall e he).2 hleaf hblob))
          · rw [List.mem_singleton.mp hi]
            refine ⟨es, hes, fun e he => ⟨fun htree => ?_, fun hleaf hblob => ?_⟩⟩
            · exact mem_foldl_seen.mpr (.inr ⟨e, he, htree, rfl⟩)
            · exact mem_foldl_olds.mpr (.inr ⟨e, he, hleaf, hblob, rfl⟩)
        · rcases mem_foldl_olds.mp hold with hold | ⟨e, he, hleaf, hblob, rfl⟩
          · obtain ⟨i, hi, hfound⟩ := hf.sound old hold
            exact ⟨i, List.mem_append_left _ hi, hfound⟩
          · exact ⟨(pre, tree), hmem, es, hes, e, he, hleaf, hblob, rfl⟩
      obtain ⟨hsub, hrest⟩ := ih hpushed' hgathered h
      exact ⟨fun o ho => hsub ((fault_ok hst).mpr (.inl ho)), hrest⟩

omit [DecidableEq O] in
theorem pushed_start (root : O) (olds : List (List Char)) :
    Pushed R root [] ⟨[([], root)], {root}, olds⟩ where
  seen t := by simp
  once := List.nodup_singleton root
  start := List.mem_singleton_self _
  chain i hi := by
    obtain rfl := List.mem_singleton.mp hi
    refine ⟨[], rfl, .root, fun d hd => ?_⟩
    obtain rfl := List.prefix_nil.mp hd
    exact ⟨root, .root, List.mem_singleton_self _⟩

omit [DecidableEq O] in
theorem gathered_start (root : O) : Gathered R collect [] ⟨[([], root)], {root}, []⟩ :=
  ⟨nofun, nofun⟩

end Scan

section Directories

variable {R : Remote O} {root blob t t' : O} {p q dir rest : List Bytes}

omit [DecidableEq O]

theorem dirAt_nil_iff : DirAt R root [] t ↔ t = root := by
  refine ⟨fun h => ?_, fun h => h ▸ .root⟩
  generalize hp : ([] : List Bytes) = p at h
  cases h with
  | root => rfl
  | enter h hes he htree => exact absurd hp.symm (List.append_ne_nil_of_right_ne_nil _ (by simp))

theorem dirAt_snoc_iff {n : Bytes} : DirAt R root (p ++ [n]) t ↔ ∃ t' es e, DirAt R root p t' ∧
    R.treeEntries t' = .ok es ∧ e ∈ es ∧ e.mode.isTree = true ∧ e.name = n ∧ e.oid = t := by
  constructor
  · intro h
    generalize hp : p ++ [n] = p' at h
    cases h with
    | root => exact absurd hp (List.append_ne_nil_of_right_ne_nil _ (by simp))
    | enter h hes he htree =>
      obtain ⟨rfl, hn⟩ := List.append_inj' hp rfl
      exact ⟨_, _, _, h, hes, he, htree, (List.cons.inj hn).1.symm, rfl⟩
  · rintro ⟨t', es, e, h, hes, he, htree, rfl, rfl⟩
    exact h.enter hes he htree

theorem entry_unique (hR : NamedTrees R) {es : List (TreeEntryRef O)} {e e' : TreeEntryRef O}
    (hes : R.treeEntries t = .ok es) (he : e ∈ es) (he' : e' ∈ es) (hname : e.name = e'.name) :
    e = e' :=
  List.inj_on_of_nodup_map (hR.distinct t es hes) he he' hname

theorem DirAt.unique (hR : NamedTrees R) (h : DirAt R root p t) (h' : DirAt R root p t') :
    t = t' := by
  induction p using List.reverseRecOn generalizing t t' with
  | nil => rw [dirAt_nil_iff.mp h, dirAt_nil_iff.mp h']
  | append_singleton p n ih =>
    obtain ⟨u, es, e, hu, hes, he, -, rfl, rfl⟩ := dirAt_snoc_iff.mp h
    obtain ⟨u', es', e', hu', hes', he', -, hname, rfl⟩ := dirAt_snoc_iff.mp h'
    obtain rfl := ih hu hu'
    obtain rfl := Except.ok.inj (hes.symm.trans hes')
    rw [entry_unique hR hes he he' hname.symm]

theorem DirAt.trans (h : DirAt R root dir t) (h' : DirAt R t p t') :
    DirAt R root (dir ++ p) t' := by
  induction h' with
  | root => rwa [List.append_nil]
  | enter _ hes he htree ih =>
    rw [← List.append_assoc]
    exact ih.enter hes he htree

theorem DirAt.split (h : DirAt R root (dir ++ p) t') :
    ∃ t, DirAt R root dir t ∧ DirAt R t p t' := by
  induction p using List.reverseRecOn generalizing t' with
  | nil => exact ⟨t', by rwa [List.append_nil] at h, .root⟩
  | append_singleton p n ih =>
    rw [← List.append_assoc] at h
    obtain ⟨u, es, e, hu, hes, he, htree, rfl, rfl⟩ := dirAt_snoc_iff.mp h
    obtain ⟨t, ht, hp⟩ := ih hu
    exact ⟨t, ht, hp.enter hes he htree⟩

theorem prefix_of_append {d : List Bytes} {n : Bytes} (h : dir ++ [n] = d ++ rest)
    (hrest : rest ≠ []) : ∃ r, dir = d ++ r ∧ rest = r ++ [n] := by
  rcases List.eq_nil_or_concat rest with rfl | ⟨r, m, rfl⟩
  · exact absurd rfl hrest
  · rw [List.concat_eq_append, ← List.append_assoc] at h
    obtain ⟨rfl, hm⟩ := List.append_inj' h rfl
    rw [List.concat_eq_append, ← (List.cons.inj hm).1]
    exact ⟨r, rfl, rfl⟩

theorem ContentAt.move (hR : NamedTrees R) (h : ContentAt R root (dir ++ rest) blob)
    (hrest : rest ≠ []) (ht : DirAt R root dir t) (ht' : DirAt R root p t) :
    ContentAt R root (p ++ rest) blob := by
  obtain ⟨d, u, es, e, he, hq, hu, hes, hleaf, hblob⟩ := h
  obtain ⟨r, rfl, rfl⟩ := prefix_of_append hq.symm hrest
  obtain ⟨t₁, ht₁, hr⟩ := hu.split
  obtain rfl := ht.unique hR ht₁
  exact ⟨p ++ r, u, es, e, he, (List.append_assoc _ _ _).symm, ht'.trans hr, hes, hleaf, hblob⟩

theorem ContentAt.ne_nil (h : ContentAt R root q blob) : q ≠ [] := by
  obtain ⟨d, u, es, e, he, rfl, -⟩ := h
  exact List.append_ne_nil_of_right_ne_nil _ (List.cons_ne_nil _ _)

theorem DirAt.names (hR : NamedTrees R) (h : DirAt R root p t) : ∀ n ∈ p, n ≠ [] ∧ 47 ∉ n := by
  induction h with
  | root => exact nofun
  | enter _ hes he _ ih =>
    exact List.forall_mem_append.mpr ⟨ih, List.forall_mem_singleton.mpr (hR.plain _ _ hes _ he)⟩

theorem ContentAt.nameText (hR : NamedTrees R) (h : ContentAt R root q blob)
    (htext : ∀ n ∈ q, ∃ cs, n = Utf8.encode cs) : ∀ n ∈ q, NameText n := by
  intro n hn
  obtain ⟨d, u, es, e, he, rfl, hu, hes, -⟩ := h
  have hplain : n ≠ [] ∧ 47 ∉ n := by
    rcases List.mem_append.mp hn with hn | hn
    · exact hu.names hR n hn
    · rw [List.mem_singleton.mp hn]
      exact hR.plain u es hes e he
  obtain ⟨cs, hcs⟩ := htext n hn
  exact ⟨by rw [hcs, Utf8.lossy_encode], hplain.1, hplain.2⟩

end Directories

section Predecessors

variable {R : Remote O} {budget : ℕ} {parent childTree blob root : O} {c : CommitMeta O}
  {path : List Char} {st st' : LocalStore O} {olds : List (List Char)}
  {done : List (List Char × O)} {seen : Finset O} {dir p : List Bytes} {t : O}

theorem renamePredecessors_ok
    (h : renamePredecessors R budget parent c childTree blob path st = .ok (olds, st')) :
    st.stored ⊆ st'.stored ∧ ∃ done seen, Pushed R c.tree done ⟨[], seen, olds⟩ ∧
      Gathered R (some blob) done ⟨[], seen, olds⟩ := by
  obtain ⟨⟨left, olds₁, st₁⟩, hchild, h⟩ := bind_eq_ok h
  obtain ⟨⟨left₂, olds₂, st₂⟩, hown, h⟩ := bind_eq_ok h
  cases h
  obtain ⟨hsub, _, _, -, hnone⟩ := scanTrees_ok (pushed_start _ _) (gathered_start _) hchild
  obtain rfl : olds₁ = [] := by
    refine List.eq_nil_iff_forall_not_mem.mpr fun old hold => ?_
    obtain ⟨_, _, _, _, _, _, _, hsome, _⟩ := hnone.sound old hold
    cases hsome
  obtain ⟨hsub', done, seen, hpushed, hgathered⟩ :=
    scanTrees_ok (pushed_start _ _) (gathered_start _) hown
  exact ⟨hsub.trans hsub', done, seen, hpushed, hgathered⟩

omit [DecidableEq O] in
/-- A name that is found is that of a content, and the directories on its way were pushed under
their paths. -/
theorem content_of_old (hp : Pushed R root done ⟨[], seen, olds⟩)
    (hg : Gathered R (some blob) done ⟨[], seen, olds⟩) {old : List Char} (hold : old ∈ olds) :
    ∃ q, ContentAt R root q blob ∧ old = textOf q ∧ ∀ d rest, q = d ++ rest → rest ≠ [] →
      ∃ t, DirAt R root d t ∧ (dirText d, t) ∈ done := by
  obtain ⟨i, hi, es, hes, e, he, hleaf, hblob, rfl⟩ := hg.sound old hold
  have hdone : ∀ j, j ∈ done ++ ([] : List (List Char × O)) ↔ j ∈ done := by simp
  obtain ⟨dir, htext, hat, hchain⟩ := hp.chain i ((hdone i).mpr hi)
  refine ⟨dir ++ [e.name], ⟨dir, i.2, es, e, he, rfl, hat, hes, hleaf, Option.some.inj hblob⟩,
    by rw [textOf_snoc, htext], fun d rest heq hrest => ?_⟩
  obtain ⟨r, rfl, -⟩ := prefix_of_append heq hrest
  obtain ⟨t, ht, hmem⟩ := hchain d (List.prefix_append d r)
  exact ⟨t, ht, (hdone _).mp hmem⟩

omit [DecidableEq O] in
theorem Pushed.pre_unique (hp : Pushed R root done ⟨[], seen, olds⟩) {pre pre' : List Char}
    (h : (pre, t) ∈ done) (h' : (pre', t) ∈ done) : pre = pre' := by
  have honce := hp.once
  rw [List.append_nil] at honce
  exact congrArg Prod.fst (List.inj_on_of_nodup_map honce h h' rfl)

omit [DecidableEq O] in
theorem pushed_of_unrepeated (hp : Pushed R root done ⟨[], seen, olds⟩)
    (hg : Gathered R (some blob) done ⟨[], seen, olds⟩)
    (hone : ∀ d r t, dir = d ++ r → DirAt R root d t → ∀ d', DirAt R root d' t → d' = d)
    (ht : DirAt R root dir t) : (dirText dir, t) ∈ done := by
  have hdone : ∀ j, j ∈ done ++ ([] : List (List Char × O)) ↔ j ∈ done := by simp
  induction dir using List.reverseRecOn generalizing t with
  | nil =>
    rw [dirAt_nil_iff.mp ht]
    exact (hdone _).mp hp.start
  | append_singleton d n ih =>
    obtain ⟨u, es, e, hu, hes, he, htree, rfl, rfl⟩ := dirAt_snoc_iff.mp ht
    have hmem := ih (fun d' r t heq => hone d' (r ++ [e.name]) t
      (by rw [heq, List.append_assoc])) hu
    obtain ⟨es', hes', hall⟩ := hg.read _ hmem
    obtain rfl := Except.ok.inj (hes.symm.trans hes')
    obtain ⟨pre, hpre⟩ := (hp.seen e.oid).mp ((hall e he).1 htree)
    obtain ⟨d', htext, hat, -⟩ := hp.chain _ hpre
    rw [hone _ [] _ (List.append_nil _).symm ht d' hat] at htext
    rw [← htext]
    exact (hdone _).mp hpre

omit [DecidableEq O] in
theorem olds_complete_iff (hR : NamedTrees R) (hp : Pushed R root done ⟨[], seen, olds⟩)
    (hg : Gathered R (some blob) done ⟨[], seen, olds⟩) :
    (∀ q, ContentAt R root q blob → ∃ old ∈ olds, segments old = q) ↔
      ∀ q, ContentAt R root q blob → Unrepeated R root q := by
  constructor
  · intro hall
    have htext : ∀ q, ContentAt R root q blob → ∀ n ∈ q, NameText n := fun q hq => by
      obtain ⟨old, -, hold⟩ := hall q hq
      refine hq.nameText hR fun n hn => ?_
      rw [← hold, segments, List.mem_map] at hn
      obtain ⟨cs, -, rfl⟩ := hn
      exact ⟨cs, rfl⟩
    -- the directories on the way to a content were pushed under their paths
    have hway : ∀ q, ContentAt R root q blob → ∀ d rest t, q = d ++ rest → rest ≠ [] →
        DirAt R root d t → (dirText d, t) ∈ done := by
      intro q hq d rest t heq hrest ht
      obtain ⟨old, hold, hseg⟩ := hall q hq
      obtain ⟨q', hq', rfl, hdirs⟩ := content_of_old hp hg hold
      rw [segments_textOf (htext q' hq') hq'.ne_nil] at hseg
      obtain ⟨t', ht', hmem⟩ := hdirs d rest (hseg.trans heq) hrest
      rwa [ht.unique hR ht']
    intro q hq
    refine ⟨fun n hn => ⟨_, (htext q hq n hn).text⟩, fun d rest t heq hrest ht d' ht' => ?_⟩
    rw [heq] at hq
    have hq' := hq.move hR hrest ht ht'
    have hpre := hp.pre_unique (hway _ hq' d' rest t rfl hrest ht')
      (hway _ hq d rest t rfl hrest ht)
    obtain ⟨n, hn⟩ := List.exists_mem_of_ne_nil rest hrest
    exact dirText_inj (fun m hm => htext _ hq' m (List.mem_append_left _ hm))
      (fun m hm => htext _ hq m (List.mem_append_left _ hm))
      (htext _ hq n (List.mem_append_right _ hn)) hpre
  · intro hall q hq
    obtain ⟨htext, hone⟩ := hall q hq
    have hnames := hq.nameText hR htext
    obtain ⟨dir, t, es, e, he, rfl, hat, hes, hleaf, hblob⟩ := hq
    have hmem := pushed_of_unrepeated hp hg (fun d r t heq => hone d (r ++ [e.name]) t
      (by rw [heq, List.append_assoc]) (by simp)) hat
    obtain ⟨es', hes', hread⟩ := hg.read _ hmem
    obtain rfl := Except.ok.inj (hes.symm.trans hes')
    refine ⟨textOf (dir ++ [e.name]), ?_, segments_textOf hnames (by simp)⟩
    rw [textOf_snoc]
    exact (hread e he).2 hleaf (congrArg some hblob)

end Predecessors

section Paths

variable {R : Remote O} {commit cur t oid : O} {path : List Char} {mode : EntryMode}
  {segs : List Bytes} {st st' : LocalStore O} {err : ApiError O}

/-- The trees along the segments, the one they start at among them. -/
def Along (R : Remote O) : O → List Bytes → O → Prop
  | cur, [], t => t = cur
  | cur, seg :: segs, t => t = cur ∨ ∃ es e, R.treeEntries cur = .ok es ∧
      es.find? (·.name = seg) = some e ∧ e.mode.isTree = true ∧ Along R e.oid segs t

theorem fault_found {obj : Objects.Kind × Bytes} (hget : R.get oid = .ok obj)
    (h : R.fault oid st = .error err) : err.isNotFound = false := by
  rw [Remote.fault, hget, ok_bind, Remote.writeLocal] at h
  split_ifs at h
  split at h
  · cases h
    rfl
  · cases h

omit [DecidableEq O] in
theorem get_of_treeEntries {es : List (TreeEntryRef O)} (h : R.treeEntries t = .ok es) :
    ∃ obj, R.get t = .ok obj := by
  obtain ⟨obj, hobj, -⟩ := bind_eq_ok h
  exact ⟨obj, hobj⟩

omit [DecidableEq O] in
theorem get_of_commit {c : CommitMeta O} (h : R.commit oid = .ok c) :
    ∃ obj, R.get oid = .ok obj := by
  obtain ⟨obj, hobj, -⟩ := bind_eq_ok h
  exact ⟨obj, hobj⟩

/-- What is known when the walk along a path has come to an end or misses: the trees on the way
are stored, and whether there is an entry. -/
structure Along.Stored (R : Remote O) (cur : O) (mode : EntryMode) (segs : List Bytes)
    (st st' : LocalStore O) (r : Except (ApiError O) (O × EntryMode)) : Prop where
  mono : st.stored ⊆ st'.stored
  found : ∀ x, r = .ok x → entrySegs R cur mode segs = .ok (some x)
  missed : ∀ err, r = .error err → ∀ x, entrySegs R cur mode segs ≠ .ok (some x)
  trees : ∀ t, Along R cur segs t → t ∈ st'.stored

theorem faultSegs_ok (commit : O) (path : List Char) (hR : NamedTrees R)
    (hmode : segs ≠ [] → mode.isTree = true)
    (hcur : cur ∈ st.stored) (hr : ∀ err, (faultSegs R commit path cur mode segs st).2 =
      .error err → err.isNotFound = true) :
    Along.Stored R cur mode segs st (faultSegs R commit path cur mode segs st).1
      (faultSegs R commit path cur mode segs st).2 := by
  induction segs generalizing cur mode st with
  | nil =>
    exact ⟨fun _ h => h, fun x h => (by cases h; rfl),
      fun _ h => (by cases h), fun t ht => ht ▸ hcur⟩
  | cons seg segs ih =>
    have htree : ¬ mode.isTree = false := by
      rw [hmode (List.cons_ne_nil seg segs)]
      decide
    rw [faultSegs] at hr ⊢
    cases hes : R.treeEntries cur with
    | error e =>
      have hentry : entrySegs R cur mode (seg :: segs) = .error e := by
        rw [entrySegs, if_neg htree, hes]
        rfl
      refine ⟨fun _ h => h, fun x h => (by cases h), fun _ _ x h => ?_, fun t ht => ?_⟩
      · cases hentry.symm.trans h
      · rcases ht with rfl | ⟨es, e', hes', -⟩
        · exact hcur
        · cases hes.symm.trans hes'
    | ok es =>
      simp only [hes] at hr ⊢
      cases hfind : es.find? (·.name = seg) with
      | none =>
        have hentry : entrySegs R cur mode (seg :: segs) = .ok none := by
          rw [entrySegs, if_neg htree, hes, ok_bind, hfind]
        refine ⟨fun _ h => h, fun x h => (by cases h), fun _ _ x h => ?_, fun t ht => ?_⟩
        · cases hentry.symm.trans h
        · rcases ht with rfl | ⟨es', e, hes', hfind', -⟩
          · exact hcur
          · obtain rfl := Except.ok.inj (hes.symm.trans hes')
            cases hfind.symm.trans hfind'
      | some e =>
        have hentry : entrySegs R cur mode (seg :: segs) = entrySegs R e.oid e.mode segs := by
          rw [entrySegs, if_neg htree, hes, ok_bind, hfind]
        have halong : ∀ t, Along R cur (seg :: segs) t →
            t = cur ∨ (e.mode.isTree = true ∧ Along R e.oid segs t) := by
          rintro t (rfl | ⟨es', e', hes', hfind', hdir, hbelow⟩)
          · exact .inl rfl
          · obtain rfl := Except.ok.inj (hes.symm.trans hes')
            obtain rfl := Option.some.inj (hfind.symm.trans hfind')
            exact .inr ⟨hdir, hbelow⟩
        simp only [hfind] at hr ⊢
        by_cases hdir : e.mode.isTree = true
        · simp only [hdir, if_true] at hr ⊢
          cases hfault : R.fault e.oid st with
          | error err =>
            rw [hfault] at hr
            obtain ⟨es', hes'⟩ := hR.dirs cur es hes e (List.mem_of_find?_eq_some hfind) hdir
            obtain ⟨obj, hobj⟩ := get_of_treeEntries hes'
            cases (fault_found hobj hfault).symm.trans (hr err rfl)
          | ok st₁ =>
            simp only [hfault] at hr ⊢
            have hst₁ := fun o => fault_ok (o := o) hfault
            have h := ih (fun _ => hdir) ((hst₁ e.oid).mpr (.inr rfl)) hr
            refine ⟨fun o ho => h.mono ((hst₁ o).mpr (.inl ho)), ?_, ?_, fun t ht => ?_⟩
            · rw [hentry]
              exact h.found
            · rw [hentry]
              exact h.missed
            · rcases halong t ht with rfl | ⟨-, hbelow⟩
              · exact h.mono ((hst₁ _).mpr (.inl hcur))
              · exact h.trees t hbelow
        · have htrees : ∀ t, Along R cur (seg :: segs) t → t ∈ st.stored := fun t ht => by
            rcases halong t ht with rfl | ⟨hdir', -⟩
            · exact hcur
            · exact absurd hdir' hdir
          simp only [hdir, Bool.false_eq_true, if_false] at hr ⊢
          cases segs with
          | nil =>
            refine ⟨fun _ h => h, fun x h => ?_, fun _ h => (by cases h), htrees⟩
            cases h
            rw [hentry]
            rfl
          | cons seg' segs =>
            refine ⟨fun _ h => h, fun x h => (by cases h), fun _ _ x h => ?_, htrees⟩
            rw [hentry, entrySegs, if_pos (by simpa using hdir)] at h
            cases h

/-- What a commit and a path leave in the store: the commit and the trees along the path; and
whether the path is in the commit. -/
theorem faultPath_ok (st : LocalStore O) (hR : NamedTrees R) {c : CommitMeta O}
    (hc : R.commit commit = .ok c)
    (hr : ∀ err, (faultPath R commit path st).2 = .error err → err.isNotFound = true) :
    commit ∈ (faultPath R commit path st).1.stored ∧ ∃ r,
      (faultPath R commit path st).2 = r.map (fun target => (c, target)) ∧
      Along.Stored R c.tree .tree (segments path) st (faultPath R commit path st).1 r := by
  rw [faultPath] at hr ⊢
  simp only [hc] at hr ⊢
  cases hst₁ : R.fault commit st with
  | error err =>
    rw [hst₁] at hr
    obtain ⟨obj, hobj⟩ := get_of_commit hc
    cases (fault_found hobj hst₁).symm.trans (hr err rfl)
  | ok st₁ =>
    simp only [hst₁] at hr ⊢
    cases hst₂ : R.fault c.tree st₁ with
    | error err =>
      rw [hst₂] at hr
      obtain ⟨es, hes⟩ := hR.roots commit c hc
      obtain ⟨obj, hobj⟩ := get_of_treeEntries hes
      cases (fault_found hobj hst₂).symm.trans (hr err rfl)
    | ok st₂ =>
      simp only [hst₂] at hr ⊢
      have h := faultSegs_ok commit path hR (fun _ => EntryMode.isTree_tree)
        ((fault_ok hst₂).mpr (.inr rfl)) fun err herr => hr err (by rw [herr]; rfl)
      have hmono : st.stored ⊆ st₂.stored := fun o ho =>
        (fault_ok hst₂).mpr (.inl ((fault_ok hst₁).mpr (.inl ho)))
      refine ⟨h.mono ((fault_ok hst₂).mpr (.inl ((fault_ok hst₁).mpr (.inr rfl)))), _, rfl, ?_⟩
      exact ⟨hmono.trans h.mono, h.found, h.missed, h.trees⟩

omit [DecidableEq O] in
/-- What the code finds at a path is what git does, where it does not fail. -/
theorem lookupPath_entry (hR : NamedTrees R) {x : Option (O × EntryMode)}
    (h : R.lookupPath t path = .ok x) : entryAt R path t = .ok x := by
  have hrun : ¬ RunsThrough R t .tree (segments path) := fun hrun => by
    obtain ⟨e, he⟩ := lookupSegs_error hR.leaves (fun h => absurd h (by decide)) hrun
    cases he.symm.trans h
  rw [entryAt, ← lookupSegs_eq hrun]
  exact h

end Paths

section Queue

variable {q q' q'' : BlameQueue O}

/-- Nothing pending is lost, and what is new is pending. -/
structure Grows (q q' : BlameQueue O) : Prop where
  seen : q.seen ⊆ q'.seen
  pending : ∀ v ∈ q.heap.map Timed.val, v ∈ q'.heap.map Timed.val
  new : ∀ v ∈ q'.seen, v ∈ q.seen ∨ v ∈ q'.heap.map Timed.val

omit [DecidableEq O] in
theorem Grows.refl (q : BlameQueue O) : Grows q q := ⟨fun _ h => h, fun _ h => h, fun _ => .inl⟩

omit [DecidableEq O] in
theorem Grows.trans (h : Grows q q') (h' : Grows q' q'') : Grows q q'' where
  seen _ hv := h'.seen (h.seen hv)
  pending v hv := h'.pending v (h.pending v hv)
  new v hv := (h'.new v hv).elim (fun hv => (h.new v hv).imp_right (h'.pending v)) .inr

theorem grows_push (q : BlameQueue O) (time : ℤ) (v : O × List Char) :
    Grows q (q.push time v) ∧ v ∈ (q.push time v).seen := by
  rw [BlameQueue.push]
  split_ifs with hseen
  · exact ⟨.refl q, hseen⟩
  · refine ⟨⟨Finset.subset_insert v _, fun u hu => List.mem_cons_of_mem v hu, fun u hu => ?_⟩,
      Finset.mem_insert_self v _⟩
    rcases Finset.mem_insert.mp hu with rfl | hu
    · exact .inr List.mem_cons_self
    · exact .inl hu

theorem grows_pushes (q : BlameQueue O) (time : ℤ) (par : O) (olds : List (List Char)) :
    Grows q (olds.foldl (fun q old => q.push time (par, old)) q) ∧
      ∀ old ∈ olds, (par, old) ∈ (olds.foldl (fun q old => q.push time (par, old)) q).seen := by
  induction olds generalizing q with
  | nil => exact ⟨.refl q, nofun⟩
  | cons old olds ih =>
    obtain ⟨hgrows, hseen⟩ := ih (q.push time (par, old))
    obtain ⟨hpush, hold⟩ := grows_push q time (par, old)
    exact ⟨hpush.trans hgrows, List.forall_mem_cons.mpr ⟨hgrows.seen hold, hseen⟩⟩

end Queue

section Steps

variable {R : Remote O} {treeBudget : ℕ} {c m : CommitMeta O} {target : O × EntryMode}
  {path : List Char} {ps : List O} {par oid : O} {q q' : BlameQueue O} {st st' : LocalStore O}
  {S S' : Finset O} {seen seen' : Finset (O × List Char)} {v : O × List Char}

/-- The commit, the trees along the path and the content at it are stored. -/
def Kept (R : Remote O) (S : Finset O) (oid : O) (p : List Bytes) : Prop :=
  ∀ m, R.commit oid = .ok m → oid ∈ S ∧ (∀ t, Along R m.tree p t → t ∈ S) ∧
    ∀ x, entrySegs R m.tree .tree p = .ok (some x) → x.2.isBlobOrSymlink = true → x.1 ∈ S

/-- From the entry of a commit the parent was pushed under the path, or under the names found. -/
def Followed (R : Remote O) (treeBudget : ℕ) (seen : Finset (O × List Char)) (m : CommitMeta O)
    (target : O × EntryMode) (path : List Char) (par : O) : Prop :=
  ∃ pm, R.commit par = .ok pm ∧ ((∃ y, entryAt R path pm.tree = .ok (some y)) ∧ (par, path) ∈ seen ∨
    entryAt R path pm.tree = .ok none ∧ (target.2.isBlobOrSymlink = true → ∃ st olds st',
      renamePredecessors R treeBudget par pm m.tree target.1 path st = .ok (olds, st') ∧
        ∀ old ∈ olds, (par, old) ∈ seen))

/-- All that the pair of a commit and a path asks for was done. -/
def Done (R : Remote O) (treeBudget : ℕ) (S : Finset O) (seen : Finset (O × List Char))
    (v : O × List Char) : Prop :=
  Kept R S v.1 (segments v.2) ∧ ∀ m x, R.commit v.1 = .ok m → entryAt R v.2 m.tree = .ok (some x) →
    ∀ par ∈ m.parents, Followed R treeBudget seen m x v.2 par

theorem Followed.mono (h : Followed R treeBudget seen m target path par) (hseen : seen ⊆ seen') :
    Followed R treeBudget seen' m target path par := by
  obtain ⟨pm, hpm, ⟨hy, hpar⟩ | ⟨hnone, holds⟩⟩ := h
  · exact ⟨pm, hpm, .inl ⟨hy, hseen hpar⟩⟩
  · refine ⟨pm, hpm, .inr ⟨hnone, fun hblob => ?_⟩⟩
    obtain ⟨st, olds, st', hrename, hall⟩ := holds hblob
    exact ⟨st, olds, st', hrename, fun old hold => hseen (hall old hold)⟩

theorem blameParents_ok (hR : NamedTrees R)
    (h : blameParents R treeBudget c target path ps q st = .ok (q', st')) :
    st.stored ⊆ st'.stored ∧ Grows q q' ∧
      ∀ par ∈ ps, Followed R treeBudget q'.seen c target path par := by
  induction ps generalizing q st with
  | nil =>
    cases h
    exact ⟨fun _ h => h, .refl _, nofun⟩
  | cons par ps ih =>
    obtain ⟨pm, hpm, h⟩ := bind_eq_ok h
    obtain ⟨found, hfound, h⟩ := bind_eq_ok h
    have hentry := lookupPath_entry hR hfound
    split_ifs at h with hsome hblob
    · obtain ⟨hsub, hgrows, hall⟩ := ih h
      obtain ⟨hpush, hseen⟩ := grows_push q pm.commitTime (par, path)
      obtain ⟨y, rfl⟩ := Option.isSome_iff_exists.mp hsome
      refine ⟨hsub, hpush.trans hgrows, List.forall_mem_cons.mpr ⟨?_, hall⟩⟩
      exact ⟨pm, hpm, .inl ⟨⟨y, hentry⟩, hgrows.seen hseen⟩⟩
    · obtain ⟨⟨olds, st₁⟩, hrename, h⟩ := bind_eq_ok h
      obtain ⟨hsub, hgrows, hall⟩ := ih h
      obtain ⟨hpush, hseen⟩ := grows_pushes q pm.commitTime par olds
      obtain rfl := Option.not_isSome_iff_eq_none.mp hsome
      refine ⟨(renamePredecessors_ok hrename).1.trans hsub, hpush.trans hgrows,
        List.forall_mem_cons.mpr ⟨?_, hall⟩⟩
      exact ⟨pm, hpm, .inr ⟨hentry, fun _ => ⟨st, olds, st₁, hrename, fun old hold =>
        hgrows.seen (hseen old hold)⟩⟩⟩
    · obtain ⟨hsub, hgrows, hall⟩ := ih h
      obtain rfl := Option.not_isSome_iff_eq_none.mp hsome
      refine ⟨hsub, hgrows, List.forall_mem_cons.mpr ⟨?_, hall⟩⟩
      exact ⟨pm, hpm, .inr ⟨hentry, fun h => absurd h hblob⟩⟩

theorem faultTarget_ok (h : faultTarget R target st = .ok st') : st.stored ⊆ st'.stored ∧
    (target.2.isBlobOrSymlink = true → target.1 ∈ st'.stored) := by
  rw [faultTarget] at h
  split_ifs at h with hblob
  · exact ⟨fun o ho => (fault_ok h).mpr (.inl ho), fun _ => (fault_ok h).mpr (.inr rfl)⟩
  · cases h
    exact ⟨fun _ h => h, fun h => absurd h hblob⟩

omit [DecidableEq O] in
theorem Along.Stored.entry {cur : O} {mode : EntryMode} {segs : List Bytes}
    {r : Except (ApiError O) (O × EntryMode)} {x : O × EntryMode}
    (h : Along.Stored R cur mode segs st st' r)
    (hx : entrySegs R cur mode segs = .ok (some x)) : r = .ok x := by
  cases r with
  | error err => exact absurd hx (h.missed err rfl x)
  | ok y => rw [Option.some.inj (Except.ok.inj (hx.symm.trans (h.found y rfl)))]

omit [DecidableEq O] in
theorem kept_of_stored {r : Except (ApiError O) (O × EntryMode)} (hc : R.commit oid = .ok c)
    (hcommit : oid ∈ st'.stored) (hpath : Along.Stored R c.tree .tree (segments path) st st' r)
    (hsub : st'.stored ⊆ S)
    (htarget : ∀ x, r = .ok x → x.2.isBlobOrSymlink = true → x.1 ∈ S) :
    Kept R S oid (segments path) := by
  intro m hm
  obtain rfl := Except.ok.inj (hc.symm.trans hm)
  exact ⟨hsub hcommit, fun t ht => hsub (hpath.trees t ht), fun x hx => htarget x (hpath.entry hx)⟩

theorem blame_ended {P : O × List Char → Prop}
    (hq : ∀ v ∈ q.seen, P v ∨ v ∈ q.heap.map Timed.val) (hnone : pop q.heap = none)
    (h : R.refreshLocal st = .ok st') : st.stored ⊆ st'.stored ∧ ∃ seen, q.seen ⊆ seen ∧
      ∀ v ∈ seen, P v ∨ Done R treeBudget st'.stored seen v := by
  rw [refreshLocal_ok h]
  refine ⟨fun _ h => h, q.seen, fun _ h => h, fun v hv => .inl ((hq v hv).resolve_right ?_)⟩
  rw [NewestFirst.pop_eq_none.mp hnone]
  exact List.not_mem_nil

theorem commit_of_faultPath (h : (faultPath R oid path st).2 = .ok (c, target)) :
    R.commit oid = .ok c := by
  rw [faultPath] at h
  split at h
  · cases h
  · next c' hc =>
    split at h
    · cases h
    · split at h
      · cases h
      · obtain ⟨r, -, hr⟩ := map_eq_ok h
        rw [hc, (Prod.mk.inj hr).1]

theorem blameLoop_ok (hR : NamedTrees R) {budget left : ℕ} {P : O × List Char → Prop}
    (hq : ∀ v ∈ q.seen, P v ∨ v ∈ q.heap.map Timed.val)
    (h : blameLoop R budget treeBudget left q st = .ok st') :
    st.stored ⊆ st'.stored ∧ ∃ seen, q.seen ⊆ seen ∧
      ∀ v ∈ seen, P v ∨ Done R treeBudget st'.stored seen v := by
  induction left generalizing q st P with
  | zero =>
    rw [blameLoop] at h
    split at h
    · next hnone => exact blame_ended hq hnone h
    · cases h
  | succ left ih =>
    rw [blameLoop] at h
    split at h
    · next hnone => exact blame_ended hq hnone h
    · next item heap hpop =>
      have hitem : ∀ v ∈ q.seen, (P v ∨ v = item.val) ∨ v ∈ heap.map Timed.val := by
        intro v hv
        rcases hq v hv with hold | hmem
        · exact .inl (.inl hold)
        · obtain ⟨i, hi, rfl⟩ := List.mem_map.mp hmem
          rcases (mem_pop hpop).mp hi with rfl | hi
          · exact .inl (.inr rfl)
          · exact .inr (List.mem_map_of_mem hi)
      dsimp only at h
      split at h
      · next st₁ err hfault =>
        split_ifs at h with hmissing
        obtain ⟨hsub, seen, hseen, hall⟩ := ih hitem h
        have hpath : ∀ m, R.commit item.val.1 = .ok m → item.val.1 ∈ st₁.stored ∧
            ∃ err, Along.Stored R m.tree .tree (segments item.val.2) st st₁ (.error err) := by
          intro m hm
          obtain ⟨hcommit, r, hr, hpath⟩ := faultPath_ok st hR hm fun err' herr => by
            rw [hfault] at herr
            cases herr
            exact hmissing
          rw [hfault] at hcommit hr hpath
          cases r with
          | error err' => exact ⟨hcommit, err', hpath⟩
          | ok x => cases hr
        have hmono : st.stored ⊆ st₁.stored := by
          cases hc : R.commit item.val.1 with
          | error err' =>
            rw [faultPath, hc] at hfault
            cases hfault
            exact fun _ h => h
          | ok m => exact (hpath m hc).2.choose_spec.mono
        have hdone : Done R treeBudget st'.stored seen item.val := by
          refine ⟨fun m hm => ?_, fun m x hm hx => ?_⟩
          · obtain ⟨hcommit, err', hstored⟩ := hpath m hm
            exact kept_of_stored hm hcommit hstored hsub nofun m hm
          · obtain ⟨-, err', hstored⟩ := hpath m hm
            exact absurd hx (hstored.missed err' rfl x)
        refine ⟨hmono.trans hsub, seen, hseen, fun v hv => ?_⟩
        rcases hall v hv with (hold | rfl) | hdone'
        · exact .inl hold
        · exact .inr hdone
        · exact .inr hdone'
      · next st₁ c target hfault =>
        obtain ⟨st₂, hst₂, h⟩ := bind_eq_ok h
        obtain ⟨⟨q', st₃⟩, hparents, h⟩ := bind_eq_ok h
        have hc : R.commit item.val.1 = .ok c := commit_of_faultPath (by rw [hfault])
        obtain ⟨hcommit, r, hr, hpath⟩ := faultPath_ok st hR hc (by rw [hfault]; exact nofun)
        rw [hfault] at hcommit hr hpath
        obtain rfl : r = .ok target := by
          obtain ⟨x, rfl, hx⟩ := map_eq_ok hr.symm
          rw [(Prod.mk.inj hx).2]
        obtain ⟨hsub₂, htarget⟩ := faultTarget_ok hst₂
        obtain ⟨hsub₃, hgrows, hfollowed⟩ := blameParents_ok hR hparents
        have hq' : ∀ v ∈ q'.seen, (P v ∨ v = item.val) ∨ v ∈ q'.heap.map Timed.val := by
          intro v hv
          rcases hgrows.new v hv with hv | hv
          · exact (hitem v hv).imp_right (hgrows.pending v)
          · exact .inr hv
        obtain ⟨hsub, seen, hseen, hall⟩ := ih hq' h
        have hdone : Done R treeBudget st'.stored seen item.val := by
          refine ⟨kept_of_stored hc hcommit hpath (hsub₂.trans (hsub₃.trans hsub)) ?_,
            fun m x hm hx par hpar => ?_⟩
          · rintro x ⟨rfl⟩ hblob
            exact hsub (hsub₃ (htarget hblob))
          · obtain rfl := Except.ok.inj (hc.symm.trans hm)
            obtain rfl := Except.ok.inj (hpath.entry hx)
            exact (hfollowed par hpar).mono hseen
        refine ⟨hpath.mono.trans (hsub₂.trans (hsub₃.trans hsub)), seen,
          fun v hv => hseen (hgrows.seen hv), fun v hv => ?_⟩
        rcases hall v hv with (hold | rfl) | hdone'
        · exact .inl hold
        · exact .inr hdone
        · exact .inr hdone'

end Steps

section Blames

variable {R : Remote O} {budget treeBudget : ℕ} {sha : String} {start : O} {path : List Char}
  {st st' : LocalStore O} {oid : O} {p : List Bytes}

/-- The pairs of a commit and a path that a blame comes to. -/
inductive Blamed (R : Remote O) (start : O) (p₀ : List Bytes) : O → List Bytes → Prop
  | start : Blamed R start p₀ start p₀
  | keep {c par : O} {p : List Bytes} {m pm : CommitMeta O} {x y : O × EntryMode}
      (h : Blamed R start p₀ c p) (hm : R.commit c = .ok m)
      (hx : entrySegs R m.tree .tree p = .ok (some x)) (hpar : par ∈ m.parents)
      (hpm : R.commit par = .ok pm) (hy : entrySegs R pm.tree .tree p = .ok (some y)) :
      Blamed R start p₀ par p
  | rename {c par : O} {p q : List Bytes} {m pm : CommitMeta O} {x : O × EntryMode}
      (h : Blamed R start p₀ c p) (hm : R.commit c = .ok m)
      (hx : entrySegs R m.tree .tree p = .ok (some x)) (hblob : x.2.isBlobOrSymlink = true)
      (hpar : par ∈ m.parents) (hpm : R.commit par = .ok pm)
      (hnone : entrySegs R pm.tree .tree p = .ok none) (hq : ContentAt R pm.tree q x.1) :
      Blamed R start p₀ par q

/-- A blame comes to a file whose path the parent does not have. -/
structure Boundary (R : Remote O) (start : O) (p₀ : List Bytes) (par : O) (m pm : CommitMeta O)
    (blob : O) : Prop where
  parent : R.commit par = .ok pm
  child : ∃ c p mode, Blamed R start p₀ c p ∧ R.commit c = .ok m ∧
    entrySegs R m.tree .tree p = .ok (some (blob, mode)) ∧ mode.isBlobOrSymlink = true ∧
    par ∈ m.parents ∧ entrySegs R pm.tree .tree p = .ok none

/-- Where it ends well, all paths of the parent's tree with the content are found. -/
def FindsAll (R : Remote O) (treeBudget : ℕ) (par : O) (m pm : CommitMeta O) (blob : O) : Prop :=
  ∀ path st olds st', renamePredecessors R treeBudget par pm m.tree blob path st =
    .ok (olds, st') → ∀ q, ContentAt R pm.tree q blob → ∃ old ∈ olds, segments old = q

/-- Every exact rename is followed, and all that a blame comes to is stored. -/
def BlameComplete (R : Remote O) (treeBudget : ℕ) (start : O) (p₀ : List Bytes) (S : Finset O) :
    Prop :=
  (∀ par m pm blob, Boundary R start p₀ par m pm blob → FindsAll R treeBudget par m pm blob) ∧
    ∀ c p, Blamed R start p₀ c p → Kept R S c p

/-- No path of a content that is looked for is repeated. -/
def NoRepeats (R : Remote O) (start : O) (p₀ : List Bytes) : Prop :=
  ∀ par m pm blob, Boundary R start p₀ par m pm blob →
    ∀ q, ContentAt R pm.tree q blob → Unrepeated R pm.tree q

theorem findsAll_of_unrepeated (hR : NamedTrees R) {par blob : O} {m pm : CommitMeta O}
    (h : ∀ q, ContentAt R pm.tree q blob → Unrepeated R pm.tree q) :
    FindsAll R treeBudget par m pm blob := by
  intro path st olds st' hrename
  obtain ⟨-, done, seen, hpushed, hgathered⟩ := renamePredecessors_ok hrename
  exact (olds_complete_iff hR hpushed hgathered).mpr h

theorem pushed_of_blamed {S : Finset O} {seen : Finset (O × List Char)}
    (hstart : (start, path) ∈ seen) (hdone : ∀ v ∈ seen, Done R treeBudget S seen v)
    (hall : ∀ par m pm blob, Boundary R start (segments path) par m pm blob →
      FindsAll R treeBudget par m pm blob) (h : Blamed R start (segments path) oid p) :
    ∃ text, segments text = p ∧ (oid, text) ∈ seen := by
  induction h with
  | start => exact ⟨path, rfl, hstart⟩
  | @keep c par p m pm x y h hm hx hpar hpm hy ih =>
    obtain ⟨text, rfl, hseen⟩ := ih
    obtain ⟨pm', hpm', ⟨-, hpushed⟩ | ⟨hnone, -⟩⟩ := (hdone _ hseen).2 m x hm hx par hpar
    · exact ⟨text, rfl, hpushed⟩
    · obtain rfl := Except.ok.inj (hpm.symm.trans hpm')
      cases hnone.symm.trans hy
  | @rename c par p q m pm x h hm hx hblob hpar hpm hnone hq ih =>
    obtain ⟨text, rfl, hseen⟩ := ih
    obtain ⟨pm', hpm', ⟨⟨y, hy⟩, -⟩ | ⟨-, holds⟩⟩ := (hdone _ hseen).2 m x hm hx par hpar
    · obtain rfl := Except.ok.inj (hpm.symm.trans hpm')
      cases hnone.symm.trans hy
    · obtain rfl := Except.ok.inj (hpm.symm.trans hpm')
      obtain ⟨st, olds, st', hrename, hpushed⟩ := holds hblob
      obtain ⟨old, hold, hseg⟩ := hall par m pm x.1
        ⟨hpm, c, _, x.2, h, hm, hx, hblob, hpar, hnone⟩ text st olds st' hrename q hq
      exact ⟨old, hseg, hpushed old hold⟩

/-- A blame that ends well has followed every exact rename and stored all it came to just where
no path of a content that it looked for is repeated. -/
theorem blame_complete_iff (hR : NamedTrees R) (hstart : R.hexId sha = .ok start)
    (h : faultBlame R budget treeBudget sha path st = .ok st') :
    BlameComplete R treeBudget start (segments path) st'.stored ↔
      NoRepeats R start (segments path) := by
  obtain ⟨start', hstart', h⟩ := bind_eq_ok h
  obtain rfl := Except.ok.inj (hstart.symm.trans hstart')
  obtain ⟨c, hc, h⟩ := bind_eq_ok h
  obtain ⟨-, seen, hseen, hall⟩ := blameLoop_ok (P := fun _ => False) hR (fun v hv => .inr (by
    rw [Finset.mem_singleton.mp hv]
    exact List.mem_singleton_self _)) h
  have hpushed := hseen (Finset.mem_singleton_self (start, path))
  have hdone : ∀ v ∈ seen, Done R treeBudget st'.stored seen v := fun v hv =>
    (hall v hv).resolve_left id
  constructor
  · rintro ⟨hfinds, -⟩ par m pm blob hb
    obtain ⟨hpm, c', p, mode, hblamed, hm, hx, hblob, hpar, hnone⟩ := id hb
    obtain ⟨text, rfl, hmem⟩ := pushed_of_blamed hpushed hdone hfinds hblamed
    obtain ⟨pm', hpm', ⟨⟨y, hy⟩, -⟩ | ⟨-, holds⟩⟩ := (hdone _ hmem).2 m (blob, mode) hm hx par hpar
    · obtain rfl := Except.ok.inj (hpm.symm.trans hpm')
      cases hnone.symm.trans hy
    · obtain rfl := Except.ok.inj (hpm.symm.trans hpm')
      obtain ⟨st₁, olds, st₂, hrename, -⟩ := holds hblob
      obtain ⟨-, done, seen', hp, hg⟩ := renamePredecessors_ok hrename
      exact (olds_complete_iff hR hp hg).mp (hfinds par m pm blob hb text st₁ olds st₂ hrename)
  · intro hone
    have hfinds : ∀ par m pm blob, Boundary R start (segments path) par m pm blob →
        FindsAll R treeBudget par m pm blob := fun par m pm blob hb =>
      findsAll_of_unrepeated hR (hone par m pm blob hb)
    refine ⟨hfinds, fun c' p hblamed => ?_⟩
    obtain ⟨text, rfl, hmem⟩ := pushed_of_blamed hpushed hdone hfinds hblamed
    exact (hdone _ hmem).1

end Blames

section Examples

theorem namedTrees_ofItems {items : List Item} (hlen : items.length ≤ 256)
    (hroots : ∀ m, Item.commit m ∈ items → ∃ es, items[m.tree]? = some (.tree es))
    (htrees : ∀ es, Item.tree es ∈ items → (es.map (·.name)).Nodup ∧ ∀ e ∈ es,
      (e.name ≠ [] ∧ 47 ∉ e.name) ∧
        (e.mode.isTree = true ↔ ∃ es', items[e.oid]? = some (.tree es'))) :
    NamedTrees (ofItems items) := by
  have hlt : ∀ {t es}, items[t]? = some (Item.tree es) → t < 256 := fun h =>
    (List.getElem?_eq_some_iff.mp h).1.trans_le hlen
  refine ⟨fun c m hm => ?_, fun t es hes e he htree => ?_, fun t es hes => ?_,
    fun t es hes e he => ?_, fun t es hes e he hleaf es' hes' => ?_⟩
  · obtain ⟨es, hes⟩ := hroots m (List.mem_of_getElem? (commit_ofItems.mp hm))
    exact ⟨es, treeEntries_of_get (hlt hes) hes⟩
  · obtain ⟨es', hes'⟩ := ((htrees es (treeEntries_ofItems hes).1).2 e he).2.mp htree
    exact ⟨es', treeEntries_of_get (hlt hes') hes'⟩
  · exact (htrees es (treeEntries_ofItems hes).1).1
  · exact ((htrees es (treeEntries_ofItems hes).1).2 e he).1
  · have htree :=
      ((htrees es (treeEntries_ofItems hes).1).2 e he).2.mpr (treeEntries_ofItems hes').2
    rw [hleaf] at htree
    cases htree

def renameItems : List Item :=
  [.blob, .tree [⟨[110], 0, ⟨0o100644⟩⟩], .tree [⟨[97], 0, ⟨0o100644⟩⟩], bareCommit 3 2 [] 10,
    bareCommit 4 1 [3] 20]

/-- A file `n` that was `d/f` and `e/f`, of which only `e/f` goes on, with other content. -/
def repeatItems : List Item :=
  [.blob, .tree [⟨[102], 0, ⟨0o100644⟩⟩],
    .tree [⟨[100], 1, EntryMode.tree⟩, ⟨[101], 1, EntryMode.tree⟩],
    .tree [⟨[110], 0, ⟨0o100644⟩⟩], .blob, .tree [⟨[102], 4, ⟨0o100644⟩⟩],
    .tree [⟨[101], 5, EntryMode.tree⟩], bareCommit 7 6 [] 10, bareCommit 8 2 [7] 20,
    bareCommit 9 3 [8] 30]

theorem renameItems_named : NamedTrees (ofItems renameItems) := by
  refine namedTrees_ofItems (by decide) (fun m hm => ?_) fun es hes => ?_
  · have hm : m.tree = 2 ∨ m.tree = 1 := by
      simp only [renameItems, bareCommit, List.mem_cons, List.not_mem_nil, reduceCtorEq,
        Item.commit.injEq, false_or, or_false] at hm
      rcases hm with rfl | rfl
      · exact .inl rfl
      · exact .inr rfl
    rcases hm with h | h <;> exact ⟨_, by rw [h]; rfl⟩
  · have hes : es = [⟨[110], 0, ⟨0o100644⟩⟩] ∨ es = [⟨[97], 0, ⟨0o100644⟩⟩] := by
      simpa [renameItems, bareCommit] using hes
    rcases hes with rfl | rfl
    · refine ⟨by decide, List.forall_mem_singleton.mpr ⟨by decide, ?_⟩⟩
      exact iff_of_false (by decide) (by rintro ⟨es', h⟩; cases h)
    · refine ⟨by decide, List.forall_mem_singleton.mpr ⟨by decide, ?_⟩⟩
      exact iff_of_false (by decide) (by rintro ⟨es', h⟩; cases h)

theorem rename_run : (faultBlame (ofItems renameItems) 10 10 "4" ['n'] emptyStore).map
    (fun st => decide (3 ∈ st.stored)) = .ok true := by decide +kernel

theorem repeat_run : (faultBlame (ofItems repeatItems) 10 10 "9" ['n'] emptyStore).map
    (fun st => decide (7 ∈ st.stored)) = .ok false := by decide +kernel

theorem renameItems_dir {d : List Bytes} {t : ℕ} (h : DirAt (ofItems renameItems) 2 d t) :
    d = [] ∧ t = 2 := by
  induction h with
  | root => exact ⟨rfl, rfl⟩
  | enter h hes he htree ih =>
    obtain ⟨-, rfl⟩ := ih
    cases hes
    rw [List.mem_singleton.mp he] at htree
    cases htree

theorem renameItems_noRepeats : NoRepeats (ofItems renameItems) 4 (segments ['n']) := by
  rintro par m pm blob ⟨hpm, c, p, mode, -, hm, -, -, hpar, -⟩
  rintro q ⟨dir, t, es, e, he, rfl, hat, hes, -⟩
  obtain rfl : par = 3 := by
    have hmem : par ∈ parentsAt renameItems c := parent_ofItems.mp ⟨m, hm, hpar⟩
    match c with
    | 0 | 1 | 2 | 3 => cases hmem
    | 4 => exact List.mem_singleton.mp hmem
    | n + 5 => cases hmem
  cases hpm
  obtain ⟨rfl, rfl⟩ := renameItems_dir hat
  cases hes
  obtain rfl := List.mem_singleton.mp he
  refine ⟨List.forall_mem_singleton.mpr ⟨['a'], by decide⟩, fun d rest t _ _ hd d' hd' => ?_⟩
  rw [(renameItems_dir hd).1, (renameItems_dir hd').1]

/-- The commit before the rename is stored, with its tree and the content. -/
theorem blame_complete_iff_rename : ∃ st',
    faultBlame (ofItems renameItems) 10 10 "4" ['n'] emptyStore = .ok st' ∧
      BlameComplete (ofItems renameItems) 10 4 (segments ['n']) st'.stored := by
  obtain ⟨st', hrun, -⟩ := map_eq_ok rename_run
  exact ⟨st', hrun, (blame_complete_iff renameItems_named rfl hrun).mpr renameItems_noRepeats⟩

/-- The last commit of `e/f` is not stored: `d/f` alone is found, and goes no further. -/
theorem repeated_tree_missed : ∃ st',
    faultBlame (ofItems repeatItems) 10 10 "9" ['n'] emptyStore = .ok st' ∧
      Blamed (ofItems repeatItems) 9 (segments ['n']) 7 [[101], [102]] ∧
      (ofItems repeatItems).commit 7 = .ok ⟨7, 6, [], "", "", "", "", "", 10, "", ""⟩ ∧
      7 ∉ st'.stored ∧ ¬ BlameComplete (ofItems repeatItems) 10 9 (segments ['n']) st'.stored := by
  obtain ⟨st', hrun, hnot⟩ := map_eq_ok repeat_run
  have h7 : 7 ∉ st'.stored := of_decide_eq_false hnot
  have hcontent : ContentAt (ofItems repeatItems) 2 [[101], [102]] 0 :=
    ⟨[[101]], 1, _, ⟨[102], 0, ⟨0o100644⟩⟩, List.mem_singleton_self _, rfl,
      DirAt.root.enter (e := ⟨[101], 1, EntryMode.tree⟩) rfl
        (List.mem_cons_of_mem _ (List.mem_singleton_self _)) rfl, rfl, rfl, rfl⟩
  have hblamed : Blamed (ofItems repeatItems) 9 (segments ['n']) 7 [[101], [102]] :=
    .keep (.rename (m := ⟨9, 3, [8], "", "", "", "", "", 30, "", ""⟩) .start rfl rfl rfl
      List.mem_cons_self rfl rfl hcontent) rfl rfl List.mem_cons_self rfl rfl
  exact ⟨st', hrun, hblamed, rfl, h7, fun h => h7 ((h.2 7 _ hblamed _ rfl).1)⟩

end Examples

end Walgit.Web
