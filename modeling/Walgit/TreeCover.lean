import Walgit.TreeWalk

/-!
# What a tree walk covers

An enumeration diffs several root trees, each against the trees of some parents,
into one set. Every object below a root that the receiver lacks ends up in the
set or stands below one of the root's parents, when a tree means the same to
every diff that enters it: an entry that one diff skips as unchanged stands
below a parent of the others too, and under a filter by depth a tree whose
entries are asked for at one place is entered at the others, or was passed by
the same walk before.
-/

namespace Walgit.Objects

variable {O : Type} {R : Repo O}

/-- The filter asks for an object that stands at depth `k` below a root tree. -/
def PackFilter.Keeps (filter : PackFilter) (G : Graph O) (k : ℕ) (o : O) : Prop :=
  match filter with
  | .none => True
  | .blobNone => ¬ G.IsBlob o
  | .blobLimit limit => ∀ size, G.obj o = some (.blob size) → size < limit
  | .tree depth => k < depth

/-- What the filter asks for whatever the depth. -/
def PackFilter.Wants (filter : PackFilter) (G : Graph O) (o : O) : Prop :=
  match filter with
  | .none => True
  | .blobNone => ¬ G.IsBlob o
  | .blobLimit limit => ∀ size, G.obj o = some (.blob size) → size < limit
  | .tree _ => True

/-- For a filter by depth `i` is no deeper than `k`. -/
def PackFilter.NoDeeper (filter : PackFilter) (i k : ℕ) : Prop :=
  match filter with
  | .tree _ => i ≤ k
  | _ => True

theorem PackFilter.Keeps.wants {filter : PackFilter} {G : Graph O} {k : ℕ} {o : O}
    (h : filter.Keeps G k o) : filter.Wants G o := by
  cases filter with
  | none => trivial
  | blobNone => exact h
  | blobLimit limit => exact h
  | tree d => trivial

theorem PackFilter.NoDeeper.keeps {filter : PackFilter} {G : Graph O} {i k : ℕ} {o : O}
    (h : filter.NoDeeper i k) (hk : filter.Keeps G k o) : filter.Keeps G i o := by
  cases filter with
  | none => trivial
  | blobNone => exact hk
  | blobLimit limit => exact hk
  | tree d => exact Nat.lt_of_le_of_lt h hk

theorem PackFilter.NoDeeper.add {filter : PackFilter} {i k : ℕ} (h : filter.NoDeeper i k)
    (j : ℕ) : filter.NoDeeper (i + j) (k + j) := by
  cases filter with
  | tree d => exact Nat.add_le_add_right h j
  | none => trivial
  | blobNone => trivial
  | blobLimit limit => trivial

theorem PackFilter.NoDeeper.refl (filter : PackFilter) (k : ℕ) : filter.NoDeeper k k := by
  cases filter with
  | tree d => exact le_refl k
  | none => trivial
  | blobNone => trivial
  | blobLimit limit => trivial

/-- The entries of an old tree in the graph. -/
def entriesOf (G : Graph O) : Old O → List (Entry O)
  | .absent => []
  | .tree oid =>
    match G.obj oid with
    | some (.tree es) => es
    | _ => []

theorem treeEntries_eq {oid : O} {es : List (Entry O)} (h : treeEntries R oid = some es) :
    es = entriesOf R.graph (.tree oid) := by
  unfold treeEntries at h
  cases hf : R.find oid with
  | none => simp [hf] at h
  | some x =>
    have hx := Repo.graph_of_find hf
    cases x <;> simp only [hf, Option.some.injEq] at h <;> simp [entriesOf, hx, h]

theorem oldEntries_eq {G : Graph O} {R : Repo O} (hR : R.graph = G)
    {subs : List (Old O)}
    (h : lostOlds R subs = []) :
    (subs.map fun old => (oldEntries R old).getD []) = subs.map (entriesOf G) := by
  refine List.map_congr_left fun old hold => ?_
  cases old with
  | absent => rfl
  | tree oid =>
    have hnot := List.filterMap_eq_nil_iff.mp h _ hold
    simp only [ite_eq_left_iff, Bool.not_eq_true, Option.isSome_eq_false_iff, reduceCtorEq,
      imp_false] at hnot
    cases hes : treeEntries R oid with
    | none => simp [hes] at hnot
    | some es =>
      simp only [oldEntries, hes, Option.getD_some]
      rw [treeEntries_eq hes, hR]

theorem entryAt_mem {es : List (Entry O)} {name : String} {e : Entry O}
    (h : entryAt es name = some e) : e ∈ es ∧ e.name = name := by
  have hmem := List.mem_of_find?_eq_some h
  have hname := List.find?_some h
  exact ⟨List.mem_reverse.mp hmem, by simpa using hname⟩

theorem foldl_missing {f : Collected O → Entry O → Collected O}
    (hf : ∀ st e, (f st e).missing = [] → st.missing = []) (es : List (Entry O))
    (st : Collected O) (h : (es.foldl f st).missing = []) : st.missing = [] := by
  induction es generalizing st with
  | nil => exact h
  | cons e es ih => exact hf st e (ih (f st e) h)

variable (G : Graph O)

/-- An object that stands below one of the old root trees, no deeper than `k`. -/
def BelowOld (filter : PackFilter) (olds : List (Old O)) (k : ℕ) (o : O) : Prop :=
  ∃ r i, Old.tree r ∈ olds ∧ G.Under i r o ∧ filter.NoDeeper i k

/-- What a walk from `t` adds stands below `t`. -/
structure Grows (set set' : Finset O) (t : O) : Prop where
  sub : set ⊆ set'
  below : ∀ o ∈ set', o ∉ set → ∃ j, G.Under (j + 1) t o

variable {G} {filter : PackFilter}

@[simp] theorem not_belowOld_nil {k : ℕ} {o : O} : ¬ BelowOld G filter [] k o := by
  rintro ⟨r, i, hr, -⟩
  cases hr

theorem Grows.refl (set : Finset O) (t : O) : Grows G set set t :=
  ⟨subset_rfl, fun _ h h' => absurd h h'⟩

theorem Grows.trans {a b c : Finset O} {t : O} (h : Grows G a b t) (h' : Grows G b c t) :
    Grows G a c t := by
  refine ⟨h.sub.trans h'.sub, ?_⟩
  intro o ho hno
  by_cases hb : o ∈ b
  · exact h.below o hb hno
  · exact h'.below o ho hb

theorem Grows.lift {set set' : Finset O} {t : O} {es : List (Entry O)} {e : Entry O}
    (ht : G.obj t = some (.tree es)) (he : e ∈ es) (hm : e.mode ≠ .gitlink)
    (h : Grows G set set' e.oid) : Grows G set set' t := by
  refine ⟨h.sub, ?_⟩
  intro o ho hno
  obtain ⟨j, hj⟩ := h.below o ho hno
  exact ⟨j + 1, .entry ht he hm hj⟩

theorem PackFilter.Keeps.above {a o : O} {j k : ℕ} (hu : G.Under j a o)
    (h : filter.Keeps G (k + (j + 1)) o) : filter.Keeps G (k + 1) a := by
  cases j with
  | zero => rwa [Graph.under_zero.mp hu]
  | succ j =>
    obtain ⟨es', _, ht', -⟩ := hu.cases_head
    cases filter with
    | none => trivial
    | blobNone =>
      rintro ⟨n, hn⟩
      simp [ht'] at hn
    | blobLimit limit =>
      intro n hn
      simp [ht'] at hn
    | tree d =>
      have : k + (j + 1 + 1) < d := h
      exact show k + 1 < d by omega

section Cover

variable [DecidableEq O] (G)

/-- The trees a diff of `root` against `olds` enters, with depth and the old trees there. -/
inductive Changed (root : O) (olds : List (Old O)) : O → ℕ → List (Old O) → Prop
  | root : Changed root olds root 0 olds
  | entry {t : O} {k : ℕ} {subs : List (Old O)} {es : List (Entry O)} {e : Entry O} :
      Changed root olds t k subs → G.obj t = some (.tree es) → e ∈ es → e.mode = .tree →
      unchanged (subs.map (entriesOf G)) e = false →
      Changed root olds e.oid (k + 1) ((subs.map (entriesOf G)).map (subOld e.name))

variable {G} {root : O} {olds : List (Old O)}

theorem Changed.old_root {t : O} {k : ℕ} {subs : List (Old O)} (h : Changed G root olds t k subs) :
    ∀ s, Old.tree s ∈ subs → ∃ r, Old.tree r ∈ olds ∧ G.Under k r s := by
  induction h with
  | root =>
    intro s hs
    exact ⟨s, hs, .here s⟩
  | @entry t k subs es e hch ht he hm hun ih =>
    intro s hs
    simp only [List.map_map, List.mem_map, Function.comp_apply] at hs
    obtain ⟨old, hold, hsub⟩ := hs
    cases old with
    | absent => simp [entriesOf, subOld, entryAt] at hsub
    | tree oid =>
      unfold subOld at hsub
      cases hat : entryAt (entriesOf G (.tree oid)) e.name with
      | none => simp [hat] at hsub
      | some e' =>
        simp only [hat] at hsub
        split_ifs at hsub with hmode
        obtain rfl : e'.oid = s := Old.tree.inj hsub
        obtain ⟨r, hr, hur⟩ := ih oid hold
        have hmem := (entryAt_mem hat).1
        unfold entriesOf at hmem
        cases hobj : G.obj oid with
        | none => simp [hobj] at hmem
        | some x =>
          cases x <;> simp only [hobj, List.not_mem_nil] at hmem
          refine ⟨r, hr, hur.trans ?_⟩
          exact .entry hobj hmem (by rw [hmode]; decide) (.here _)

theorem Changed.under {t : O} {k : ℕ} {subs : List (Old O)}
    (h : Changed G root olds t k subs) : G.Under k root t := by
  induction h with
  | root => exact .here root
  | entry _ ht he hm _ ih => exact ih.trans (.entry ht he (by rw [hm]; decide) (.here _))

theorem Changed.nil_subs {t : O} {k : ℕ} {subs : List (Old O)}
    (h : Changed G root [] t k subs) : subs = [] := by
  induction h with
  | root => rfl
  | entry _ _ _ _ _ ih => simp [ih]

variable (G root olds) in
/-- The places at which a diff of `root` against `olds` enters a tree. The path to a place has the
positions of the entries that lead to it; of two places the walk comes first to the one whose path
is the less. -/
inductive ChangedAt : List ℕ → O → List (Old O) → Prop
  | root : ChangedAt [] root olds
  | entry {path : List ℕ} {t : O} {subs : List (Old O)} {es : List (Entry O)} {i : ℕ}
      {e : Entry O} :
      ChangedAt path t subs → G.obj t = some (.tree es) → es[i]? = some e → e.mode = .tree →
      unchanged (subs.map (entriesOf G)) e = false →
      ChangedAt (path ++ [i]) e.oid ((subs.map (entriesOf G)).map (subOld e.name))

theorem ChangedAt.changed {path : List ℕ} {t : O} {subs : List (Old O)}
    (h : ChangedAt G root olds path t subs) : Changed G root olds t path.length subs := by
  induction h with
  | root => exact .root
  | entry _ ht he hm hun ih =>
    rw [List.length_append]
    exact .entry ih ht (List.mem_of_getElem? he) hm hun

theorem ChangedAt.first {o : O} {subs : List (Old O)} (h : ChangedAt G root olds [] o subs) :
    o = root ∧ subs = olds := by
  generalize hp : ([] : List ℕ) = p at h
  cases h with
  | root => exact ⟨rfl, rfl⟩
  | entry => exact absurd hp.symm (List.append_ne_nil_of_right_ne_nil _ (List.cons_ne_nil _ _))

theorem ChangedAt.last {path : List ℕ} {i : ℕ} {o : O} {subs' : List (Old O)}
    (h : ChangedAt G root olds (path ++ [i]) o subs') :
    ∃ t subs es e, ChangedAt G root olds path t subs ∧ G.obj t = some (.tree es) ∧
      es[i]? = some e ∧ e.mode = .tree ∧ unchanged (subs.map (entriesOf G)) e = false ∧
      o = e.oid ∧ subs' = (subs.map (entriesOf G)).map (subOld e.name) := by
  generalize hp : path ++ [i] = p at h
  cases h with
  | root => exact absurd hp (List.append_ne_nil_of_right_ne_nil _ (List.cons_ne_nil _ _))
  | entry h ht he hm hun =>
    obtain ⟨rfl, hi⟩ := List.append_inj' hp rfl
    obtain rfl := List.singleton_inj.mp hi
    exact ⟨_, _, _, _, h, ht, he, hm, hun, rfl, rfl⟩

/-- There is one tree at a place. -/
theorem ChangedAt.unique {path : List ℕ} {t t' : O} {subs subs' : List (Old O)}
    (h : ChangedAt G root olds path t subs) (h' : ChangedAt G root olds path t' subs') :
    t = t' ∧ subs = subs' := by
  induction path using List.reverseRecOn generalizing t t' subs subs' with
  | nil => exact ⟨h.first.1.trans h'.first.1.symm, h.first.2.trans h'.first.2.symm⟩
  | append_singleton path i ih =>
    obtain ⟨s, _, es, e, hs, hes, he, -, -, rfl, rfl⟩ := h.last
    obtain ⟨s', _, es', e', hs', hes', he', -, -, rfl, rfl⟩ := h'.last
    obtain ⟨rfl, rfl⟩ := ih hs hs'
    obtain rfl : es = es' := Obj.tree.inj (Option.some.inj (hes.symm.trans hes'))
    obtain rfl := Option.some.inj (he.symm.trans he')
    exact ⟨rfl, rfl⟩

/-- A place below another one. -/
theorem ChangedAt.split {path tail : List ℕ} {o : O} {subs' : List (Old O)}
    (h : ChangedAt G root olds (path ++ tail) o subs') :
    ∃ t subs, ChangedAt G root olds path t subs ∧ G.Under tail.length t o := by
  induction tail using List.reverseRecOn generalizing o subs' with
  | nil => exact ⟨o, subs', by simpa using h, .here o⟩
  | append_singleton tail i ih =>
    rw [← List.append_assoc] at h
    obtain ⟨s, subs, es, e, hs, hes, he, hm, -, rfl, -⟩ := h.last
    obtain ⟨t, subs, ht, hu⟩ := ih hs
    rw [List.length_append]
    exact ⟨t, subs, ht,
      hu.trans (.entry hes (List.mem_of_getElem? he) (by rw [hm]; decide) (.here _))⟩

/-- The paths in front of a step: those in front of the node, the node's own, and those through an
earlier step. -/
theorem lt_concat_iff {path rest : List ℕ} {n : ℕ} : path < rest ++ [n] ↔
    path < rest ∨ path = rest ∨ ∃ m tail, m < n ∧ path = rest ++ m :: tail := by
  induction rest generalizing path with
  | nil =>
    cases path with
    | nil => simp
    | cons a as => simp [List.cons_lt_cons_iff]
  | cons b rest ih =>
    cases path with
    | nil => simp
    | cons a as =>
      simp only [List.cons_append, List.cons_lt_cons_iff, ih, List.cons.injEq]
      grind

theorem lt_next {path rest : List ℕ} {i : ℕ} (h : path < rest ++ [i + 1]) :
    path < rest ++ [i] ∨ ∃ tail, path = rest ++ [i] ++ tail := by
  rcases lt_concat_iff.mp h with hlt | heq | ⟨m, tail, hm, heq⟩
  · exact .inl (lt_concat_iff.mpr (.inl hlt))
  · exact .inl (lt_concat_iff.mpr (.inr (.inl heq)))
  · rcases Nat.lt_succ_iff_lt_or_eq.mp hm with hm | rfl
    · exact .inl (lt_concat_iff.mpr (.inr (.inr ⟨m, tail, hm, heq⟩)))
    · exact .inr ⟨tail, by rw [heq, List.append_cons]⟩

theorem under_of_entryAt (hG : G.Closed) {t : O} {es : List (Entry O)} {e : Entry O} {old : Old O}
    (ht : G.obj t = some (.tree es)) (he : e ∈ es) (hm : e.mode ≠ .gitlink)
    (hat : (entryAt (entriesOf G old) e.name).any (fun e' => e'.oid = e.oid) = true) :
    ∃ s, old = .tree s ∧ ∀ {j o}, G.Under j e.oid o → G.Under (j + 1) s o := by
  obtain ⟨e', hat, hoid⟩ := Option.any_eq_true _ _ |>.mp hat
  have hoid : e'.oid = e.oid := by simpa using hoid
  have hmem := (entryAt_mem hat).1
  cases old with
  | absent => simp [entriesOf] at hmem
  | tree s =>
    unfold entriesOf at hmem
    cases hobj : G.obj s with
    | none => simp [hobj] at hmem
    | some x =>
      cases x <;> simp only [hobj, List.not_mem_nil] at hmem
      obtain ⟨y, hy⟩ := Option.isSome_iff_exists.mp (hG (Graph.link_entry ht he hm))
      have hk1 := G.entry_kind ht he hy
      have hk2 := G.entry_kind hobj hmem (hoid ▸ hy)
      have hm' : e'.mode ≠ .gitlink := by
        intro hgit
        rw [hgit, hk1] at hk2
        cases hmode : e.mode with
        | gitlink => exact hm hmode
        | tree => simp [hmode, Mode.kind] at hk2
        | blob => simp [hmode, Mode.kind] at hk2
      exact ⟨s, rfl, fun hu => .entry hobj hmem hm' (hoid ▸ hu)⟩

variable (filter) in
theorem below_of_unchanged (hG : G.Closed) {t o : O} {k j : ℕ} {subs : List (Old O)}
    {es : List (Entry O)} {e : Entry O} (h : Changed G root olds t k subs)
    (ht : G.obj t = some (.tree es)) (he : e ∈ es) (hm : e.mode ≠ .gitlink)
    (hun : unchanged (subs.map (entriesOf G)) e = true) (hu : G.Under j e.oid o) :
    BelowOld G filter olds (k + (j + 1)) o := by
  cases hsubs : subs with
  | nil => simp [hsubs, unchanged] at hun
  | cons old rest =>
    simp only [hsubs, unchanged, List.map_cons, List.isEmpty_cons, Bool.not_false, Bool.true_and,
      List.all_cons, Bool.and_eq_true] at hun
    obtain ⟨s, rfl, hunder⟩ := under_of_entryAt hG ht he hm hun.1
    obtain ⟨r, hr, hur⟩ := h.old_root s (hsubs ▸ List.mem_cons_self)
    exact ⟨r, k + (j + 1), hr, hur.trans (hunder hu), .refl _ _⟩

/-! ## The diffs of one enumeration -/

variable (G filter)

/-- A diff of `E` that stops at a tree, one level beyond the depth of the filter, while a diff of
`D` asks for the entries of the tree, has come to it before, above the depth of the filter, and no
parent's tree holds it that far up. -/
def DepthClear (New : O → Prop) (D E : O → List (Old O) → Prop) : Prop :=
  ∀ ⦃d root olds root' olds' t k path subs subs'⦄, filter = .tree d → New t → D root olds →
    Changed G root olds t k subs → k + 1 < d → E root' olds' →
    ChangedAt G root' olds' path t subs' → path.length = d + 1 →
    ∃ path₀ subs₀, path₀ < path ∧ ChangedAt G root' olds' path₀ t subs₀ ∧ path₀.length < d ∧
      ¬ BelowOld G filter olds' path₀.length t

/-- When a diff of `D` and one of `E` enter the same tree, an entry the client lacks that the one of
`E` skips as unchanged stands below a parent of the one of `D`. -/
def DiffsAgree (New : O → Prop) (D E : O → List (Old O) → Prop) : Prop :=
  ∀ ⦃root olds root' olds' t k k' subs subs' es e⦄, D root olds → Changed G root olds t k subs →
    E root' olds' → Changed G root' olds' t k' subs' → filter.stops k' = false →
    G.obj t = some (.tree es) → e ∈ es → e.mode ≠ .gitlink → New e.oid →
    filter.Keeps G (k + 1) e.oid → unchanged (subs'.map (entriesOf G)) e = true →
    BelowOld G filter olds (k + 1) e.oid

/-- What makes the diffs of an enumeration fit together: the walks of `E` leave nothing out that
the diffs of `D` ask for. `New` are the objects the receiver lacks. -/
structure Diffs (New : O → Prop) (D E : O → List (Old O) → Prop) : Prop where
  closed : G.Closed
  asks : ∀ {root olds}, E root olds → D root olds
  new : ∀ {k a b}, G.Under k a b → New b → New a
  depth : DepthClear G filter New D E
  agree : DiffsAgree G filter New D E

/-- Every entry of `t` that some diff asks for is in the set, or stands below a parent of that
diff. -/
def Expanded (New : O → Prop) (D : O → List (Old O) → Prop) (set : Finset O) (t : O) : Prop :=
  ∀ ⦃root olds k subs es e⦄, D root olds → Changed G root olds t k subs →
    G.obj t = some (.tree es) → e ∈ es → e.mode ≠ .gitlink → New e.oid →
    filter.Keeps G (k + 1) e.oid → e.oid ∈ set ∨ BelowOld G filter olds (k + 1) e.oid

/-- The trees of height below `r` in the set are expanded. -/
def ExpandedBelow (New : O → Prop) (D : O → List (Old O) → Prop) (set : Finset O) (r : ℕ) :
    Prop :=
  ∀ t ∈ set, G.height t < r → Expanded G filter New D set t

/-- What the filter asks for at the places in front of `path` is in the set, or stands below an old
root. -/
def Passed (New : O → Prop) (root : O) (olds : List (Old O)) (set : Finset O) (path : List ℕ) :
    Prop :=
  ∀ ⦃path₀ o subs⦄, path₀ < path → ChangedAt G root olds path₀ o subs → New o →
    filter.Keeps G path₀.length o → o ∈ set ∨ BelowOld G filter olds path₀.length o

variable {G filter} {New : O → Prop} {D E : O → List (Old O) → Prop}

theorem Expanded.mono {set set' : Finset O} {t : O} (hs : set ⊆ set')
    (h : Expanded G filter New D set t) : Expanded G filter New D set' t := by
  intro root olds k subs es e hD hch ht he hm hn hk
  rcases h hD hch ht he hm hn hk with hmem | hold
  · exact .inl (hs hmem)
  · exact .inr hold

theorem Expanded.anti {D' : O → List (Old O) → Prop} {set : Finset O} {t : O}
    (hD : ∀ root olds, D' root olds → D root olds) (h : Expanded G filter New D set t) :
    Expanded G filter New D' set t :=
  fun _ _ _ _ _ _ hdiff => h (hD _ _ hdiff)

theorem Diffs.expanded (h : Diffs G filter New D E) {t : O} {es : List (Entry O)} {k : ℕ}
    {subs : List (Old O)} {set : Finset O} (hE : E root olds)
    (hch : Changed G root olds t k subs) (hgo : filter.stops k = false)
    (ht : G.obj t = some (.tree es))
    (hent : ∀ e ∈ es, e.mode ≠ .gitlink → unchanged (subs.map (entriesOf G)) e = false →
      filter.Wants G e.oid → e.oid ∈ set) :
    Expanded G filter New D set t := by
  intro root' olds' k' subs' es' e hD' hch' ht' he hm hn hkeep
  obtain rfl : es' = es := Obj.tree.inj (Option.some.inj (ht'.symm.trans ht))
  by_cases hun : unchanged (subs.map (entriesOf G)) e = true
  · exact .inr (h.agree hD' hch' hE hch hgo ht he hm hn hkeep hun)
  · exact .inl (hent e he hm (by simpa using hun) hkeep.wants)

/-- In a set whose trees are expanded, an object the filter asks for below a tree of a diff is in
the set, or stands below a parent of the diff. The induction is on the path to the object. -/
theorem Diffs.covered (h : Diffs G filter New D E) {set : Finset O} (hD : D root olds) {t o : O}
    {j k : ℕ} {subs : List (Old O)} (hch : Changed G root olds t k subs)
    (hset : ExpandedBelow G filter New D set (G.height t + 1)) (ht : t ∈ set)
    (hu : G.Under j t o) (hn : New o) (hkeep : filter.Keeps G (k + j) o) :
    o ∈ set ∨ BelowOld G filter olds (k + j) o := by
  induction j generalizing t k subs with
  | zero =>
    obtain rfl := Graph.under_zero.mp hu
    exact .inl ht
  | succ j ih =>
    obtain ⟨es, e, hes, he, hm, hu'⟩ := hu.cases_head
    have hne : New e.oid := h.new hu' hn
    by_cases hun : unchanged (subs.map (entriesOf G)) e = true
    · exact .inr (below_of_unchanged filter h.closed hch hes he hm hun hu')
    have hassoc : k + 1 + j = k + (j + 1) := by omega
    have hlt := (Graph.link_entry hes he hm).height_lt
    rcases hset t ht (Nat.lt_succ_self _) hD hch hes he hm hne (hkeep.above hu') with
      hmem | ⟨r, i, hr, hur, hi⟩
    · cases j with
      | zero =>
        obtain rfl := Graph.under_zero.mp hu'
        exact .inl hmem
      | succ j =>
        obtain ⟨es', -, hes', -⟩ := hu'.cases_head
        have hmode : e.mode = .tree := by
          have hkind := G.entry_kind hes he hes'
          cases hmode : e.mode with
          | tree => rfl
          | blob => simp [hmode, Mode.kind, Obj.kind] at hkind
          | gitlink => exact absurd hmode hm
        rw [← hassoc] at hkeep ⊢
        exact ih (.entry hch hes he hmode (by simpa using hun))
          (fun x hx hxlt => hset x hx (by omega)) hmem hu' hkeep
    · exact .inr ⟨r, i + j, hr, hur.trans hu', hassoc ▸ hi.add j⟩

/-! ## The walk -/

theorem diffEntry_missing {descend : O → List (Old O) → Collected O → Collected O}
    (hd : ∀ o subs st, (descend o subs st).missing = [] → st.missing = []) {depth : ℕ}
    {maps : List (List (Entry O))} (st : Collected O) (e : Entry O)
    (h : (diffEntry descend R filter depth maps st e).missing = []) : st.missing = [] := by
  unfold diffEntry at h
  split_ifs at h
  · exact h
  · exact h
  · exact h
  · exact h
  · exact hd _ _ (st.insert e.oid) h
  · exact h
  · exact h

theorem diffTree_missing {n : ℕ} (t : O) (subs : List (Old O)) {depth : ℕ} (st : Collected O)
    (h : (diffTreeNewObjects R filter n t subs depth st).missing = []) : st.missing = [] := by
  induction n generalizing t subs depth st with
  | zero => exact h
  | succ n ih =>
    simp only [diffTreeNewObjects] at h
    split at h
    · simp at h
    · split_ifs at h with hlost
      · exact foldl_missing (diffEntry_missing fun o subs st => ih o subs st) _ st h
      · exact absurd (List.append_eq_nil_iff.mp h).2 hlost

theorem ExpandedBelow.insert {set : Finset O} {r : ℕ} {o : O}
    (h : ExpandedBelow G filter New D set r)
    (ho : G.height o < r → Expanded G filter New D (Insert.insert o set) o) :
    ExpandedBelow G filter New D (Insert.insert o set) r := by
  intro t ht hr
  rcases Finset.mem_insert.mp ht with rfl | hmem
  · exact ho hr
  · exact (h t hmem hr).mono (Finset.subset_insert _ _)

theorem ExpandedBelow.lift {set set' : Finset O} {r : ℕ} {o : O}
    (h : ExpandedBelow G filter New D set r) (hgrow : Grows G (Insert.insert o set) set' o)
    (hsmall : ExpandedBelow G filter New D set' (G.height o))
    (ho : Expanded G filter New D set' o) : ExpandedBelow G filter New D set' r := by
  intro t ht hr
  by_cases hmem : t ∈ set
  · exact (h t hmem hr).mono ((Finset.subset_insert _ _).trans hgrow.sub)
  · by_cases heq : t = o
    · exact heq ▸ ho
    · obtain ⟨i, hi⟩ := hgrow.below t ht (by simp [heq, hmem])
      have := hi.height_le
      exact hsmall t ht (by omega)

theorem Grows.insert {set : Finset O} {t : O} {es : List (Entry O)} {e : Entry O}
    (ht : G.obj t = some (.tree es)) (he : e ∈ es) (hm : e.mode ≠ .gitlink) :
    Grows G set (Insert.insert e.oid set) t := by
  refine ⟨Finset.subset_insert _ _, ?_⟩
  intro o ho hno
  obtain rfl : o = e.oid := (Finset.mem_insert.mp ho).resolve_right hno
  exact ⟨0, .entry ht he hm (.here _)⟩

@[simp] theorem stops_zero : filter.stops 0 = false := by
  cases filter <;> rfl

variable (G filter New D) in
/-- The walk of a tree from one of the places where a diff enters it: it adds what stands below
the tree, and leaves the tree and every smaller one expanded. -/
def Walks (set set' : Finset O) (t : O) : Prop :=
  Grows G set set' t ∧ ExpandedBelow G filter New D set' (G.height t) ∧
    Expanded G filter New D set' t

theorem Passed.mono {set set' : Finset O} {path : List ℕ} (hs : set ⊆ set')
    (h : Passed G filter New root olds set path) : Passed G filter New root olds set' path := by
  intro path₀ o subs hlt hch hn hkeep
  rcases h hlt hch hn hkeep with hmem | hold
  · exact .inl (hs hmem)
  · exact .inr hold

theorem Passed.enter {set : Finset O} {path : List ℕ} {t : O} {subs : List (Old O)}
    (hch : ChangedAt G root olds path t subs) (ht : t ∈ set)
    (h : Passed G filter New root olds set path) :
    Passed G filter New root olds set (path ++ [0]) := by
  intro path₀ o subs₀ hlt hch₀ hn hkeep
  rcases lt_concat_iff.mp hlt with hlt | rfl | ⟨m, _, hm, -⟩
  · exact h hlt hch₀ hn hkeep
  · exact .inl ((hch₀.unique hch).1 ▸ ht)
  · exact absurd hm (Nat.not_lt_zero m)

/-- Nothing is in front of the root. -/
theorem Passed.start {set : Finset O} (ht : root ∈ set) :
    Passed G filter New root olds set ([] ++ [0]) :=
  Passed.enter .root ht fun _ _ _ hlt => absurd hlt (List.not_lt_nil _)

/-- Past an entry: what is asked for below it is covered, as every tree there is expanded. -/
theorem Passed.next (hd : Diffs G filter New D E) (hE : E root olds) {set : Finset O}
    {path : List ℕ} {t : O} {subs : List (Old O)} {es : List (Entry O)} {e : Entry O} {i : ℕ}
    (hch : ChangedAt G root olds path t subs) (ht : G.obj t = some (.tree es))
    (he : es[i]? = some e) (hexp : ExpandedBelow G filter New D set (G.height t))
    (hent : e.mode ≠ .gitlink → unchanged (subs.map (entriesOf G)) e = false →
      filter.Wants G e.oid → e.oid ∈ set)
    (h : Passed G filter New root olds set (path ++ [i])) :
    Passed G filter New root olds set (path ++ [i + 1]) := by
  intro path₀ o subs₀ hlt hch₀ hn hkeep
  rcases lt_next hlt with hlt | ⟨tail, rfl⟩
  · exact h hlt hch₀ hn hkeep
  obtain ⟨x, subs₁, hx, hu⟩ := hch₀.split
  obtain ⟨t', subs', es', e', hch', ht', he', hm, hun, rfl, -⟩ := hx.last
  obtain ⟨rfl, rfl⟩ := hch'.unique hch
  obtain rfl : es' = es := Obj.tree.inj (Option.some.inj (ht'.symm.trans ht))
  obtain rfl := Option.some.inj (he'.symm.trans he)
  have hmode : e'.mode ≠ .gitlink := by
    rw [hm]
    decide
  have hheight := (Graph.link_entry ht (List.mem_of_getElem? he) hmode).height_lt
  rw [List.length_append, List.length_append, List.length_singleton] at hkeep ⊢
  have hassoc : path.length + 1 + tail.length = path.length + (tail.length + 1) := by omega
  have hmem := hent hmode hun (PackFilter.Keeps.above hu (hassoc ▸ hkeep)).wants
  have hx' := hx.changed
  rw [List.length_append, List.length_singleton] at hx'
  exact hd.covered (hd.asks hE) hx' (fun y hy hlt => hexp y hy (by omega)) hmem hu hn hkeep

theorem expanded_of_not_tree {set : Finset O} {t : O} (h : ¬ G.IsTree t) :
    Expanded G filter New D set t := by
  intro root olds k subs es e _ _ ht
  exact absurd ⟨es, ht⟩ h

/-- One entry: what it adds stands below the tree, every smaller tree stays expanded, and the
entry is in the set if the diff asks for it. `hdesc` is the walk of an entry's own tree. -/
theorem diffEntry_walks (h : Diffs G filter New D E) {R : Repo O} (hR : R.graph = G)
    {descend : O → List (Old O) → Collected O → Collected O} {t : O} {path : List ℕ}
    {subs : List (Old O)} {es : List (Entry O)} {i : ℕ} {e : Entry O} {st : Collected O}
    (hdesc : ∀ {o subs s}, G.height o < G.height t → ChangedAt G root olds (path ++ [i]) o subs →
      filter.stops (path.length + 1) = false →
      Passed G filter New root olds s.set (path ++ [i] ++ [0]) →
      ExpandedBelow G filter New D s.set (G.height o) → (descend o subs s).missing = [] →
      Walks G filter New D s.set (descend o subs s).set o)
    (hE : E root olds) (hch : ChangedAt G root olds path t subs)
    (hgo : filter.stops path.length = false) (ht : G.obj t = some (.tree es))
    (hi : es[i]? = some e) (hpass : Passed G filter New root olds st.set (path ++ [i]))
    (hexp : ExpandedBelow G filter New D st.set (G.height t))
    (hmiss : (diffEntry descend R filter path.length (subs.map (entriesOf G)) st e).missing
      = []) :
    Grows G st.set (diffEntry descend R filter path.length (subs.map (entriesOf G)) st e).set t ∧
    ExpandedBelow G filter New D
      (diffEntry descend R filter path.length (subs.map (entriesOf G)) st e).set (G.height t) ∧
    (e.mode ≠ .gitlink → unchanged (subs.map (entriesOf G)) e = false →
      filter.Wants G e.oid →
      e.oid ∈ (diffEntry descend R filter path.length (subs.map (entriesOf G)) st e).set) := by
  have he : e ∈ es := List.mem_of_getElem? hi
  unfold diffEntry at hmiss ⊢
  by_cases hgit : e.mode = .gitlink
  · simp only [hgit, if_true]
    exact ⟨.refl _ _, hexp, fun h => absurd rfl h⟩
  by_cases hun : unchanged (subs.map (entriesOf G)) e = true
  · simp only [hgit, hun, if_false, if_true]
    exact ⟨.refl _ _, hexp, fun _ h => absurd h (by simp)⟩
  have hun' : unchanged (subs.map (entriesOf G)) e = false := by simpa using hun
  have hheight := (Graph.link_entry ht he hgit).height_lt
  obtain ⟨x, hx⟩ := Option.isSome_iff_exists.mp (h.closed (Graph.link_entry ht he hgit))
  have hkind := G.entry_kind ht he hx
  simp only [hgit, hun', if_false, Bool.false_eq_true] at hmiss ⊢
  cases hmode : e.mode with
  | gitlink => exact absurd hmode hgit
  | tree =>
    simp only [hmode, if_true] at hmiss ⊢
    have hent : ChangedAt G root olds (path ++ [i]) e.oid
        ((subs.map (entriesOf G)).map (subOld e.name)) := .entry hch ht hi hmode hun'
    by_cases hstop : filter.stops (path.length + 1) = true
    · simp only [hstop, if_true]
      refine ⟨.insert ht he hgit, hexp.insert fun _ => ?_, fun _ _ _ => Finset.mem_insert_self _ _⟩
      -- a tree beyond the limit is sent; where its entries are asked for it was passed before
      intro root' olds' k' subs' es' e' hD' hch' hes' he' hm' hn' hkeep
      cases filter with
      | none => cases hstop
      | blobNone => cases hstop
      | blobLimit _ => cases hstop
      | tree d =>
        have hd : d < path.length + 1 := by simpa [PackFilter.stops] using hstop
        have hle : path.length ≤ d := by simpa [PackFilter.stops] using hgo
        have hne : New e.oid := h.new (.entry hes' he' hm' (.here _)) hn'
        obtain ⟨path₀, subs₀, hlt, hch₀, hlen, hold⟩ :=
          h.depth rfl hne hD' hch' hkeep hE hent (by rw [List.length_append]; simp; omega)
        have hmem := (hpass hlt hch₀ hne hlen).resolve_right hold
        rcases hexp e.oid hmem hheight hD' hch' hes' he' hm' hn' hkeep with hin | hbelow
        · exact .inl (Finset.mem_insert_of_mem hin)
        · exact .inr hbelow
    · simp only [hstop, if_false, Bool.false_eq_true] at hmiss ⊢
      by_cases hmem : e.oid ∈ st.set
      · simp only [hmem, if_true]
        exact ⟨.refl _ _, hexp, fun _ _ _ => trivial⟩
      · simp only [hmem, if_false] at hmiss ⊢
        have hexp' : ExpandedBelow G filter New D (st.insert e.oid).set (G.height e.oid) := by
          intro y hy hlt
          rcases Finset.mem_insert.mp hy with rfl | hy
          · exact absurd hlt (lt_irrefl _)
          · exact (hexp y hy (hlt.trans hheight)).mono (Finset.subset_insert _ _)
        have hgo' : filter.stops (path.length + 1) = false := by simpa using hstop
        obtain ⟨hgrow, hsmall, hself⟩ := hdesc hheight hent hgo'
          ((hpass.mono (Finset.subset_insert _ _)).enter hent (Finset.mem_insert_self _ _))
          hexp' hmiss
        refine ⟨?_, hexp.lift hgrow hsmall hself, ?_⟩
        · exact (Grows.insert ht he hgit).trans (hgrow.lift ht he hgit)
        · exact fun _ _ _ => hgrow.sub (Finset.mem_insert_self _ _)
  | blob =>
    simp only [hmode, reduceCtorEq, if_false] at hmiss ⊢
    rw [hmode] at hkind
    cases x with
    | commit _ _ => cases hkind
    | tree _ => cases hkind
    | tag _ => cases hkind
    | blob size =>
      by_cases hskip : filter.skips R e.oid = true
      · simp only [hskip, if_true]
        refine ⟨.refl _ _, hexp, fun _ _ hkeep => ?_⟩
        cases filter with
        | none => cases hskip
        | tree _ => cases hskip
        | blobNone => exact absurd ⟨size, hx⟩ hkeep
        | blobLimit limit =>
          have hlt := hkeep size hx
          simp only [PackFilter.skips] at hskip
          cases hf : R.find e.oid with
          | none => simp [hf] at hskip
          | some y =>
            have hy := hR ▸ Repo.graph_of_find hf
            obtain rfl : y = .blob size := Option.some.inj (hy.symm.trans hx)
            simp only [hf, decide_eq_true_eq] at hskip
            omega
      · simp only [hskip, if_false, Bool.false_eq_true]
        refine ⟨.insert ht he hgit, hexp.insert fun _ => ?_,
          fun _ _ _ => Finset.mem_insert_self _ _⟩
        refine expanded_of_not_tree ?_
        rintro ⟨es', hes'⟩
        simp [hx] at hes'

theorem diffEntries_walks (h : Diffs G filter New D E) {R : Repo O} (hR : R.graph = G)
    {descend : O → List (Old O) → Collected O → Collected O} {t : O} {path : List ℕ}
    {subs : List (Old O)} {es rest : List (Entry O)} (done : List (Entry O)) {st : Collected O}
    (hmono : ∀ o subs s, (descend o subs s).missing = [] → s.missing = [])
    (hdesc : ∀ {i o subs s}, G.height o < G.height t →
      ChangedAt G root olds (path ++ [i]) o subs → filter.stops (path.length + 1) = false →
      Passed G filter New root olds s.set (path ++ [i] ++ [0]) →
      ExpandedBelow G filter New D s.set (G.height o) → (descend o subs s).missing = [] →
      Walks G filter New D s.set (descend o subs s).set o)
    (hE : E root olds) (hch : ChangedAt G root olds path t subs)
    (hgo : filter.stops path.length = false) (ht : G.obj t = some (.tree es))
    (hes : es = done ++ rest)
    (hpass : Passed G filter New root olds st.set (path ++ [done.length]))
    (hexp : ExpandedBelow G filter New D st.set (G.height t))
    (hmiss : (rest.foldl (diffEntry descend R filter path.length (subs.map (entriesOf G)))
      st).missing = []) :
    Grows G st.set
      (rest.foldl (diffEntry descend R filter path.length (subs.map (entriesOf G))) st).set t ∧
    ExpandedBelow G filter New D
      (rest.foldl (diffEntry descend R filter path.length (subs.map (entriesOf G))) st).set
      (G.height t) ∧
    ∀ e ∈ rest, e.mode ≠ .gitlink → unchanged (subs.map (entriesOf G)) e = false →
      filter.Wants G e.oid → e.oid ∈
        (rest.foldl (diffEntry descend R filter path.length (subs.map (entriesOf G))) st).set := by
  induction rest generalizing done st with
  | nil => exact ⟨.refl _ _, hexp, fun e he => absurd he List.not_mem_nil⟩
  | cons e rest ih =>
    rw [List.foldl_cons] at hmiss ⊢
    have hi : es[done.length]? = some e := by simp [hes]
    have hmiss1 := foldl_missing (diffEntry_missing hmono) rest _ hmiss
    obtain ⟨hgrow1, hexp1, hent1⟩ := diffEntry_walks h hR hdesc hE hch hgo ht hi hpass hexp hmiss1
    have hnext := (hpass.mono hgrow1.sub).next h hE hch ht hi hexp1 hent1
    obtain ⟨hgrow2, hexp2, hent2⟩ := ih (done ++ [e]) (by simp [hes])
      (by rwa [List.length_append]) hexp1 hmiss
    refine ⟨hgrow1.trans hgrow2, hexp2, ?_⟩
    intro e' he' hm hun hkeep
    rcases List.mem_cons.mp he' with rfl | he'
    · exact hgrow2.sub (hent1 hm hun hkeep)
    · exact hent2 e' he' hm hun hkeep

theorem diffTree_walks (h : Diffs G filter New D E) {R : Repo O} (hR : R.graph = G) {n : ℕ}
    {t : O} {path : List ℕ} {subs : List (Old O)} (st : Collected O) (hn : G.height t < n)
    (hE : E root olds) (hch : ChangedAt G root olds path t subs)
    (hgo : filter.stops path.length = false)
    (hpass : Passed G filter New root olds st.set (path ++ [0]))
    (hexp : ExpandedBelow G filter New D st.set (G.height t))
    (hmiss : (diffTreeNewObjects R filter n t subs path.length st).missing = []) :
    Walks G filter New D st.set (diffTreeNewObjects R filter n t subs path.length st).set t := by
  induction n generalizing t path subs st with
  | zero => omega
  | succ n ih =>
    simp only [diffTreeNewObjects] at hmiss ⊢
    cases hes : treeEntries R t with
    | none => simp [hes] at hmiss
    | some es =>
      simp only [hes] at hmiss ⊢
      by_cases hlost : lostOlds R subs = []
      swap
      · simp only [hlost, if_false, List.append_eq_nil_iff, and_false] at hmiss
      simp only [hlost, if_true, oldEntries_eq hR hlost] at hmiss ⊢
      have hentries : es = entriesOf G (.tree t) := hR ▸ treeEntries_eq hes
      by_cases hobj : G.obj t = some (.tree es)
      · obtain ⟨hgrow, hsmall, hent⟩ := diffEntries_walks h hR []
          (fun o subs s hm => diffTree_missing o subs s hm)
          (fun {i o subs' s} hlt hch' hgo' hpass' hexp' hm => by
            have hlen : path.length + 1 = (path ++ [i]).length := by simp
            rw [hlen] at hgo' hm ⊢
            exact ih s (by omega) hch' hgo' hpass' hexp' hm) hE hch hgo hobj rfl hpass hexp hmiss
        exact ⟨hgrow, hsmall, h.expanded hE hch.changed hgo hobj hent⟩
      · -- an object that is no tree has no entries
        have hnot : ¬ G.IsTree t := by
          rintro ⟨es', hes'⟩
          simp only [entriesOf, hes'] at hentries
          exact hobj (hentries ▸ hes')
        have hnil : es = [] := by
          unfold entriesOf at hentries
          cases hx : G.obj t with
          | none => simpa [hx] using hentries
          | some x =>
            cases x with
            | tree es' => exact absurd ⟨es', hx⟩ hnot
            | commit _ _ => simpa [hx] using hentries
            | blob _ => simpa [hx] using hentries
            | tag _ => simpa [hx] using hentries
        subst hnil
        exact ⟨.refl _ _, hexp, expanded_of_not_tree hnot⟩

end Cover

end Walgit.Objects
