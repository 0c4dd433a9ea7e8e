import Mathlib

/-!
# The object graph

Objects are named by ids and refer to objects that were written before them:
a commit to its tree and its parents, a tree to its entries, a tag to its
target. A gitlink entry names a commit, usually of another repository, and
refers to nothing here.
-/

namespace Walgit.Objects

inductive Kind
  | commit | tree | blob | tag
  deriving DecidableEq, Repr

/-- The mode of a tree entry: `is_tree`, `is_commit` (a gitlink) or neither. -/
inductive Mode
  | tree | blob | gitlink
  deriving DecidableEq, Repr

structure Entry (O : Type) where
  mode : Mode
  name : String
  oid : O
  deriving DecidableEq, Repr

inductive Obj (O : Type)
  | commit (tree : O) (parents : List O)
  | tree (entries : List (Entry O))
  | blob (size : ℕ)
  | tag (target : O)
  deriving DecidableEq, Repr

variable {O : Type}

def Mode.kind : Mode → Kind
  | .tree => .tree
  | .blob => .blob
  | .gitlink => .commit

def Obj.kind : Obj O → Kind
  | .commit _ _ => .commit
  | .tree _ => .tree
  | .blob _ => .blob
  | .tag _ => .tag

/-- The objects an object refers to. -/
def Obj.refs : Obj O → List O
  | .commit t ps => t :: ps
  | .tree es => (es.filter fun e => e.mode ≠ .gitlink).map Entry.oid
  | .blob _ => []
  | .tag b => [b]

/-- Well-formed objects under their ids: a reference is to an object of the kind it states,
and to one of a smaller height, since an id is the hash of what it names. -/
structure Graph (O : Type) where
  obj : O → Option (Obj O)
  height : O → ℕ
  height_lt : ∀ {a b : O} {x : Obj O}, obj a = some x → b ∈ x.refs → height b < height a
  tree_kind : ∀ {c t : O} {ps : List O} {x : Obj O},
    obj c = some (.commit t ps) → obj t = some x → x.kind = .tree
  parent_kind : ∀ {c t p : O} {ps : List O} {x : Obj O},
    obj c = some (.commit t ps) → p ∈ ps → obj p = some x → x.kind = .commit
  entry_kind : ∀ {t : O} {es : List (Entry O)} {e : Entry O} {x : Obj O},
    obj t = some (.tree es) → e ∈ es → obj e.oid = some x → x.kind = e.mode.kind

namespace Graph

variable (G : Graph O)

/-- `b` is referred to by `a`. -/
def Link (a b : O) : Prop := ∃ x, G.obj a = some x ∧ b ∈ x.refs

/-- The closure of `a`: what a repository must hold to use it. -/
def Reach : O → O → Prop := Relation.ReflTransGen G.Link

/-- Every object that is referred to exists. -/
def Closed : Prop := ∀ {a b : O}, G.Link a b → (G.obj b).isSome

def IsCommit (c : O) : Prop := ∃ t ps, G.obj c = some (.commit t ps)

def IsTree (t : O) : Prop := ∃ es, G.obj t = some (.tree es)

def IsBlob (b : O) : Prop := ∃ n, G.obj b = some (.blob n)

/-- `p` is a parent of `c`. -/
def Parent (c p : O) : Prop := ∃ t ps, G.obj c = some (.commit t ps) ∧ p ∈ ps

/-- `a` is `c` or an ancestor of it. -/
def Ancestor : O → O → Prop := Relation.ReflTransGen G.Parent

/-- `b` is the target of the tag `a`. -/
def Target (a b : O) : Prop := G.obj a = some (.tag b)

/-- `b` is met in following `a` through tags. -/
def Peel : O → O → Prop := Relation.ReflTransGen G.Target

/-- `o` stands `k` entries below the tree `t`. -/
inductive Under : ℕ → O → O → Prop
  | here (t : O) : Under 0 t t
  | entry {k : ℕ} {t o : O} {es : List (Entry O)} {e : Entry O} :
      G.obj t = some (.tree es) → e ∈ es → e.mode ≠ .gitlink → Under k e.oid o →
      Under (k + 1) t o

/-- `t` is the tree of `c`. -/
def TreeOf (c t : O) : Prop := ∃ ps, G.obj c = some (.commit t ps)

variable {G}

theorem Link.height_lt {a b : O} (h : G.Link a b) : G.height b < G.height a := by
  obtain ⟨x, hx, hb⟩ := h
  exact G.height_lt hx hb

theorem link_parent {c p : O} (h : G.Parent c p) : G.Link c p := by
  obtain ⟨t, ps, hc, hp⟩ := h
  exact ⟨_, hc, List.mem_cons_of_mem t hp⟩

theorem link_tree {c t : O} (h : G.TreeOf c t) : G.Link c t := by
  obtain ⟨ps, hc⟩ := h
  exact ⟨_, hc, List.mem_cons_self⟩

theorem link_target {a b : O} (h : G.Target a b) : G.Link a b :=
  ⟨_, h, List.mem_singleton_self b⟩

theorem link_entry {t : O} {es : List (Entry O)} {e : Entry O} (ht : G.obj t = some (.tree es))
    (he : e ∈ es) (hm : e.mode ≠ .gitlink) : G.Link t e.oid :=
  ⟨_, ht, List.mem_map.mpr ⟨e, List.mem_filter.mpr ⟨he, by simpa using hm⟩, rfl⟩⟩

theorem Ancestor.reach {a b : O} (h : G.Ancestor a b) : G.Reach a b :=
  Relation.ReflTransGen.mono (fun _ _ => link_parent) _ _ h

theorem Peel.reach {a b : O} (h : G.Peel a b) : G.Reach a b :=
  Relation.ReflTransGen.mono (fun _ _ => link_target) _ _ h

theorem Under.reach {k : ℕ} {t o : O} (h : G.Under k t o) : G.Reach t o := by
  induction h with
  | here t => exact .refl
  | entry ht he hm _ ih => exact .head (link_entry ht he hm) ih

theorem Under.trans {j k : ℕ} {a b c : O} (h : G.Under j a b) (h' : G.Under k b c) :
    G.Under (j + k) a c := by
  induction h with
  | here t => simpa using h'
  | entry ht he hm _ ih =>
    have := Under.entry ht he hm (ih h')
    rwa [Nat.add_right_comm] at this

theorem Under.height_le {k : ℕ} {t o : O} (h : G.Under k t o) : G.height o + k ≤ G.height t := by
  induction h with
  | here t => simp
  | entry ht he hm _ ih =>
    have := (link_entry ht he hm).height_lt
    omega

theorem Under.cases_head {k : ℕ} {t o : O} (h : G.Under (k + 1) t o) :
    ∃ es e, G.obj t = some (.tree es) ∧ e ∈ es ∧ e.mode ≠ .gitlink ∧ G.Under k e.oid o := by
  cases h with
  | entry ht he hm hu => exact ⟨_, _, ht, he, hm, hu⟩

@[simp] theorem under_zero {t o : O} : G.Under 0 t o ↔ t = o := by
  constructor
  · rintro ⟨⟩
    rfl
  · rintro rfl
    exact .here t

theorem under_of_reach_tree (hG : G.Closed) {t o : O} (h : G.Reach t o) (ht : G.IsTree t) :
    ∃ k, G.Under k t o := by
  induction h using Relation.ReflTransGen.head_induction_on with
  | refl => exact ⟨0, .here o⟩
  | @head a b hab hbo ih =>
    obtain ⟨es, hes⟩ := ht
    have hb := hG hab
    obtain ⟨x, hx, hmem⟩ := hab
    obtain rfl : x = .tree es := Option.some.inj (hx.symm.trans hes)
    simp only [Obj.refs, List.mem_map, List.mem_filter, decide_eq_true_eq] at hmem
    obtain ⟨e, ⟨he, hm⟩, rfl⟩ := hmem
    obtain ⟨y, hy⟩ := Option.isSome_iff_exists.mp hb
    have hkind := G.entry_kind hes he hy
    cases hmode : e.mode with
    | gitlink => exact absurd hmode hm
    | tree =>
      rw [hmode] at hkind
      cases y with
      | tree es' =>
        obtain ⟨k, hk⟩ := ih ⟨es', hy⟩
        exact ⟨k + 1, .entry hes he hm hk⟩
      | commit _ _ => cases hkind
      | blob _ => cases hkind
      | tag _ => cases hkind
    | blob =>
      rw [hmode] at hkind
      cases y with
      | blob n =>
        rcases Relation.ReflTransGen.cases_head hbo with rfl | ⟨d, ⟨x, hx', hd⟩, _⟩
        · exact ⟨1, .entry hes he hm (.here _)⟩
        · obtain rfl : x = .blob n := Option.some.inj (hx'.symm.trans hy)
          simp [Obj.refs] at hd
      | commit _ _ => cases hkind
      | tree _ => cases hkind
      | tag _ => cases hkind

/-! ## Graphs by tables -/

def kindAt (objs : List (Obj ℕ)) (i : ℕ) : Option Kind := objs[i]?.map Obj.kind

/-- The object at `i` refers to earlier objects of the kinds it states. -/
def wellKinded (objs : List (Obj ℕ)) (i : ℕ) (x : Obj ℕ) : Bool :=
  x.refs.all (fun b => b < i) &&
    match x with
    | .commit t ps => kindAt objs t = some .tree && ps.all fun p => kindAt objs p = some .commit
    | .tree es => es.all fun e => kindAt objs e.oid = none || kindAt objs e.oid = some e.mode.kind
    | _ => true

/-- The objects in the order they were written, each under its position. -/
def WellKinded (objs : List (Obj ℕ)) : Prop :=
  ∀ i, ∀ _ : i < objs.length, wellKinded objs i objs[i] = true

instance (objs : List (Obj ℕ)) : Decidable (WellKinded objs) :=
  inferInstanceAs (Decidable (∀ i, ∀ _ : i < objs.length, _))

theorem WellKinded.at {objs : List (Obj ℕ)} (h : WellKinded objs) {i : ℕ} {x : Obj ℕ}
    (hx : objs[i]? = some x) : wellKinded objs i x = true := by
  obtain ⟨hi, rfl⟩ := List.getElem?_eq_some_iff.mp hx
  exact h i hi

theorem WellKinded.lt {objs : List (Obj ℕ)} (h : WellKinded objs) {a b : ℕ} {x : Obj ℕ}
    (hx : objs[a]? = some x) (hb : b ∈ x.refs) : b < a := by
  have hall := (Bool.and_eq_true_iff.mp (h.at hx)).1
  simpa using List.all_eq_true.mp hall b hb

def ofTable (objs : List (Obj ℕ)) (h : WellKinded objs) : Graph ℕ where
  obj i := objs[i]?
  height i := i
  height_lt hx hb := h.lt hx hb
  tree_kind := by
    intro c t ps x hc hx
    have hk := (Bool.and_eq_true_iff.mp (h.at hc)).2
    simp only [kindAt, hx, Option.map_some, Bool.and_eq_true, decide_eq_true_eq,
      Option.some.injEq] at hk
    exact hk.1
  parent_kind := by
    intro c t p ps x hc hp hx
    have hk := (Bool.and_eq_true_iff.mp (h.at hc)).2
    simp only [kindAt, Bool.and_eq_true, List.all_eq_true] at hk
    simpa [hx] using hk.2 p hp
  entry_kind := by
    intro t es e x ht he hx
    have hk := (Bool.and_eq_true_iff.mp (h.at ht)).2
    simp only [kindAt, Bool.or_eq_true, List.all_eq_true] at hk
    simpa [hx] using hk e he

theorem ofTable_closed {objs : List (Obj ℕ)} (h : WellKinded objs) : (ofTable objs h).Closed := by
  rintro a b ⟨x, hx, hb⟩
  obtain ⟨ha, -⟩ := List.getElem?_eq_some_iff.mp hx
  have hlt := h.lt hx hb
  exact Option.isSome_iff_exists.mpr ⟨objs[b], List.getElem?_eq_getElem (hlt.trans ha)⟩

end Graph

end Walgit.Objects
