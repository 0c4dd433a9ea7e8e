import Walgit.Enumerate

/-!
# What a fetch owes its client

A client asks for some objects and holds the closures of some others. It is owed
every object in the closure of its wants that it does not hold, except for what
the filter lets the server leave out: blobs, blobs of a size, or what stands
deep below every root tree of the request. An object that is wanted by name, or
is met in peeling a wanted tag, is never left out.
-/

namespace Walgit.Objects

variable {O : Type} (G : Graph O)

/-- In the closure of a want. -/
def Requested (wants : List O) (o : O) : Prop := ∃ w ∈ wants, G.Reach w o

/-- Wanted itself, or met in peeling a wanted tag. -/
def Explicit (wants : List O) (o : O) : Prop := ∃ w ∈ wants, G.Peel w o

/-- In the closure of a have. -/
def Held (haves : List O) (o : O) : Prop := ∃ h ∈ haves, G.Reach h o

/-- A tree that depths are counted from: the tree of a requested commit, or a wanted tree. -/
def RootTree (wants : List O) (r : O) : Prop :=
  (∃ c, Requested G wants c ∧ G.TreeOf c r) ∨ (Explicit G wants r ∧ G.IsTree r)

variable {G} {wants haves : List O}

theorem Requested.trans {a b : O} (h : Requested G wants a) (hab : G.Reach a b) :
    Requested G wants b := by
  obtain ⟨w, hw, hwa⟩ := h
  exact ⟨w, hw, hwa.trans hab⟩

theorem Held.trans {a b : O} (h : Held G haves a) (hab : G.Reach a b) : Held G haves b := by
  obtain ⟨w, hw, hwa⟩ := h
  exact ⟨w, hw, hwa.trans hab⟩

theorem Explicit.requested {o : O} (h : Explicit G wants o) : Requested G wants o := by
  obtain ⟨w, hw, hwo⟩ := h
  exact ⟨w, hw, Graph.Peel.reach hwo⟩

theorem tree_or_blob (hG : G.Closed) {k : ℕ} {t o : O} (ht : G.IsTree t) (h : G.Under k t o) :
    G.IsTree o ∨ G.IsBlob o := by
  induction h with
  | here t => exact .inl ht
  | @entry k t o es e hes he hm hu ih =>
    obtain ⟨x, hx⟩ := Option.isSome_iff_exists.mp (hG (Graph.link_entry hes he hm))
    have hkind := G.entry_kind hes he hx
    cases x with
    | tree es' => exact ih ⟨es', hx⟩
    | blob n =>
      cases hu with
      | here => exact .inr ⟨n, hx⟩
      | entry ht' _ _ _ => simp [hx] at ht'
    | commit _ _ =>
      cases hmode : e.mode with
      | gitlink => exact absurd hmode hm
      | tree => simp [hmode, Mode.kind, Obj.kind] at hkind
      | blob => simp [hmode, Mode.kind, Obj.kind] at hkind
    | tag _ => cases hmode : e.mode <;> simp [hmode, Mode.kind, Obj.kind] at hkind

theorem isTree_of_treeOf (hG : G.Closed) {c t : O} (h : G.TreeOf c t) : G.IsTree t := by
  obtain ⟨x, hx⟩ := Option.isSome_iff_exists.mp (hG (Graph.link_tree h))
  obtain ⟨ps, hc⟩ := h
  have hkind := G.tree_kind hc hx
  cases x with
  | tree es => exact ⟨es, hx⟩
  | commit _ _ => cases hkind
  | blob _ => cases hkind
  | tag _ => cases hkind

theorem isCommit_of_parent (hG : G.Closed) {c p : O} (h : G.Parent c p) : G.IsCommit p := by
  obtain ⟨x, hx⟩ := Option.isSome_iff_exists.mp (hG (Graph.link_parent h))
  obtain ⟨t, ps, hc, hp⟩ := h
  have hkind := G.parent_kind hc hp hx
  cases x with
  | commit t' ps' => exact ⟨t', ps', hx⟩
  | tree _ => cases hkind
  | blob _ => cases hkind
  | tag _ => cases hkind

theorem isCommit_of_ancestor (hG : G.Closed) {c a : O} (hc : G.IsCommit c)
    (h : G.Ancestor c a) : G.IsCommit a := by
  induction h with
  | refl => exact hc
  | tail _ hp _ => exact isCommit_of_parent hG hp

theorem RootTree.isTree (hG : G.Closed) {r : O} (h : RootTree G wants r) : G.IsTree r := by
  rcases h with ⟨c, -, hc⟩ | ⟨-, hr⟩
  · exact isTree_of_treeOf hG hc
  · exact hr

theorem RootTree.requested {r : O} (h : RootTree G wants r) : Requested G wants r := by
  rcases h with ⟨c, hc, ht⟩ | ⟨hr, -⟩
  · exact hc.trans (.single (Graph.link_tree ht))
  · exact hr.requested

/-- How an object is reached: through tags to it, through tags to a commit it is an ancestor of,
or below the tree of such a commit or a peeled tree. -/
theorem reach_cases (hG : G.Closed) {a o : O} (h : G.Reach a o) :
    G.Peel a o ∨ (∃ c, G.Peel a c ∧ G.IsCommit c ∧ G.Ancestor c o) ∨
    (∃ c d t k, G.Peel a c ∧ G.IsCommit c ∧ G.Ancestor c d ∧ G.TreeOf d t ∧ G.Under k t o) ∨
    (∃ t k, G.Peel a t ∧ G.IsTree t ∧ G.Under k t o) := by
  induction h using Relation.ReflTransGen.head_induction_on with
  | refl => exact .inl .refl
  | @head a b hab hbo ih =>
    have hlink := hab
    obtain ⟨x, hx, hmem⟩ := hab
    cases x with
    | blob n => simp [Obj.refs] at hmem
    | tree es =>
      obtain ⟨k, hk⟩ := Graph.under_of_reach_tree hG (.head hlink hbo) ⟨es, hx⟩
      exact .inr (.inr (.inr ⟨a, k, .refl, ⟨es, hx⟩, hk⟩))
    | tag target =>
      obtain rfl : b = target := by simpa [Obj.refs] using hmem
      have hab : G.Target a b := hx
      rcases ih with h | ⟨c, h, hc⟩ | ⟨c, d, t, k, h, hc⟩ | ⟨t, k, h, ht⟩
      · exact .inl (.head hab h)
      · exact .inr (.inl ⟨c, .head hab h, hc⟩)
      · exact .inr (.inr (.inl ⟨c, d, t, k, .head hab h, hc⟩))
      · exact .inr (.inr (.inr ⟨t, k, .head hab h, ht⟩))
    | commit t ps =>
      have hcommit : G.IsCommit a := ⟨t, ps, hx⟩
      rcases List.mem_cons.mp hmem with rfl | hp
      · have htree : G.TreeOf a b := ⟨ps, hx⟩
        obtain ⟨k, hk⟩ := Graph.under_of_reach_tree hG hbo (isTree_of_treeOf hG htree)
        exact .inr (.inr (.inl ⟨a, a, b, k, .refl, hcommit, .refl, htree, hk⟩))
      · have hpar : G.Parent a b := ⟨t, ps, hx, hp⟩
        obtain ⟨tb, psb, hb⟩ := isCommit_of_parent hG hpar
        -- a parent is a commit, and no tag
        have hpeel : ∀ {c}, G.Peel b c → b = c := by
          intro c hc
          rcases Relation.ReflTransGen.cases_head hc with rfl | ⟨d, hbd, -⟩
          · rfl
          · simp [Graph.Target, hb] at hbd
        rcases ih with h | ⟨c, h, -, hc⟩ | ⟨c, d, t', k, h, -, hd, hc⟩ | ⟨t', k, h, ⟨es, hes⟩, -⟩
        · exact .inr (.inl ⟨a, .refl, hcommit, .single (hpeel h ▸ hpar)⟩)
        · exact .inr (.inl ⟨a, .refl, hcommit, .head hpar (hpeel h ▸ hc)⟩)
        · exact .inr (.inr (.inl ⟨a, d, t', k, .refl, hcommit, .head hpar (hpeel h ▸ hd), hc⟩))
        · simp [← hpeel h, hb] at hes

theorem Requested.ancestor (hG : G.Closed) {c : O} (h : Requested G wants c)
    (hc : G.IsCommit c) : ∃ d, Explicit G wants d ∧ G.IsCommit d ∧ G.Ancestor d c := by
  obtain ⟨w, hw, hwc⟩ := h
  obtain ⟨t, ps, hobj⟩ := hc
  have hnot : ∀ {k r}, G.IsTree r → ¬ G.Under k r c := by
    intro k r hr hu
    rcases tree_or_blob hG hr hu with ⟨es, hes⟩ | ⟨n, hn⟩
    · simp [hobj] at hes
    · simp [hobj] at hn
  rcases reach_cases hG hwc with h | ⟨d, h, hd, hdc⟩ | ⟨d, e, t', k, h, hd, hde, ht, hu⟩ |
    ⟨t', k, h, ht, hu⟩
  · exact ⟨c, ⟨w, hw, h⟩, ⟨t, ps, hobj⟩, .refl⟩
  · exact ⟨d, ⟨w, hw, h⟩, hd, hdc⟩
  · exact absurd hu (hnot (isTree_of_treeOf hG ht))
  · exact absurd hu (hnot ht)

end Walgit.Objects
