import Walgit.Depth
import Walgit.FetchRuns

/-!
# What a shallow fetch owes its client

A shallow commit has no parents for the client. The client holds what its haves
reach under its shallow file, and a deepen request changes the file: the server
names the commits that become shallow and those that no longer are. Afterwards
the client must hold the commits within the depth with their contents, and
whatever it reaches under the new file.
-/

namespace Walgit.Objects

variable {O : Type} (G : Graph O)

/-- A link that a client follows whose shallow file is `shallow`. -/
def ClientLink (shallow : List O) (a b : O) : Prop :=
  G.Link a b ∧ (a ∈ shallow → ¬ G.Parent a b)

def ClientReach (shallow : List O) : O → O → Prop := Relation.ReflTransGen (ClientLink G shallow)

/-- What the client holds: it reaches it from a have. -/
def ClientHas (shallow haves : List O) (o : O) : Prop := ∃ h ∈ haves, ClientReach G shallow h o

/-- What the walk of the request leaves out: the ancestors of the haves that are not shallow on
the client, and the ancestors of the parents that the depth cuts off. -/
def Hides (req : UploadPackRequest O) (haves : List O) (d : ℕ) (c : O) : Prop :=
  (∃ h ∈ haves, h ∉ req.shallow ∧ G.Ancestor h c) ∨
    ∃ p, CutOff G req.wants d p ∧ G.Ancestor p c

/-- The conditions on the commits of a shallow fetch. -/
structure ShallowClear (req : UploadPackRequest O) (haves : List O) (d : ℕ) : Prop where
  /-- A commit within the depth that the walk leaves out is on the client. -/
  reached : ∀ c, Within G req.wants d c → Hides G req haves d c → ClientHas G req.shallow haves c
  /-- A commit that is shallow on the client has its parents within the depth or on the client,
  or is shallow again. -/
  deepened : ∀ c ∈ req.shallow, ¬ Boundary G req.wants d c → ∀ p, G.Parent c p →
    Within G req.wants d p ∨ ClientHas G req.shallow haves p

/-- The conditions on the diffs of a shallow fetch for a client that has something. -/
structure DiffsClear [DecidableEq O] (req : UploadPackRequest O) (haves : List O) (d : ℕ) :
    Prop where
  /-- A parent that the depth cuts off shares with its child only what the client holds. -/
  cut : ∀ c p t t' j k o, Within G req.wants d c → G.Parent c p → ¬ Within G req.wants d p →
    G.TreeOf c t → G.Under j t o → G.TreeOf p t' → G.Under k t' o →
    ClientHas G req.shallow haves o
  agree : DiffsAgree G .none (fun o => ¬ ClientHas G req.shallow haves o)
    (CommitDiff G (Within G req.wants d)) (CommitDiff G (Within G req.wants d))

section Lines

variable [DecidableEq O]

/-- The commits of the `unshallow` lines. -/
def unshallowLines (req : UploadPackRequest O) (plan : ShallowPlan O) : List O :=
  req.shallow.filter fun s => s ∉ plan.shallow

/-- The shallow file of the client after the fetch. -/
def shallowFile (req : UploadPackRequest O) (plan : ShallowPlan O) : List O :=
  (req.shallow.filter fun s => s ∉ unshallowLines req plan) ++ plan.shallow

/-- A shallow fetch that sends `sent` is complete. -/
structure ShallowComplete (req : UploadPackRequest O) (haves : List O) (d : ℕ)
    (plan : ShallowPlan O) (sent : Finset O) : Prop where
  commits : ∀ c, Within G req.wants d c → c ∈ sent ∨ ClientHas G req.shallow haves c
  contents : ∀ c t k o, Within G req.wants d c → G.TreeOf c t → G.Under k t o →
    o ∈ sent ∨ ClientHas G req.shallow haves o
  /-- The `shallow` lines name the commits whose parents are cut. -/
  shallow : ∀ c, c ∈ plan.shallow ↔ Boundary G req.wants d c
  /-- The `unshallow` lines name those whose parents were cut and no longer are. -/
  unshallow : ∀ c, c ∈ unshallowLines req plan ↔ c ∈ req.shallow ∧ ¬ Boundary G req.wants d c ∧
    ∀ p, G.Parent c p → p ∈ sent ∨ ClientHas G req.shallow haves p
  /-- With its new shallow file the client refers to no object that it lacks. -/
  closed : ∀ a o, a ∈ req.wants ∨ a ∈ haves → ClientReach G (shallowFile req plan) a o →
    o ∈ sent ∨ ClientHas G req.shallow haves o

end Lines

variable {G} {req : UploadPackRequest O} {haves shallow : List O} {d : ℕ}

theorem ClientHas.link {a b : O} (h : ClientHas G shallow haves a)
    (hab : ClientLink G shallow a b) : ClientHas G shallow haves b := by
  obtain ⟨w, hw, hwa⟩ := h
  exact ⟨w, hw, hwa.tail hab⟩

theorem ClientHas.tree (hG : G.Closed) {c t : O} (h : ClientHas G shallow haves c)
    (ht : G.TreeOf c t) : ClientHas G shallow haves t := by
  refine h.link ⟨Graph.link_tree ht, fun _ hp => ?_⟩
  exact not_isCommit_below hG (isTree_of_treeOf hG ht) (.here t) (isCommit_of_parent hG hp)

theorem ClientHas.under {k : ℕ} {a b : O} (h : ClientHas G shallow haves a)
    (hu : G.Under k a b) : ClientHas G shallow haves b := by
  induction hu with
  | here t => exact h
  | entry ht he hm _ ih =>
    refine ih (h.link ⟨Graph.link_entry ht he hm, fun _ hp => ?_⟩)
    obtain ⟨t', ps, hc, -⟩ := hp
    simp [ht] at hc

theorem Within.of_not_boundary {wants : List O} {c p : O} (hd : 0 < d) (h : Within G wants d c)
    (hb : ¬ Boundary G wants d c) (hp : G.Parent c p) : Within G wants d p := by
  obtain ⟨n, rfl⟩ : ∃ n, d = n + 1 := ⟨d - 1, by omega⟩
  have hn : Within G wants n c := by
    by_contra hn
    exact hb ⟨h, hn, p, hp⟩
  exact .inr ⟨c, hn, hp⟩

section Closed

variable [DecidableEq O] {plan : ShallowPlan O} {sent : Finset O}

theorem mem_unshallowLines (hplan : ∀ c, c ∈ plan.shallow ↔ Boundary G req.wants d c) {c : O} :
    c ∈ unshallowLines req plan ↔ c ∈ req.shallow ∧ ¬ Boundary G req.wants d c := by
  simp [unshallowLines, hplan]

theorem mem_shallowFile (hplan : ∀ c, c ∈ plan.shallow ↔ Boundary G req.wants d c) {c : O} :
    c ∈ shallowFile req plan ↔ Boundary G req.wants d c := by
  simp only [shallowFile, List.mem_append, List.mem_filter, decide_eq_true_eq,
    mem_unshallowLines hplan, hplan]
  tauto

/-- What the client can reach under its new file: it holds it, it is a commit within the depth,
or it stands below the tree of one. -/
theorem client_reach_cases (hG : G.Closed) (hw : ∀ w ∈ req.wants, G.IsCommit w) (hd : 0 < d)
    (hclear : ShallowClear G req haves d)
    (hplan : ∀ c, c ∈ plan.shallow ↔ Boundary G req.wants d c) {a o : O}
    (ha : a ∈ req.wants ∨ a ∈ haves) (h : ClientReach G (shallowFile req plan) a o) :
    ClientHas G req.shallow haves o ∨ Within G req.wants d o ∨
      ∃ c t k, Within G req.wants d c ∧ G.TreeOf c t ∧ G.Under k t o := by
  induction h with
  | refl =>
    rcases ha with ha | ha
    · obtain ⟨n, rfl⟩ : ∃ n, d = n + 1 := ⟨d - 1, by omega⟩
      exact .inr (.inl (.inl ha))
    · exact .inl ⟨a, ha, .refl⟩
  | @tail b o _ hbo ih =>
    obtain ⟨hlink, hcut⟩ := hbo
    rw [mem_shallowFile hplan] at hcut
    rcases ih with hb | hb | ⟨c, t, k, hc, ht, hu⟩
    · by_cases hold : b ∈ req.shallow ∧ G.Parent b o
      · -- a parent that was cut off before
        obtain ⟨hs, hp⟩ := hold
        rcases hclear.deepened b hs (fun hbd => hcut hbd hp) o hp with ho | ho
        · exact .inr (.inl ho)
        · exact .inl ho
      · exact .inl (hb.link ⟨hlink, fun hs hp => hold ⟨hs, hp⟩⟩)
    · by_cases hp : G.Parent b o
      · exact .inr (.inl (hb.of_not_boundary hd (fun hbd => hcut hbd hp) hp))
      · obtain ⟨t, ps, hobj⟩ := hb.isCommit hG hw
        obtain ⟨x, hx, hmem⟩ := hlink
        obtain rfl : x = .commit t ps := Option.some.inj (hx.symm.trans hobj)
        rcases List.mem_cons.mp hmem with rfl | hps
        · exact .inr (.inr ⟨b, o, 0, hb, ⟨ps, hobj⟩, .here o⟩)
        · exact absurd ⟨t, ps, hobj, hps⟩ hp
    · obtain ⟨x, hx, hmem⟩ := hlink
      rcases tree_or_blob hG (isTree_of_treeOf hG ht) hu with ⟨es, hes⟩ | ⟨n, hn⟩
      · obtain rfl : x = .tree es := Option.some.inj (hx.symm.trans hes)
        simp only [Obj.refs, List.mem_map, List.mem_filter, decide_eq_true_eq] at hmem
        obtain ⟨e, ⟨he, hm⟩, rfl⟩ := hmem
        exact .inr (.inr ⟨c, t, k + 1, hc, ht, hu.trans (.entry hes he hm (.here _))⟩)
      · obtain rfl : x = .blob n := Option.some.inj (hx.symm.trans hn)
        simp [Obj.refs] at hmem

end Closed

end Walgit.Objects
