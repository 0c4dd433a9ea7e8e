import Walgit.Cache

/-!
# What evictions leave alone

The handles that requests hold and the registered one are live. As long as an
eviction takes a handle only when nobody holds one, and a directory is opened
only when no eviction is at it, at most one handle is live: it opened the
directory, and the directory shows its manifest.
-/

namespace Walgit.Cache

open Interleaving

variable {t h q : ℕ} {c : Choice} {m : Snapshot} {σ σ' : Instance} {hd hd' : Handle}

section Invariant

def Instance.held (σ : Instance) (t : ℕ) : List ℕ :=
  (σ.holders.filter (·.1 = t)).map Prod.snd

def Instance.Live (σ : Instance) (h : ℕ) : Prop :=
  σ.registry = some h ∨ ∃ t, h ∈ σ.held t

/-- The packs of the manifest of seq `q` are there. -/
def HasPacks (published : List Snapshot) (packs : List String) (q : ℕ) : Prop :=
  ∀ s ∈ published, s.seq = q → s.packs ⊆ packs

structure Shows (published : List Snapshot) (hd : Handle) (d : Dir) : Prop where
  refs : hd.applied = true → d.refs = hd.manifest.refs
  verified : hd.verified = true → hd.applied = true
  reconciled : ∀ q, hd.reconciledAt = some q → q ≤ hd.manifest.seq
  packs : ∀ q, hd.reconciledAt = some q → HasPacks published d.packs q

structure Inv (σ : Instance) : Prop where
  handles : ∀ h hd, σ.handles h = some hd → h < σ.next ∧ hd.manifest ∈ σ.published
  stored : σ.stored ∈ σ.published
  published : ∀ s ∈ σ.published, s.seq ≤ σ.stored.seq
  unique : ∀ s ∈ σ.published, ∀ s' ∈ σ.published, s.seq = s'.seq → s = s'
  live : ∀ h, σ.Live h → σ.owner = some h ∧ ∃ hd d, σ.handles h = some hd ∧ σ.dir = some d ∧
    Shows σ.published hd d
  opener : σ.registry = none → ∀ t h, h ∈ σ.held t → σ.gate = some t
  removing : σ.removing ≠ [] → σ.registry = none ∧ σ.holders = []
  invisible : Invisible σ

theorem mem_held {σ : Instance} : h ∈ σ.held t ↔ (t, h) ∈ σ.holders := by
  simp [Instance.held]

theorem inv_init : Inv Instance.init where
  handles h hd hh := by cases hh
  stored := by simp [Instance.init, Instance.stored]
  published s hs := by simp_all [Instance.init, Instance.stored]
  unique s hs s' hs' _ := by simp_all [Instance.init]
  live h hl := by simp [Instance.init, Instance.Live, Instance.held] at hl
  opener _ t h hh := by simp [Instance.init, Instance.held] at hh
  removing hr := by simp [Instance.init] at hr
  invisible := ⟨by simp [Instance.init], by simp [Instance.init], by simp [Instance.init]⟩

/-- What the tasks other than `t` rely on about a handle. -/
structure Kept (t : ℕ) (hd hd' : Handle) : Prop where
  seq : hd.manifest.seq ≤ hd'.manifest.seq
  applied : hd.applied = true → hd'.applied = true
  reconciled : ∀ q, hd.reconciledAt = some q → ∃ q', hd'.reconciledAt = some q' ∧ q ≤ q'
  sync : ∀ t' ≠ t, hd.syncMutex = some t' → hd'.syncMutex = some t' ∧ hd'.manifest = hd.manifest
  packs : ∀ t' ≠ t, hd.packMutex = some t' →
    hd'.packMutex = some t' ∧ hd'.reconciledAt = hd.reconciledAt

structure Guar (t : ℕ) (σ σ' : Instance) : Prop where
  handles : ∀ h hd, σ.handles h = some hd → ∃ hd', σ'.handles h = some hd' ∧ Kept t hd hd' ∧
    (h ∉ σ.held t → hd'.manifest = hd.manifest)
  held : ∀ t' ≠ t, σ'.held t' = σ.held t'
  gate : ∀ t' ≠ t, σ.gate = some t' →
    σ'.gate = some t' ∧ (σ.registry = none → σ'.registry = none)
  registry : σ.registry ≠ none → σ.holders ≠ [] → σ'.registry ≠ none
  removing : ∀ t' ≠ t, t' ∈ σ.removing → t' ∈ σ'.removing
  published : σ.published ⊆ σ'.published

def discipline : Discipline Op Op.Res Instance Choice where
  exec := exec
  ok := Undisturbed
  needs _ _ _ := True
  inv := Inv
  guar := Guar
  fresh t σ := σ.held t = []

abbrev Spec {α : Type} (t : ℕ) (p : Task α) (P : Instance → Prop) (Q : α → Instance → Prop) :=
  discipline.Triple t p P Q

theorem Kept.refl : Kept t hd hd where
  seq := Nat.le_refl _
  applied := id
  reconciled q hq := ⟨q, hq, Nat.le_refl _⟩
  sync _ _ hs := ⟨hs, rfl⟩
  packs _ _ hs := ⟨hs, rfl⟩

theorem Guar.of_same (hh : σ'.handles = σ.handles) (hheld : ∀ t' ≠ t, σ'.held t' = σ.held t')
    (hg : σ'.gate = σ.gate) (hr : σ'.registry = σ.registry)
    (hrem : ∀ t' ≠ t, t' ∈ σ.removing → t' ∈ σ'.removing)
    (hp : σ.published ⊆ σ'.published) : Guar t σ σ' where
  handles h hd hd₀ := ⟨hd, by rw [hh, hd₀], .refl, fun _ => rfl⟩
  held := hheld
  gate t' _ ht := ⟨hg.trans ht, fun hn => hr.trans hn⟩
  registry hn _ := by rwa [hr]
  removing := hrem
  published := hp

theorem Guar.refl : Guar t σ σ :=
  .of_same rfl (fun _ _ => rfl) rfl rfl (fun _ _ hm => hm) fun _ hs => hs

end Invariant

section Assertions

def On (h : ℕ) (p : Handle → Prop) (σ : Instance) : Prop :=
  ∃ hd, σ.handles h = some hd ∧ p hd

def Steady (t : ℕ) (p : Handle → Prop) : Prop :=
  ∀ t' hd hd', t' ≠ t → Kept t' hd hd' → p hd → p hd'

theorem stable_on {p : Handle → Prop} (hp : Steady t p) : discipline.Stable t (On h p) := by
  intro t' σ σ' ht _ _ hg hon
  obtain ⟨hd, hh, hpd⟩ := hon
  obtain ⟨hd', hh', hk, -⟩ := hg.handles h hd hh
  exact ⟨hd', hh', hp t' hd hd' ht hk hpd⟩

theorem stable_held {l : List ℕ} : discipline.Stable t fun σ => σ.held t = l :=
  fun _ _ _ ht _ _ hg hh => (hg.held t (Ne.symm ht)).trans hh

theorem stable_removing : discipline.Stable t fun σ => t ∈ σ.removing :=
  fun _ _ _ ht _ _ hg hh => hg.removing t (Ne.symm ht) hh

theorem stable_published {s : Snapshot} : discipline.Stable t fun σ => s ∈ σ.published :=
  fun _ _ _ _ _ _ hg hs => hg.published hs

theorem stable_gate : discipline.Stable t fun σ => σ.gate = some t :=
  fun _ _ _ ht _ _ hg hh => (hg.gate t (Ne.symm ht) hh).1

theorem Steady.and {p q : Handle → Prop} (hp : Steady t p) (hq : Steady t q) :
    Steady t fun hd => p hd ∧ q hd :=
  fun t' hd hd' ht hk h => ⟨hp t' hd hd' ht hk h.1, hq t' hd hd' ht hk h.2⟩

theorem Steady.imp {a : Prop} {p : Handle → Prop} (hp : Steady t p) :
    Steady t fun hd => a → p hd :=
  fun t' hd hd' ht hk h ha => hp t' hd hd' ht hk (h ha)

theorem Steady.const {a : Prop} : Steady t fun _ => a := fun _ _ _ _ _ h => h

/-- The directory shows a manifest of seq `n` or newer. -/
def ShowsSince (n : ℕ) (hd : Handle) : Prop := hd.applied = true ∧ n ≤ hd.manifest.seq

def ReconciledSince (q : ℕ) (hd : Handle) : Prop := ∃ q', hd.reconciledAt = some q' ∧ q ≤ q'

theorem ShowsSince.kept {n : ℕ} (hk : Kept t hd hd') (h : ShowsSince n hd) : ShowsSince n hd' :=
  ⟨hk.applied h.1, h.2.trans hk.seq⟩

theorem ReconciledSince.kept (hk : Kept t hd hd') (h : ReconciledSince q hd) :
    ReconciledSince q hd' := by
  obtain ⟨q', hq', hle⟩ := h
  obtain ⟨q'', hq'', hle'⟩ := hk.reconciled q' hq'
  exact ⟨q'', hq'', hle.trans hle'⟩

theorem steady_showsSince {n : ℕ} : Steady t (ShowsSince n) := fun _ _ _ _ hk h => h.kept hk

theorem steady_applied : Steady t fun hd => hd.applied = true := fun _ _ _ _ hk h => hk.applied h

theorem steady_reconciledSince : Steady t (ReconciledSince q) := fun _ _ _ _ hk h => h.kept hk

theorem steady_syncMutex : Steady t fun hd => hd.syncMutex = some t :=
  fun _ _ _ ht hk h => (hk.sync t (Ne.symm ht) h).1

theorem steady_syncing : Steady t fun hd => hd.syncMutex = some t ∧ hd.manifest = m :=
  fun _ _ _ ht hk h =>
    ⟨(hk.sync t (Ne.symm ht) h.1).1, (hk.sync t (Ne.symm ht) h.1).2.trans h.2⟩

theorem steady_packMutex : Steady t fun hd => hd.packMutex = some t :=
  fun _ _ _ ht hk h => (hk.packs t (Ne.symm ht) h).1

/-- The task may reconcile with `m`: no later manifest has been reconciled with. -/
def MayReconcile (t : ℕ) (m : Snapshot) (hd : Handle) : Prop :=
  hd.packMutex = some t ∧ m.seq ≤ hd.manifest.seq ∧ ∀ q, hd.reconciledAt = some q → q ≤ m.seq

theorem steady_mayReconcile : Steady t (MayReconcile t m) := by
  intro t' hd hd' ht hk h
  obtain ⟨hmx, hrec⟩ := hk.packs t (Ne.symm ht) h.1
  exact ⟨hmx, h.2.1.trans hk.seq, fun q hq => h.2.2 q (hrec ▸ hq)⟩

end Assertions

section Effects

theorem Invisible.of_same (h : Invisible σ) (hr : σ'.reads = σ.reads)
    (hw : σ'.writes = σ.writes) : Invisible σ' where
  refs since held seen hs := h.refs since held seen (hr ▸ hs)
  packs since held seen hs := h.packs since held seen (hr ▸ hs)
  writes w hw' := h.writes w (hw ▸ hw')

theorem handles_set : (σ.setHandle h hd).handles h = some hd := by
  simp [Instance.setHandle]

theorem handles_set_ne {h' : ℕ} (hne : h' ≠ h) :
    (σ.setHandle h hd).handles h' = σ.handles h' := by
  simp [Instance.setHandle, hne]

theorem Inv.handles_known (hi : Inv σ) (hh : σ.handles h = some hd)
    (hm : hd'.manifest ∈ σ.published) {j : ℕ} {hj : Handle}
    (hj' : (σ.setHandle h hd').handles j = some hj) : j < σ.next ∧ hj.manifest ∈ σ.published := by
  by_cases hjh : j = h
  · subst hjh
    rw [handles_set] at hj'
    cases hj'
    exact ⟨(hi.handles j hd hh).1, hm⟩
  · rw [handles_set_ne hjh] at hj'
    exact hi.handles j hj hj'

theorem Inv.set (hi : Inv σ) (hh : σ.handles h = some hd) (hm : hd'.manifest ∈ σ.published)
    (hs : ∀ d, Shows σ.published hd d → Shows σ.published hd' d) : Inv (σ.setHandle h hd') where
  handles _ _ hj := hi.handles_known hh hm hj
  stored := hi.stored
  published := hi.published
  unique := hi.unique
  live j hl := by
    obtain ⟨ho, hj, d, hj', hd₀, hsh⟩ := hi.live j hl
    refine ⟨ho, ?_⟩
    by_cases hjh : j = h
    · subst hjh
      rw [hh] at hj'
      cases hj'
      exact ⟨hd', d, handles_set, hd₀, hs d hsh⟩
    · exact ⟨hj, d, by rw [handles_set_ne hjh, hj'], hd₀, hsh⟩
  opener := hi.opener
  removing := hi.removing
  invisible := hi.invisible.of_same rfl rfl

theorem Inv.write {d' : Dir} (hi : Inv σ) (hl : σ.Live h) (hh : σ.handles h = some hd)
    (hm : hd'.manifest ∈ σ.published)
    (hs : ∀ d, σ.dir = some d → Shows σ.published hd d → Shows σ.published hd' d') :
    Inv { σ.setHandle h hd' with dir := some d', writes := (h, σ.owner) :: σ.writes } where
  handles _ _ hj := hi.handles_known hh hm hj
  stored := hi.stored
  published := hi.published
  unique := hi.unique
  live j hlj := by
    obtain ⟨ho, hj, d, hj', hd₀, hsh⟩ := hi.live j hlj
    obtain ⟨ho', -⟩ := hi.live h hl
    obtain rfl : j = h := Option.some.inj (ho.symm.trans ho')
    rw [hh] at hj'
    cases hj'
    exact ⟨ho, hd', d', handles_set, rfl, hs d hd₀ hsh⟩
  opener := hi.opener
  removing := hi.removing
  invisible := by
    refine ⟨hi.invisible.refs, hi.invisible.packs, fun w hw => ?_⟩
    rcases List.mem_cons.mp hw with rfl | hw
    · exact (hi.live h hl).1
    · exact hi.invisible.writes w hw

theorem Guar.set (hσ : σ'.handles = (σ.setHandle h hd').handles) (hh : σ.handles h = some hd)
    (hk : Kept t hd hd') (hm : h ∉ σ.held t → hd'.manifest = hd.manifest)
    (hold : σ'.holders = σ.holders)
    (hg : σ'.gate = σ.gate) (hr : σ'.registry = σ.registry) (hrem : σ'.removing = σ.removing)
    (hp : σ'.published = σ.published) : Guar t σ σ' where
  handles j hj hj' := by
    rw [hσ]
    by_cases hjh : j = h
    · subst hjh
      rw [hh] at hj'
      cases hj'
      exact ⟨hd', handles_set, hk, hm⟩
    · exact ⟨hj, by rw [handles_set_ne hjh, hj'], .refl, fun _ => rfl⟩
  held t' _ := by rw [Instance.held, hold, Instance.held]
  gate t' _ ht := ⟨hg.trans ht, fun hn => hr.trans hn⟩
  registry hn _ := by rwa [hr]
  removing t' _ ht := by rwa [hrem]
  published := by rw [hp]; exact List.Subset.refl _

end Effects

section Calls

variable {R : Instance → Prop} {p : Handle → Prop}

/-- Assertions about what no change of a handle touches. -/
structure Aside (t : ℕ) (R : Instance → Prop) : Prop where
  stable : discipline.Stable t R
  set : ∀ σ h hd, R σ → R (σ.setHandle h hd)

theorem aside_held {l : List ℕ} : Aside t fun σ => σ.held t = l := ⟨stable_held, fun _ _ _ h => h⟩

theorem aside_true : Aside t fun _ => True := ⟨Discipline.Stable.const, fun _ _ _ _ => trivial⟩

/-- The two differ in locks, readers and times only, and task `t` takes no lock from another. -/
structure Relocks (t : ℕ) (hd hd' : Handle) : Prop where
  manifest : hd'.manifest = hd.manifest
  verified : hd'.verified = hd.verified
  applied : hd'.applied = hd.applied
  reconciled : hd'.reconciledAt = hd.reconciledAt
  sync : ∀ t' ≠ t, hd.syncMutex = some t' → hd'.syncMutex = some t'
  packs : ∀ t' ≠ t, hd.packMutex = some t' → hd'.packMutex = some t'

theorem Relocks.kept (h : Relocks t hd hd') : Kept t hd hd' where
  seq := by rw [h.manifest]
  applied := by rw [h.applied]; exact id
  reconciled q hq := ⟨q, h.reconciled.trans hq, Nat.le_refl _⟩
  sync t' ht hs := ⟨h.sync t' ht hs, h.manifest⟩
  packs t' ht hs := ⟨h.packs t' ht hs, h.reconciled⟩

theorem Relocks.shows {published : List Snapshot} {d : Dir} (h : Relocks t hd hd')
    (hs : Shows published hd d) : Shows published hd' d where
  refs := by rw [h.applied, h.manifest]; exact hs.refs
  verified := by rw [h.verified, h.applied]; exact hs.verified
  reconciled := by rw [h.reconciled, h.manifest]; exact hs.reconciled
  packs := by rw [h.reconciled]; exact hs.packs

theorem Relocks.step (h₀ : Relocks t hd hd') (hi : Inv σ) (hh : σ.handles h = some hd) :
    Inv (σ.setHandle h hd') ∧ Guar t σ (σ.setHandle h hd') :=
  ⟨hi.set hh (h₀.manifest ▸ (hi.handles h hd hh).2) fun _ => h₀.shows,
    .set rfl hh h₀.kept (fun _ => h₀.manifest) rfl rfl rfl rfl rfl⟩

theorem spec_update {o : Op} {g : Handle → Prop} {f : Choice → Handle → Handle}
    {p' : Handle → Prop}
    (hex : ∀ c σ r σ', exec t o c σ = some (r, σ') →
      ∃ hd, σ.handles h = some hd ∧ g hd ∧ σ' = σ.setHandle h (f c hd))
    (hR : Aside t R) (hp : ∀ c hd, g hd → p hd → Relocks t hd (f c hd) ∧ p' (f c hd))
    (hp' : Steady t p') :
    Spec t (call o) (fun σ => R σ ∧ On h p σ) fun _ σ => R σ ∧ On h p' σ := by
  refine Discipline.Triple.perform (fun _ => hR.stable.and (stable_on hp'))
    (fun _ _ _ => trivial) ?_
  intro σ c r σ' hi hpre _ hexec
  obtain ⟨hr, hd, hh, hpd⟩ := hpre
  obtain ⟨hd₀, hh₀, hfree, rfl⟩ := hex c σ r σ' hexec
  rw [hh] at hh₀
  cases hh₀
  obtain ⟨hrel, hp₂⟩ := hp c hd hfree hpd
  obtain ⟨hi', hg⟩ := hrel.step hi hh
  exact ⟨hi', hg, hR.set σ h _ hr, f c hd, handles_set, hp₂⟩

theorem exec_update {f : Handle → Handle} {r : Unit} (hex : σ.update h f = some (r, σ')) :
    ∃ hd, σ.handles h = some hd ∧ True ∧ σ' = σ.setHandle h (f hd) := by
  obtain ⟨hd, hh, he⟩ := Option.map_eq_some_iff.mp hex
  cases he
  exact ⟨hd, hh, trivial, rfl⟩

theorem exec_lock {free : Handle → Bool} {f : Handle → Handle} {r : Unit}
    (hex : σ.lock h free f = some (r, σ')) :
    ∃ hd, σ.handles h = some hd ∧ free hd = true ∧ σ' = σ.setHandle h (f hd) := by
  obtain ⟨hd, hh, he⟩ := Option.bind_eq_some_iff.mp hex
  split at he
  · cases he
    exact ⟨hd, hh, by assumption, rfl⟩
  · cases he

theorem spec_tryLock {o : Op} {b : o.Res → Bool} {free : Handle → Bool} {f : Handle → Handle}
    {p' : Handle → Prop}
    (hex : ∀ c σ r σ', exec t o c σ = some (r, σ') → ∃ hd, σ.handles h = some hd ∧
      ((b r = true ∧ free hd = true ∧ σ' = σ.setHandle h (f hd)) ∨ (b r = false ∧ σ' = σ)))
    (hR : Aside t R) (hp : ∀ hd, free hd = true → p hd → Relocks t hd (f hd) ∧ p' (f hd))
    (hps : Steady t p) (hp' : Steady t p') :
    Spec t (call o) (fun σ => R σ ∧ On h p σ)
      fun r σ => R σ ∧ On h (if b r then p' else p) σ := by
  refine Discipline.Triple.perform (fun r => ?_) (fun _ _ _ => trivial) ?_
  · refine hR.stable.and ?_
    split
    · exact stable_on hp'
    · exact stable_on hps
  · intro σ c r σ' hi hpre _ hexec
    obtain ⟨hr, hd, hh, hpd⟩ := hpre
    obtain ⟨hd₀, hh₀, ⟨hb, hfree, rfl⟩ | ⟨hb, rfl⟩⟩ := hex c σ r σ' hexec
    · rw [hh] at hh₀
      cases hh₀
      obtain ⟨hrel, hp₂⟩ := hp hd hfree hpd
      obtain ⟨hi', hg⟩ := hrel.step hi hh
      refine ⟨hi', hg, hR.set σ h _ hr, f hd, handles_set, ?_⟩
      rwa [if_pos hb]
    · refine ⟨hi, .refl, hr, hd, hh, ?_⟩
      rwa [if_neg (by simp [hb])]

theorem exec_tryLock {free : Handle → Bool} {f : Handle → Handle} {r : Bool}
    (hex : σ.tryLock h free f = some (r, σ')) : ∃ hd, σ.handles h = some hd ∧
      ((r = true ∧ free hd = true ∧ σ' = σ.setHandle h (f hd)) ∨ (r = false ∧ σ' = σ)) := by
  obtain ⟨hd, hh, he⟩ := Option.map_eq_some_iff.mp hex
  refine ⟨hd, hh, ?_⟩
  split at he
  · cases he
    exact .inl ⟨rfl, by assumption, rfl⟩
  · cases he
    exact .inr ⟨rfl, rfl⟩

theorem spec_read {o : Op} {f : Choice → Handle → o.Res} {p' : o.Res → Handle → Prop}
    (hex : ∀ c σ r σ', exec t o c σ = some (r, σ') →
      ∃ hd, σ.handles h = some hd ∧ r = f c hd ∧ σ' = σ)
    (hR : discipline.Stable t R)
    (hp : ∀ c σ hd, Inv σ → R σ → σ.handles h = some hd → p hd → p' (f c hd) hd)
    (hp' : ∀ r, Steady t (p' r)) :
    Spec t (call o) (fun σ => R σ ∧ On h p σ) fun r σ => R σ ∧ On h (p' r) σ := by
  refine Discipline.Triple.perform (fun r => hR.and (stable_on (hp' r))) (fun _ _ _ => trivial) ?_
  intro σ c r σ' hi hpre _ hexec
  obtain ⟨hr, hd, hh, hpd⟩ := hpre
  obtain ⟨hd₀, hh₀, rfl, rfl⟩ := hex c σ r σ' hexec
  rw [hh] at hh₀
  cases hh₀
  exact ⟨hi, .refl, hr, hd, hh, hp c _ hd hi hr hh hpd⟩

theorem exec_read {α : Type} {f : Handle → α} {r : α} (hex : σ.read h f = some (r, σ')) :
    ∃ hd, σ.handles h = some hd ∧ r = f hd ∧ σ' = σ := by
  obtain ⟨hd, hh, he⟩ := Option.map_eq_some_iff.mp hex
  cases he
  exact ⟨hd, hh, rfl, rfl⟩

theorem spec_same {o : Op} {P : Instance → Prop} {Q : o.Res → Instance → Prop}
    (hex : ∀ c σ r σ', Inv σ → P σ → exec t o c σ = some (r, σ') → σ' = σ ∧ Q r σ)
    (hQ : ∀ r, discipline.Stable t (Q r)) : Spec t (call o) P Q := by
  refine Discipline.Triple.perform hQ (fun _ _ _ => trivial) ?_
  intro σ c r σ' hi hpre _ hexec
  obtain ⟨rfl, hq⟩ := hex c σ r σ' hi hpre hexec
  exact ⟨hi, .refl, hq⟩

end Calls

section Apply

theorem shows_unverified {published : List Snapshot} {d : Dir} (hs : Shows published hd d) :
    Shows published { hd with verified := false } d :=
  ⟨hs.refs, nofun, hs.reconciled, hs.packs⟩

theorem apply_step {r : Except WalError Unit} (hi : Inv σ) (hl : h ∈ σ.held t)
    (hh : σ.handles h = some hd) (hm : m ∈ σ.published) (hle : hd.manifest.seq ≤ m.seq)
    (hown : hd.syncMutex = some t ∨ hd.manifest = m)
    (hex : exec t (.apply h m) c σ = some (r, σ')) :
    Inv σ' ∧ Guar t σ σ' ∧ (σ'.holders = σ.holders ∧ σ'.gate = σ.gate ∧
      σ'.registry = σ.registry) ∧ ∃ hd', σ'.handles h = some hd' ∧
      hd'.syncMutex = hd.syncMutex ∧ (r = .ok () → hd'.applied = true) := by
  have hex' : (σ.handles h).map (fun hd => σ.apply c h hd m) = some (r, σ') := hex
  rw [hh, Option.map_some] at hex'
  have he := Option.some.inj hex'
  unfold Instance.apply at he
  split at he
  · rename_i d _ hdir
    cases he
    refine ⟨?_, ?_, ⟨rfl, rfl, rfl⟩, _, handles_set, rfl, fun _ => rfl⟩
    · refine hi.write (.inr ⟨t, hl⟩) hh hm fun d' hd' hs => ?_
      rw [hdir] at hd'
      cases hd'
      exact ⟨fun _ => rfl, fun _ => rfl, fun q hq => (hs.reconciled q hq).trans hle, hs.packs⟩
    · refine .set rfl hh ⟨hle, fun _ => rfl, fun q hq => ⟨q, hq, Nat.le_refl _⟩,
        fun t' ht hs => ?_, fun t' _ hs => ⟨hs, rfl⟩⟩ (fun hn => absurd hl hn) rfl rfl rfl rfl rfl
      rcases hown with ho | ho
      · rw [hs] at ho
        exact absurd (Option.some.inj ho) ht
      · exact ⟨hs, ho.symm⟩
  · cases he
    refine ⟨hi.set hh (hi.handles h hd hh).2 fun _ => shows_unverified, ?_, ⟨rfl, rfl, rfl⟩, _,
      handles_set, rfl, nofun⟩
    exact .set rfl hh ⟨Nat.le_refl _, id, fun q hq => ⟨q, hq, Nat.le_refl _⟩,
      fun t' _ hs => ⟨hs, rfl⟩, fun t' _ hs => ⟨hs, rfl⟩⟩ (fun _ => rfl) rfl rfl rfl rfl rfl

theorem reconcile_step {r : Except WalError ℕ} (hi : Inv σ) (hl : h ∈ σ.held t)
    (hh : σ.handles h = some hd) (hm : m ∈ σ.published) (hmay : MayReconcile t m hd)
    (hex : exec t (.reconcile h m) c σ = some (r, σ')) :
    Inv σ' ∧ Guar t σ σ' ∧ σ'.holders = σ.holders ∧ ∃ hd', σ'.handles h = some hd' ∧
      hd'.packMutex = some t ∧ ∀ q, r = .ok q → ReconciledSince q hd' := by
  obtain ⟨hmx, hle, hlast⟩ := hmay
  have hex' : (σ.handles h).map (fun hd => σ.reconcile c h hd m) = some (r, σ') := hex
  rw [hh, Option.map_some] at hex'
  have he := Option.some.inj hex'
  unfold Instance.reconcile at he
  have hpub := (hi.handles h hd hh).2
  have hother : ∀ t' ≠ t, hd.packMutex ≠ some t' := fun t' ht hs =>
    ht (Option.some.inj (hs.symm.trans hmx))
  split at he
  · cases he
    refine ⟨?_, ?_, rfl, _, handles_set, hmx, fun q hq => ?_⟩
    · refine hi.write (.inr ⟨t, hl⟩) hh hpub fun d hd₀ hs => ?_
      rw [Instance.local, hd₀, Option.getD_some]
      refine ⟨hs.refs, hs.verified, fun q hq => ?_, fun q hq => ?_⟩
      · cases hq
        exact hle
      · cases hq
        intro s hsm hseq
        obtain rfl : s = m := hi.unique s hsm m hm hseq
        exact List.subset_append_right _ _
    · exact .set rfl hh ⟨Nat.le_refl _, id, fun q hq => ⟨m.seq, rfl, hlast q hq⟩,
        fun t' _ hs => ⟨hs, rfl⟩, fun t' ht hs => absurd hs (hother t' ht)⟩ (fun _ => rfl)
        rfl rfl rfl rfl rfl
    · cases hq
      exact ⟨m.seq, rfl, Nat.le_refl _⟩
  · cases he
    have hrel : Relocks t hd { hd with packsVerified := false } :=
      ⟨rfl, rfl, rfl, rfl, fun _ _ h => h, fun _ _ h => h⟩
    obtain ⟨hi', hg⟩ := hrel.step hi hh
    exact ⟨hi', hg, rfl, _, handles_set, hmx, nofun⟩

end Apply

section Sync

/-- The task holds handle `h`, which is as `p` says. -/
def At (t h : ℕ) (p : Handle → Prop) (σ : Instance) : Prop := σ.held t = [h] ∧ On h p σ

variable {p : Handle → Prop} {n : ℕ}

theorem stable_at (hp : Steady t p) : discipline.Stable t (At t h p) :=
  stable_held.and (stable_on hp)

theorem At.mono {p' : Handle → Prop} (hp : ∀ hd, p hd → p' hd) (ha : At t h p σ) :
    At t h p' σ := by
  obtain ⟨hheld, hd, hh, hpd⟩ := ha
  exact ⟨hheld, hd, hh, hp hd hpd⟩

theorem At.weaken (ha : At t h p σ) : At t h (fun _ => True) σ := ha.mono fun _ _ => trivial

theorem mem_held_of_eq (hheld : σ.held t = [h]) : h ∈ σ.held t := by simp [hheld]

theorem Inv.shows (hi : Inv σ) (hheld : σ.held t = [h]) (hh : σ.handles h = some hd) :
    ∃ d, σ.dir = some d ∧ Shows σ.published hd d := by
  obtain ⟨-, hd₀, d, hh₀, hdir, hs⟩ := hi.live h (.inr ⟨t, mem_held_of_eq hheld⟩)
  rw [hh] at hh₀
  cases hh₀
  exact ⟨d, hdir, hs⟩

theorem spec_manifest {u : Snapshot → Handle → Prop}
    (hp : ∀ σ hd, Inv σ → σ.held t = [h] → σ.handles h = some hd → p hd → u hd.manifest hd)
    (hu : ∀ m, Steady t (u m)) :
    Spec t (call (.manifest h)) (At t h p) fun m => At t h (u m) :=
  spec_read (o := .manifest h) (f := fun _ => Handle.manifest) (fun _ _ _ _ => exec_read)
    stable_held
    (fun _ σ hd hi hr hh => hp σ hd hi hr hh) hu

theorem spec_verified (hps : Steady t p) : Spec t (call (.verified h)) (At t h p)
    fun b => At t h fun hd => p hd ∧ (b = true → hd.applied = true) := by
  refine spec_read (o := .verified h) (f := fun _ => Handle.verified)
    (fun _ _ _ _ => exec_read) stable_held ?_ fun _ => hps.and steady_applied.imp
  intro _ σ hd hi hheld hh hpd
  obtain ⟨d, -, hs⟩ := hi.shows hheld hh
  exact ⟨hpd, hs.verified⟩

theorem spec_fresh (hps : Steady t p) : Spec t (call (.fresh h)) (At t h p)
    fun b => At t h fun hd => p hd ∧ (b = true → hd.applied = true) := by
  refine spec_read (o := .fresh h) (f := fun c hd => hd.verified && c.ttlActive)
    (fun c _ _ _ => exec_read (f := fun hd => hd.verified && c.ttlActive)) stable_held ?_
    fun _ => hps.and steady_applied.imp
  intro c σ hd hi hheld hh hpd
  obtain ⟨d, -, hs⟩ := hi.shows hheld hh
  exact ⟨hpd, fun hb => hs.verified (Bool.and_eq_true_iff.mp hb).1⟩

theorem spec_lockSync :
    Spec t (call (.lockSync h)) (At t h p) fun _ => At t h fun hd => hd.syncMutex = some t := by
  refine spec_update (fun _ _ _ _ => exec_lock) aside_held ?_ steady_syncMutex
  intro _ hd hfree _
  refine ⟨⟨rfl, rfl, rfl, rfl, fun t' _ hs => ?_, fun _ _ hs => hs⟩, rfl⟩
  simp [hs] at hfree

theorem spec_unlockSync {R : Instance → Prop} (hR : Aside t R) {u : Handle → Prop}
    (hp : ∀ hd, p hd → hd.syncMutex = some t ∧ u { hd with syncMutex := none })
    (hu : Steady t u) :
    Spec t (call (.unlockSync h)) (fun σ => R σ ∧ On h p σ) fun _ σ => R σ ∧ On h u σ := by
  refine spec_update (fun _ _ _ _ => exec_update) hR ?_ hu
  intro _ hd _ hpd
  obtain ⟨hmx, hp₂⟩ := hp hd hpd
  refine ⟨⟨rfl, rfl, rfl, rfl, fun t' ht hs => ?_, fun _ _ hs => hs⟩, hp₂⟩
  exact absurd (Option.some.inj (hs.symm.trans hmx)) ht

theorem spec_getManifestIf (hps : Steady t p) :
    Spec t (call (.getManifestIf n)) (fun σ => At t h p σ ∧ n ≤ σ.stored.seq)
      fun r σ => At t h p σ ∧ ∀ m, r = .ok (some m) → m ∈ σ.published ∧ n ≤ m.seq := by
  refine spec_same (fun c σ r σ' hi hpre hex => ?_) fun r => (stable_at hps).and ?_
  · obtain ⟨hat, hle⟩ := hpre
    cases hex
    refine ⟨rfl, hat, fun m hm => ?_⟩
    unfold Choice.get at hm
    split at hm
    · have hm' := Except.ok.inj hm
      split at hm'
      · cases hm'
      · cases hm'
        exact ⟨hi.stored, hle⟩
    · cases hm
  · intro t' σ σ' ht hi hi' hg hall m hm
    exact ⟨hg.published (hall m hm).1, (hall m hm).2⟩

theorem spec_apply
    (hp : ∀ hd, p hd → hd.syncMutex = some t ∧ hd.manifest.seq ≤ m.seq) :
    Spec t (call (.apply h m)) (fun σ => At t h p σ ∧ m ∈ σ.published)
      fun r => At t h fun hd => hd.syncMutex = some t ∧ (r = .ok () → hd.applied = true) := by
  refine Discipline.Triple.perform
    (fun r => stable_at (steady_syncMutex.and steady_applied.imp)) (fun _ _ _ => trivial) ?_
  intro σ c r σ' hi hpre _ hex
  obtain ⟨⟨hheld, hd, hh, hpd⟩, hm⟩ := hpre
  obtain ⟨hmx, hle⟩ := hp hd hpd
  obtain ⟨hi', hg, hsame, hd', hh', hmx', happ⟩ :=
    apply_step hi (mem_held_of_eq hheld) hh hm hle (.inl hmx) hex
  refine ⟨hi', hg, ?_, hd', hh', hmx'.trans hmx, happ⟩
  rw [Instance.held, hsame.1]
  exact hheld

theorem At.manifest_seq (hi : Inv σ) (ha : At t h (fun hd => p hd ∧ hd.manifest = m) σ) :
    m ∈ σ.published ∧ m.seq ≤ σ.stored.seq := by
  obtain ⟨-, hd, hh, -, rfl⟩ := ha
  have hm := (hi.handles h hd hh).2
  exact ⟨hm, hi.published _ hm⟩

theorem spec_syncLockedInner :
    Spec t (syncLockedInner h) (At t h fun hd => hd.syncMutex = some t)
      fun r => At t h fun hd => hd.syncMutex = some t ∧ (r = .ok () → hd.applied = true) := by
  refine Discipline.Triple.bind (spec_manifest
    (u := fun m hd => hd.syncMutex = some t ∧ hd.manifest = m)
    (fun _ _ _ _ _ hmx => ⟨hmx, rfl⟩) fun _ => steady_syncing) fun held => ?_
  refine Discipline.Triple.bind ((spec_getManifestIf steady_syncing).pre
    fun σ hi ha => ⟨ha, (ha.manifest_seq hi).2⟩) fun r => ?_
  match r with
  | .error e => exact fun σ hi ha => ha.1.mono fun hd hmx => ⟨hmx.1, nofun⟩
  | .ok (some m) =>
    refine (Discipline.Triple.fact fun hle : held.seq ≤ m.seq => spec_apply ?_).pre
      fun σ _ ha => ⟨(ha.2 m rfl).2, ha.1, (ha.2 m rfl).1⟩
    rintro hd ⟨hmx, rfl⟩
    exact ⟨hmx, hle⟩
  | .ok none =>
    refine Discipline.Triple.bind ((spec_verified steady_syncing).pre fun _ _ ha => ha.1)
      fun b => ?_
    cases b with
    | true => exact fun σ hi ha => ha.mono fun hd hpd => ⟨hpd.1.1, fun _ => hpd.2 rfl⟩
    | false =>
      refine (spec_apply (p := fun hd => hd.syncMutex = some t ∧ hd.manifest = held) ?_).pre
        fun σ hi ha => ?_
      · rintro hd ⟨hmx, rfl⟩
        exact ⟨hmx, Nat.le_refl _⟩
      · have ha' := ha.mono fun hd hpd => hpd.1
        exact ⟨ha', (ha'.manifest_seq hi).1⟩

theorem spec_syncRefsPhase : Spec t (syncRefsPhase h) (At t h fun _ => True)
    fun r => At t h fun hd => r = .ok () → hd.applied = true := by
  refine Discipline.Triple.bind (spec_fresh .const) fun b => ?_
  cases b with
  | true => exact fun σ hi ha => ha.mono fun hd hpd _ => hpd.2 rfl
  | false =>
    refine Discipline.Triple.bind spec_lockSync fun _ => ?_
    refine Discipline.Triple.bind (spec_fresh steady_syncMutex) fun b => ?_
    cases b with
    | true =>
      refine Discipline.Triple.bind (spec_unlockSync aside_held
        (fun hd hpd => ⟨hpd.1, hpd.2⟩) steady_applied.imp) fun _ => ?_
      exact fun σ hi ha => At.mono (fun hd hpd _ => hpd rfl) ha
    | false =>
      refine Discipline.Triple.bind (spec_syncLockedInner.pre
        fun _ _ ha => ha.mono fun hd hpd => hpd.1) fun r => ?_
      refine Discipline.Triple.bind (spec_unlockSync aside_held
        (fun hd hpd => ⟨hpd.1, hpd.2⟩) steady_applied.imp) fun _ => ?_
      exact fun σ hi ha => ha

theorem spec_levelSatisfied (hps : Steady t p) : Spec t (call (.levelSatisfied h)) (At t h p)
    fun r => At t h fun hd => p hd ∧ ∀ q, r = some q → ReconciledSince q hd := by
  refine spec_read (o := .levelSatisfied h) (f := fun _ => Handle.satisfied)
    (fun _ _ _ _ => exec_read) stable_held ?_ fun _ => hps.and ?_
  · intro _ σ hd _ _ _ hpd
    refine ⟨hpd, fun q hq => ?_⟩
    unfold Handle.satisfied at hq
    split at hq
    · rename_i hsat
      cases hq
      exact ⟨_, hsat.2, Nat.le_refl _⟩
    · cases hq
  · exact fun t' hd hd' ht hk hall q hq => (hall q hq).kept hk

theorem spec_lockPacks :
    Spec t (call (.lockPacks h)) (At t h p) fun _ => At t h fun hd => hd.packMutex = some t := by
  refine spec_update (fun _ _ _ _ => exec_lock) aside_held ?_ steady_packMutex
  intro _ hd hfree _
  refine ⟨⟨rfl, rfl, rfl, rfl, fun _ _ hs => hs, fun t' _ hs => ?_⟩, rfl⟩
  simp [hs] at hfree

theorem spec_unlockPacks {u : Handle → Prop}
    (hp : ∀ hd, p hd → hd.packMutex = some t ∧ u { hd with packMutex := none })
    (hu : Steady t u) :
    Spec t (call (.unlockPacks h)) (At t h p) fun _ => At t h u := by
  refine spec_update (fun _ _ _ _ => exec_update) aside_held ?_ hu
  intro _ hd _ hpd
  obtain ⟨hmx, hp₂⟩ := hp hd hpd
  refine ⟨⟨rfl, rfl, rfl, rfl, fun _ _ hs => hs, fun t' ht hs => ?_⟩, hp₂⟩
  exact absurd (Option.some.inj (hs.symm.trans hmx)) ht

theorem steady_satisfied {r : Except WalError ℕ} :
    Steady t fun hd => ∀ q, r = .ok q → ReconciledSince q hd :=
  fun _ _ _ _ hk hall q hq => (hall q hq).kept hk

theorem spec_reconcile :
    Spec t (call (.reconcile h m)) (fun σ => At t h (MayReconcile t m) σ ∧ m ∈ σ.published)
      fun r => At t h fun hd =>
        hd.packMutex = some t ∧ ∀ q, r = .ok q → ReconciledSince q hd := by
  refine Discipline.Triple.perform
    (fun r => stable_at (steady_packMutex.and steady_satisfied)) (fun _ _ _ => trivial) ?_
  intro σ c r σ' hi hpre _ hex
  obtain ⟨⟨hheld, hd, hh, hmay⟩, hm⟩ := hpre
  obtain ⟨hi', hg, hsame, hd', hh', hmx, hrec⟩ :=
    reconcile_step hi (mem_held_of_eq hheld) hh hm hmay hex
  refine ⟨hi', hg, ?_, hd', hh', hmx, hrec⟩
  rw [Instance.held, hsame]
  exact hheld

theorem spec_packManifest : Spec t (call (.manifest h))
    (At t h fun hd => hd.packMutex = some t ∧ ∀ q, none = some q → ReconciledSince q hd)
    fun m σ => At t h (MayReconcile t m) σ ∧ m ∈ σ.published := by
  refine spec_same (fun c σ r σ' hi hpre hex => ?_)
    fun m => (stable_at steady_mayReconcile).and stable_published
  obtain ⟨hheld, hd, hh, hmx, -⟩ := hpre
  obtain ⟨hd₀, hh₀, rfl, rfl⟩ := exec_read (f := Handle.manifest) hex
  rw [hh] at hh₀
  cases hh₀
  obtain ⟨d, -, hs⟩ := hi.shows hheld hh
  exact ⟨rfl, ⟨hheld, hd, hh, hmx, Nat.le_refl _, hs.reconciled⟩, (hi.handles h hd hh).2⟩

theorem spec_syncPacksPhase : Spec t (syncPacksPhase h) (At t h fun _ => True)
    fun r => At t h fun hd => ∀ q, r = .ok q → ReconciledSince q hd := by
  refine Discipline.Triple.bind (spec_levelSatisfied .const) fun r => ?_
  match r with
  | some q =>
    refine fun σ hi ha => ha.mono fun hd hpd q' hq => ?_
    cases hq
    exact hpd.2 q rfl
  | none =>
    refine Discipline.Triple.bind spec_lockPacks fun _ => ?_
    refine Discipline.Triple.bind (spec_levelSatisfied steady_packMutex) fun r => ?_
    match r with
    | some q =>
      refine Discipline.Triple.bind (spec_unlockPacks (u := ReconciledSince q)
        (fun hd hpd => ⟨hpd.1, hpd.2 q rfl⟩) steady_reconciledSince) fun _ => ?_
      refine fun σ hi ha => ha.mono fun hd hpd q' hq => ?_
      cases hq
      exact hpd
    | none =>
      refine Discipline.Triple.bind (spec_packManifest) fun m => ?_
      refine Discipline.Triple.bind spec_reconcile fun r => ?_
      refine Discipline.Triple.bind (spec_unlockPacks
        (fun hd hpd => ⟨hpd.1, hpd.2⟩) steady_satisfied) fun _ => ?_
      exact fun σ hi ha => ha

end Sync

section Serve

variable {n since reads : ℕ}

theorem spec_touch :
    Spec t (call (.touch h)) (At t h fun _ => True) fun _ => At t h fun _ => True :=
  spec_update (f := fun c hd => { hd with lastAccess := c.now })
    (fun c _ _ _ => exec_update (f := fun hd => { hd with lastAccess := c.now })) aside_held
    (fun _ _ _ _ => ⟨⟨rfl, rfl, rfl, rfl, fun _ _ hs => hs, fun _ _ hs => hs⟩, trivial⟩) .const

theorem spec_acquire {p : Handle → Prop} (hps : Steady t p)
    (hp : ∀ hd n, p hd → p { hd with readers := n }) :
    Spec t (call (.acquire h)) (At t h p) fun _ => At t h p :=
  spec_update (fun _ _ _ _ => exec_lock) aside_held
    (fun _ hd _ hpd => ⟨⟨rfl, rfl, rfl, rfl, fun _ _ hs => hs, fun _ _ hs => hs⟩, hp hd _ hpd⟩) hps

theorem spec_release {p : Handle → Prop} :
    Spec t (call (.release h)) (At t h p) fun _ => At t h fun _ => True :=
  spec_update (fun _ _ _ _ => exec_update) aside_held
    (fun _ _ _ _ => ⟨⟨rfl, rfl, rfl, rfl, fun _ _ hs => hs, fun _ _ hs => hs⟩, trivial⟩) .const

theorem spec_manifestSince :
    Spec t (call (.manifest h)) (At t h fun hd => hd.applied = true)
      fun m => At t h (ShowsSince m.seq) :=
  spec_manifest (fun _ _ _ _ _ happ => ⟨happ, Nat.le_refl _⟩) fun _ => steady_showsSince

theorem Inv.addRead {rd : Read} (hi : Inv σ)
    (hrefs : ∀ since held seen, rd = .refs since held seen →
      seen = held.refs ∧ since ≤ held.seq)
    (hpacks : ∀ since held seen, rd = .packs since held seen →
      held.packs ⊆ seen ∧ since ≤ held.seq) :
    Inv { σ with reads := rd :: σ.reads } where
  handles := hi.handles
  stored := hi.stored
  published := hi.published
  unique := hi.unique
  live := hi.live
  opener := hi.opener
  removing := hi.removing
  invisible := by
    refine ⟨fun n held seen hs => ?_, fun n held seen hs => ?_, hi.invisible.writes⟩
    · rcases List.mem_cons.mp hs with hs | hs
      · exact hrefs n held seen hs.symm
      · exact hi.invisible.refs n held seen hs
    · rcases List.mem_cons.mp hs with hs | hs
      · exact hpacks n held seen hs.symm
      · exact hi.invisible.packs n held seen hs

theorem guar_reads {reads : List Read} : Guar t σ { σ with reads := reads } :=
  .of_same rfl (fun _ _ => rfl) rfl rfl (fun _ _ hm => hm) fun _ hs => hs

theorem spec_readRef :
    Spec t (call (.readRefs h since)) (At t h (ShowsSince since))
      fun _ => At t h (ShowsSince since) := by
  refine Discipline.Triple.perform (fun _ => stable_at steady_showsSince)
    (fun _ _ _ => trivial) ?_
  intro σ c r σ' hi hpre _ hex
  obtain ⟨hheld, hd, hh, happ, hle⟩ := hpre
  obtain ⟨hd₀, hh₀, he⟩ := Option.map_eq_some_iff.mp hex
  rw [hh] at hh₀
  cases hh₀
  cases he
  obtain ⟨d, hdir, hs⟩ := hi.shows hheld hh
  refine ⟨hi.addRead (fun n held seen hrd => ?_) nofun, guar_reads, hheld, hd, hh, happ, hle⟩
  cases hrd
  rw [Instance.local, hdir, Option.getD_some]
  exact ⟨hs.refs happ, hle⟩

theorem spec_readPack :
    Spec t (call (.readPacks h q)) (At t h (ReconciledSince q))
      fun _ => At t h (ReconciledSince q) := by
  refine Discipline.Triple.perform (fun _ => stable_at steady_reconciledSince)
    (fun _ _ _ => trivial) ?_
  intro σ c r σ' hi hpre hok hex
  obtain ⟨hheld, hd, hh, q', hq', hle⟩ := hpre
  obtain ⟨m, hm, hrec, hsub⟩ := hok.2 hd hh
  obtain ⟨hd₀, hh₀, he⟩ := Option.map_eq_some_iff.mp hex
  rw [hh] at hh₀
  cases hh₀
  cases he
  obtain ⟨d, hdir, hs⟩ := hi.shows hheld hh
  refine ⟨hi.addRead nofun (fun n held seen hrd => ?_), guar_reads, hheld, hd, hh, q', hq', hle⟩
  cases hrd
  rw [Instance.local, hdir, Option.getD_some]
  exact ⟨List.Subset.trans hsub (hs.packs m.seq hrec m hm rfl), hle.trans (hs.reconciled q' hq')⟩

theorem spec_readRefs : Spec t (Cache.readRefs h since n) (At t h (ShowsSince since))
    fun _ => At t h (ShowsSince since) := by
  induction n with
  | zero => exact fun σ hi ha => ha
  | succ n ih => exact Discipline.Triple.bind spec_readRef fun _ => ih

theorem spec_readPacks : Spec t (Cache.readPacks h q n) (At t h (ReconciledSince q))
    fun _ => At t h (ReconciledSince q) := by
  induction n with
  | zero => exact fun σ hi ha => ha
  | succ n ih => exact Discipline.Triple.bind spec_readPack fun _ => ih

theorem Spec.keeps {α : Type} {u : Handle → Prop} {p : Task α} {v : α → Handle → Prop}
    {w : Handle → Prop} (hw : ∀ t hd hd', Kept t hd hd' → w hd → w hd')
    (hp : Spec t p (At t h u) fun a => At t h (v a)) :
    Spec t p (At t h fun hd => w hd ∧ u hd) fun a => At t h fun hd => w hd ∧ v a hd := by
  have hN : ∀ t' σ σ', Inv σ → Inv σ' → Guar t' σ σ' → On h w σ → On h w σ' := by
    intro t' σ σ' _ _ hg hon
    obtain ⟨hd, hh, hwd⟩ := hon
    obtain ⟨hd', hh', hk, -⟩ := hg.handles h hd hh
    exact ⟨hd', hh', hw t' hd hd' hk hwd⟩
  refine (Discipline.Triple.frame hN hp).conseq (fun σ _ ha => ?_) fun a σ _ ha => ?_
  · obtain ⟨hheld, hd, hh, hwd, hud⟩ := ha
    exact ⟨⟨hheld, hd, hh, hud⟩, hd, hh, hwd⟩
  · obtain ⟨⟨hheld, hd, hh, hva⟩, hd', hh', hwd⟩ := ha
    rw [hh] at hh'
    cases hh'
    exact ⟨hheld, hd, hh, hwd, hva⟩

theorem spec_serveRefs :
    Spec t (serveRefs h reads) (At t h fun _ => True) fun _ => At t h fun _ => True := by
  refine Discipline.Triple.bind spec_touch fun _ => ?_
  refine Discipline.Triple.bind spec_syncRefsPhase fun r => ?_
  match r with
  | .error e => exact fun σ hi ha => ha.weaken
  | .ok () =>
    refine Discipline.Triple.bind (spec_manifestSince.pre
      fun _ _ ha => ha.mono fun hd hpd => hpd rfl) fun m => ?_
    refine Discipline.Triple.bind (spec_acquire steady_showsSince fun _ _ hpd => hpd) fun _ => ?_
    refine Discipline.Triple.bind spec_readRefs fun _ => ?_
    exact spec_release

theorem spec_serveObjects :
    Spec t (serveObjects h reads) (At t h fun _ => True) fun _ => At t h fun _ => True := by
  refine Discipline.Triple.bind spec_touch fun _ => ?_
  refine Discipline.Triple.bind spec_syncRefsPhase fun r => ?_
  match r with
  | .error e => exact fun σ hi ha => ha.weaken
  | .ok () =>
    refine Discipline.Triple.bind (spec_manifestSince.pre
      fun _ _ ha => ha.mono fun hd hpd => hpd rfl) fun m => ?_
    have hshows : ∀ t hd hd', Kept t hd hd' → ShowsSince m.seq hd → ShowsSince m.seq hd' :=
      fun _ _ _ hk hsh => hsh.kept hk
    refine Discipline.Triple.bind ((spec_syncPacksPhase.keeps hshows).pre
      fun _ _ ha => ha.mono fun hd hpd => ⟨hpd, trivial⟩) fun r => ?_
    match r with
    | .error e => exact fun σ hi ha => ha.weaken
    | .ok q =>
      have hboth : Steady t fun hd => ShowsSince m.seq hd ∧ ReconciledSince q hd :=
        steady_showsSince.and steady_reconciledSince
      refine Discipline.Triple.bind ((spec_acquire hboth fun _ _ hpd => hpd).pre
        fun _ _ ha => ha.mono fun hd hpd => ⟨hpd.1, hpd.2 q rfl⟩) fun _ => ?_
      refine Discipline.Triple.bind ((spec_readRefs.keeps (w := ReconciledSince q)
        fun _ _ _ hk hrec => hrec.kept hk).pre
        fun _ _ ha => ha.mono fun hd hpd => ⟨hpd.2, hpd.1⟩) fun _ => ?_
      refine Discipline.Triple.bind (spec_readPacks.pre
        fun _ _ ha => ha.mono fun hd hpd => hpd.1) fun _ => ?_
      exact spec_release

end Serve

end Walgit.Cache
