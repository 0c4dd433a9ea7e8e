import Walgit.Steps

/-!
# Assertions between calls

The facts that a task carries from one call to the next. Each is one that the
other tasks cannot break: it grows with the history, or it is about a segment
or a handle that the task owns.
-/

namespace Walgit

open Interleaving Replay

variable {L : List Hazard} {t : ℕ} {σ σ' : World}

abbrev Keeping (L : List Hazard) (t : ℕ) (P : World → Prop) : Prop := (discipline L).Stable t P

abbrev Spec (L : List Hazard) (t : ℕ) {α : Type} (p : Task α) (P : World → Prop)
    (Q : α → World → Prop) : Prop :=
  (discipline L).Triple t p P Q

/-- A step of the task itself that commits, judges and answers nothing. -/
structure Quiet (L : List Hazard) (t : ℕ) (σ σ' : World) : Prop where
  inv : Inv L σ
  inv' : Inv L σ'
  guar : Guar L t σ σ'
  commits : σ'.commits = σ.commits
  verdicts : σ'.verdicts = σ.verdicts
  replies : σ'.replies = σ.replies

/-- An assertion that neither the other tasks nor the task's own quiet steps break. -/
structure Calm (L : List Hazard) (t : ℕ) (R : World → Prop) : Prop where
  stable : Keeping L t R
  quiet : ∀ σ σ', Quiet L t σ σ' → R σ → R σ'

theorem Calm.and {R S : World → Prop} (hR : Calm L t R) (hS : Calm L t S) :
    Calm L t fun σ => R σ ∧ S σ :=
  ⟨hR.stable.and hS.stable, fun σ σ' hq h => ⟨hR.quiet σ σ' hq h.1, hS.quiet σ σ' hq h.2⟩⟩

def Lasting (L : List Hazard) (R : World → Prop) : Prop :=
  ∀ t σ σ', Inv L σ → Inv L σ' → Guar L t σ σ' → R σ → R σ'

theorem Lasting.calm {R : World → Prop} (h : Lasting L R) : Calm L t R where
  stable t' σ σ' _ hi hi' hg hr := h t' σ σ' hi hi' hg hr
  quiet σ σ' hq hr := h t σ σ' hq.inv hq.inv' hq.guar hr

theorem Lasting.and {R S : World → Prop} (hR : Lasting L R) (hS : Lasting L S) :
    Lasting L fun σ => R σ ∧ S σ :=
  fun t σ σ' hi hi' hg h => ⟨hR t σ σ' hi hi' hg h.1, hS t σ σ' hi hi' hg h.2⟩

theorem Lasting.const {p : Prop} : Lasting L fun _ => p := fun _ _ _ _ _ _ h => h

theorem Lasting.imp {p : Prop} {R : World → Prop} (hR : Lasting L R) :
    Lasting L fun σ => p → R σ :=
  fun t σ σ' hi hi' hg h hp => hR t σ σ' hi hi' hg (h hp)

theorem Lasting.all {α : Type} {R : α → World → Prop} (h : ∀ a, Lasting L (R a)) :
    Lasting L fun σ => ∀ a, R a σ :=
  fun t σ σ' hi hi' hg hr a => h a t σ σ' hi hi' hg (hr a)

theorem Lasting.of_extends {R : World → Prop}
    (h : ∀ σ σ', Inv L σ → Inv L σ' → Extends σ σ' → R σ → R σ') : Lasting L R :=
  fun _ σ σ' hi hi' hg hr => h σ σ' hi hi' (Guar.extends hi hi' hg) hr

theorem calm_fresh : Calm L t (Fresh t) where
  stable t' σ σ' ht _ _ hg hf := by
    refine ⟨fun c hc => ?_, fun v hv => ?_, fun r hr => ?_⟩
    · rcases hg.commits with h | ⟨c', h, htask, -⟩
      · exact hf.commits c (h ▸ hc)
      · rw [h] at hc
        obtain rfl | hc := List.mem_cons.mp hc
        · rw [htask]
          exact fun he => ht (Option.some.inj he)
        · exact hf.commits c hc
    · rcases hg.verdicts v hv with h | h
      · exact hf.verdicts v h
      · exact fun he => ht (h.symm.trans he)
    · rcases hg.replies r hr with h | h
      · exact hf.replies r h
      · exact fun he => ht (h.symm.trans he)
  quiet σ σ' hq hf :=
    ⟨by rw [hq.commits]; exact hf.commits, by rw [hq.verdicts]; exact hf.verdicts,
      by rw [hq.replies]; exact hf.replies⟩

theorem lasting_knows {p : Commit → Prop} : Lasting L fun σ => ∃ c ∈ σ.commits, p c :=
  .of_extends fun _ _ _ _ h ⟨c, hc, hp⟩ => ⟨c, h.mem c hc, hp⟩

/-- The manifest was committed under the known version or a later one. -/
def PairOf (m : Manifest) (known : Option ℕ) (σ : World) : Prop :=
  ∃ c ∈ σ.commits, c.manifest = m ∧ ∀ v, known = some v → v ≤ c.version

def Has (m : Manifest) (σ : World) : Prop := ∃ c ∈ σ.commits, c.manifest = m

theorem lasting_pairOf {m : Manifest} {known : Option ℕ} : Lasting L (PairOf m known) :=
  lasting_knows

theorem lasting_has {m : Manifest} : Lasting L (Has m) := lasting_knows

theorem PairOf.has {m : Manifest} {known : Option ℕ} (h : PairOf m known σ) : Has m σ := by
  obtain ⟨c, hc, hm, -⟩ := h
  exact ⟨c, hc, hm⟩

theorem Inv.current_pair (hi : Inv L σ) :
    PairOf σ.current.manifest (some σ.current.version) σ :=
  ⟨σ.current, hi.current_mem, rfl, fun _ hv => Nat.le_of_eq (Option.some.inj hv).symm⟩

theorem PairOf.current {m : Manifest} {v : ℕ} (hi : Inv L σ) (h : PairOf m (some v) σ)
    (hv : v = σ.current.version) : m = σ.current.manifest := by
  obtain ⟨c, hc, rfl, hle⟩ := h
  obtain ⟨older, ho⟩ := hi.commits_eq
  have hl := hi.linked
  rw [ho] at hl hc
  rw [hl.eq_head_of_version hc (hv ▸ hle v rfl)]

/-- The version is that of a segment this task wrote, wherever one is stored under it. -/
structure Own (t : ℕ) (s : Slot) (σ : World) : Prop where
  version : s.version < σ.next
  own : ∀ q o, σ.segs q = some o → o.version = s.version → o.task = t

theorem own_guar {t' : ℕ} {s : Slot} (hg : Guar L t' σ σ') (ho : Own t s σ) : Own t s σ' := by
  refine ⟨ho.version.trans_le hg.next, fun q o h hv => ?_⟩
  rcases hg.newSegs q o h with h | h
  · exact ho.own q o h hv
  · have := ho.version
    omega

theorem lasting_own {s : Slot} : Lasting L (Own t s) := fun _ _ _ _ _ hg ho => own_guar hg ho

/-- The segment is this task's; it is in the store as written unless its seq has been passed. -/
structure Mine (t : ℕ) (s : Slot) (σ : World) : Prop extends Own t s σ where
  stored : σ.segs s.seq = some ⟨s.version, s.entries, t⟩ ∨ s.seq ≤ σ.head
  free : ∀ s', σ.Committed s' → s'.seq ≠ s.seq

theorem stable_mine {s : Slot} : Keeping L t (Mine t s) := by
  intro t' σ σ' ht hi hi' hg hm
  have hext := Guar.extends hi hi' hg
  refine ⟨own_guar hg hm.toOwn, ?_, ?_⟩
  · rcases hm.stored with h | h
    · rcases hg.segs _ _ h with h | h | h
      · exact .inl h
      · exact absurd h.symm ht
      · exact .inr (h.trans hext.head)
    · exact .inr (h.trans hext.head)
  · rintro s' ⟨c, hc, hs⟩ hq
    rcases hg.commits with h | ⟨c', h, htask, hslot⟩
    · exact hm.free s' ⟨c, h ▸ hc, hs⟩ hq
    · rw [h] at hc
      obtain rfl | hc := List.mem_cons.mp hc
      · obtain ⟨hlt, hseg⟩ := hslot s' hs
        rw [hq] at hlt hseg
        rcases hm.stored with h | h
        · rw [h] at hseg
          exact ht (congrArg Segment.task (Option.some.inj hseg)).symm
        · omega
      · exact hm.free s' ⟨c, hc, hs⟩ hq

/-- Nothing at this seq and version can be committed any more. -/
structure Dead (b : ℕ × ℕ) (σ : World) : Prop where
  passed : b.1 ≤ σ.head
  free : ∀ s, σ.Committed s → s.seq = b.1 → s.version ≠ b.2

theorem dead_extends {b : ℕ × ℕ} (hi : Inv L σ) (hi' : Inv L σ') (hg : Guar L t σ σ')
    (h : Dead b σ) : Dead b σ' := by
  refine ⟨h.passed.trans (Guar.extends hi hi' hg).head, ?_⟩
  rintro s ⟨c, hc, hs⟩ hq
  rcases hg.commits with he | ⟨c', he, -, hslot⟩
  · exact h.free s ⟨c, he ▸ hc, hs⟩ hq
  · rw [he] at hc
    obtain rfl | hc := List.mem_cons.mp hc
    · have := (hslot s hs).1
      have := h.passed
      omega
    · exact h.free s ⟨c, hc, hs⟩ hq

theorem lasting_dead {b : ℕ × ℕ} : Lasting L (Dead b) :=
  fun _ _ _ hi hi' hg h => dead_extends hi hi' hg h

section Held

variable {h : ℕ}

/-- The part of a handle that only the holder of its mutex may change. -/
structure SameCore (hd hd' : Handle) : Prop where
  manifest : hd'.manifest = hd.manifest
  state : hd'.state = hd.state
  verified : hd'.verified = hd.verified
  refs : hd'.refs = hd.refs

theorem NearHandle.of_same {hd hd' : Handle} (hs : SameCore hd hd') (hn : NearHandle σ hd) :
    NearHandle σ hd' := by
  obtain ⟨ha, hk⟩ := hn
  constructor
  · rw [hs.state, hs.manifest]
    exact ha
  · rw [hs.refs, hs.state, hs.manifest]
    exact hk

theorem Settled.of_same {hd hd' : Handle} (hs : SameCore hd hd') (h : Settled L σ hd) :
    Settled L σ hd' := by
  constructor
  · rw [hs.state, hs.manifest]
    exact h.le
  · rw [hs.refs, hs.state]
    exact h.applied
  · rw [hs.refs, hs.manifest]
    exact h.manifest
  · rw [hs.state, hs.manifest]
    exact h.same

/-- The task holds the mutex of `h`, whose core satisfies `X`. -/
def Held (L : List Hazard) (t h : ℕ) (X : World → Handle → Prop) (σ : World) : Prop :=
  ∃ hd, σ.handles h = some hd ∧ hd.syncMutex = some t ∧ (RefsLevel L → X σ hd)

/-- `X` is about the core of the handle and survives a growing history. -/
def Frozen (L : List Hazard) (X : World → Handle → Prop) : Prop :=
  ∀ σ σ' hd hd', Inv L σ → HandleInv L σ hd → Extends σ σ' → SameCore hd hd' → X σ hd → X σ' hd'

theorem stable_held {X : World → Handle → Prop} (hX : Frozen L X) :
    Keeping L t (Held L t h X) := by
  rintro t' σ σ' ht hi hi' hg ⟨hd, hh, hm, hx⟩
  obtain ⟨hd', hh', hgd⟩ := hg.handles h hd hh
  refine ⟨hd', hh', hgd.mutex t (Ne.symm ht) hm, fun hR => ?_⟩
  obtain ⟨h1, h2, h3, h4⟩ := hgd.held hR t (Ne.symm ht) hm
  exact hX σ σ' hd hd' hi (hi.handles h hd hh) (Guar.extends hi hi' hg) ⟨h1, h2, h3, h4⟩
    (hx hR)

theorem frozen_and {X Y : World → Handle → Prop} (hX : Frozen L X) (hY : Frozen L Y) :
    Frozen L fun σ hd => X σ hd ∧ Y σ hd :=
  fun σ σ' hd hd' hi hh he hs h => ⟨hX σ σ' hd hd' hi hh he hs h.1, hY σ σ' hd hd' hi hh he hs h.2⟩

theorem Held.imp {X Y : World → Handle → Prop} (hx : Held L t h X σ)
    (himp : ∀ hd, σ.handles h = some hd → RefsLevel L → X σ hd → Y σ hd) : Held L t h Y σ := by
  obtain ⟨hd, hh, hm, hX⟩ := hx
  exact ⟨hd, hh, hm, fun hR => himp hd hh hR (hX hR)⟩

/-- The manifest field has come at least to this revision. -/
def AtLeast (h rev : ℕ) (σ : World) : Prop := σ.on h fun hd => rev ≤ hd.manifest.revision

theorem lasting_atLeast {rev : ℕ} : Lasting L (AtLeast h rev) := by
  rintro t' σ σ' - - hg ⟨hd, hh, hr⟩
  obtain ⟨hd', hh', hgd⟩ := hg.handles h hd hh
  exact ⟨hd', hh', hr.trans hgd.revision⟩

end Held

end Walgit
