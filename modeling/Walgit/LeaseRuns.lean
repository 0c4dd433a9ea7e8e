import Mathlib.Order.Basic
import Mathlib.Data.List.Chain
import Walgit.Leases

/-!
# Lease exclusion

Of a lease that is neither released nor lost, either the stored record is its
task's own and lasts at least as long, or its time is over on its task's clock.
A record is replaced by others only when it has expired for everybody.
-/

namespace Walgit.Leases

open Interleaving

variable {clock : ℕ → ℕ → ℕ} {t t' v e d : ℕ} {σ σ' : World} {g : Guard} {α β : Type}
  {holder purpose : String} {ttl : ℕ}

section Invariant

/-- What task `t` took until `d` is its own or over. -/
def Kept (clock : ℕ → ℕ → ℕ) (t d : ℕ) (σ : World) : Prop :=
  (∃ o, σ.object = some o ∧ o.writer = t ∧ d ≤ o.lease.expiry) ∨ d ≤ clock t σ.time

/-- Task `t` wrote version `v`, with an epoch up to `e`. -/
structure Wrote (t v e : ℕ) (σ : World) : Prop where
  old : v < σ.next
  own : ∀ o, σ.object = some o → o.version = v → o.writer = t ∧ o.lease.epoch ≤ e

structure Inv (clock : ℕ → ℕ → ℕ) (σ : World) : Prop where
  fresh : ∀ o, σ.object = some o → o.version < σ.next
  kept : ∀ t g, σ.guards t = some g → g.released = false → g.lost = false →
    Kept clock t g.expiresAt σ
  last : ∀ o, σ.object = some o → ∃ r rs, σ.records = r :: rs ∧ r.epoch = o.lease.epoch
  epochs : EpochsIncreaseUntilRelease σ

structure Guar (clock : ℕ → ℕ → ℕ) (t : ℕ) (σ σ' : World) : Prop where
  time : σ.time ≤ σ'.time
  next : σ.next ≤ σ'.next
  guards : ∀ t' ≠ t, σ'.guards t' = σ.guards t'
  kept : ∀ t' ≠ t, ∀ d, Kept clock t' d σ → Kept clock t' d σ'
  object : ∀ o, σ'.object = some o → σ.object = some o ∨ σ.next ≤ o.version

def discipline (clock : ℕ → ℕ → ℕ) : Discipline Op Op.Res World Choice where
  exec := exec clock
  ok t o _ σ := NotShorter t o σ
  needs _ _ _ := True
  inv := Inv clock
  guar := Guar clock
  fresh t σ := σ.guards t = none

abbrev Spec (clock : ℕ → ℕ → ℕ) (t : ℕ) (p : Task α) (P : World → Prop)
    (Q : α → World → Prop) : Prop :=
  (discipline clock).Triple t p P Q

theorem Kept.pass (hc : ClocksOk clock) {c : Choice} (h : Kept clock t d σ) :
    Kept clock t d (σ.pass c) := by
  rcases h with h | h
  · exact .inl h
  · exact .inr (h.trans (hc.mono t _ _ (Nat.le_add_right _ _)))

theorem Guar.refl : Guar clock t σ σ :=
  ⟨Nat.le_refl _, Nat.le_refl _, fun _ _ => rfl, fun _ _ _ h => h, fun _ h => .inl h⟩

theorem Guar.trans {σ₁ σ₂ σ₃ : World} (h : Guar clock t σ₁ σ₂) (h' : Guar clock t σ₂ σ₃) :
    Guar clock t σ₁ σ₃ where
  time := h.time.trans h'.time
  next := h.next.trans h'.next
  guards t' ht := (h'.guards t' ht).trans (h.guards t' ht)
  kept t' ht d hk := h'.kept t' ht d (h.kept t' ht d hk)
  object o ho := by
    rcases h'.object o ho with ho | hle
    · exact h.object o ho
    · exact .inr (h.next.trans hle)

theorem pass_step (hc : ClocksOk clock) {c : Choice} (hi : Inv clock σ) :
    Inv clock (σ.pass c) ∧ Guar clock t σ (σ.pass c) :=
  ⟨⟨hi.fresh, fun t g hg hr hl => (hi.kept t g hg hr hl).pass hc, hi.last, hi.epochs⟩,
    ⟨Nat.le_add_right _ _, Nat.le_refl _, fun _ _ => rfl, fun _ _ _ h => h.pass hc,
      fun _ h => .inl h⟩⟩

/-- A put replaces nothing that another task could still believe in. -/
structure PutOk (clock : ℕ → ℕ → ℕ) (t : ℕ) (l : Lease) (created : Bool) (σ : World) : Prop where
  ended : ∀ o, σ.object = some o → o.writer = t ∨ ∀ t', o.lease.expiry ≤ clock t' σ.time
  own : ∀ g, σ.guards t = some g → g.expiresAt ≤ l.expiry
  first : created = true → l.epoch = 0
  later : created = false → ∃ o, σ.object = some o ∧ o.lease.epoch < l.epoch

theorem put_step {l : Lease} {created : Bool} (hi : Inv clock σ) (hp : PutOk clock t l created σ) :
    Inv clock (σ.put t l created) ∧ Guar clock t σ (σ.put t l created) := by
  have hkept : ∀ t' ≠ t, ∀ d, Kept clock t' d σ → Kept clock t' d (σ.put t l created) := by
    intro t' ht d hk
    rcases hk with ⟨o, ho, hw, hd⟩ | hd
    · rcases hp.ended o ho with hown | hexp
      · exact absurd (hw.symm.trans hown) ht
      · exact .inr (hd.trans (hexp t'))
    · exact .inr hd
  refine ⟨⟨?_, fun t' g hg hr hl => ?_, ?_, ?_, ?_⟩, ⟨Nat.le_refl _, Nat.le_succ _, fun _ _ => rfl,
    hkept, ?_⟩⟩
  · intro o ho
    cases ho
    exact Nat.lt_succ_self _
  · by_cases ht : t' = t
    · subst ht
      exact .inl ⟨_, rfl, rfl, hp.own g hg⟩
    · exact hkept t' ht _ (hi.kept t' g hg hr hl)
  · intro o ho
    cases ho
    exact ⟨_, _, rfl, rfl⟩
  · intro r hr hcr
    rcases List.mem_cons.mp hr with rfl | hr
    · exact hp.first hcr
    · exact hi.epochs.1 r hr hcr
  · refine List.IsChain.cons hi.epochs.2 fun r hr hcr => ?_
    obtain ⟨o, ho, hlt⟩ := hp.later hcr
    obtain ⟨r', rs, hrs, hre⟩ := hi.last o ho
    rw [hrs] at hr
    cases hr
    exact hre ▸ hlt
  · intro o ho
    cases ho
    exact .inr (Nat.le_refl _)

theorem answerPut_step {l : Lease} {created : Bool} {c : Choice} {r : Except StoreError ℕ}
    (hi : Inv clock σ) (hp : PutOk clock t l created σ)
    (h : σ.answerPut t c l created = (r, σ')) :
    Inv clock σ' ∧ Guar clock t σ σ' ∧ σ'.guards = σ.guards ∧
      ∀ v, r = .ok v → Wrote t v l.epoch σ' ∧ Kept clock t l.expiry σ' := by
  have hput := put_step hi hp
  unfold World.answerPut at h
  split at h
  · cases h
    refine ⟨hput.1, hput.2, rfl, fun v hv => ?_⟩
    cases hv
    refine ⟨⟨Nat.lt_succ_self _, fun o ho _ => ?_⟩, .inl ⟨_, rfl, rfl, Nat.le_refl _⟩⟩
    cases ho
    exact ⟨rfl, Nat.le_refl _⟩
  · cases h
    exact ⟨hi, .refl, rfl, nofun⟩
  · cases h
    exact ⟨hput.1, hput.2, rfl, nofun⟩

theorem Wrote.keep (hg : Guar clock t' σ σ') (h : Wrote t v e σ) : Wrote t v e σ' where
  old := h.old.trans_le hg.next
  own o ho hv := by
    rcases hg.object o ho with ho | hle
    · exact h.own o ho hv
    · rw [hv] at hle
      exact absurd h.old (Nat.not_lt_of_le hle)

theorem Wrote.mono {e' : ℕ} (h : Wrote t v e σ) (he : e ≤ e') : Wrote t v e' σ :=
  ⟨h.old, fun o ho hv => ⟨(h.own o ho hv).1, (h.own o ho hv).2.trans he⟩⟩

theorem stable_guards {a : Option Guard} :
    (discipline clock).Stable t fun σ => σ.guards t = a :=
  fun _ _ _ ht _ _ hg h => (hg.guards t (Ne.symm ht)).trans h

theorem stable_wrote : (discipline clock).Stable t (Wrote t v e) :=
  fun _ _ _ _ _ _ hg h => h.keep hg

theorem stable_kept : (discipline clock).Stable t (Kept clock t d) :=
  fun _ _ _ ht _ _ hg h => hg.kept t (Ne.symm ht) d h

end Invariant

section Specs

def Read (clock : ℕ → ℕ → ℕ) (t now : ℕ) (σ : World) : Prop := ∃ τ, τ ≤ σ.time ∧ now = clock t τ

structure Found (v : ℕ) (l : Lease) (σ : World) : Prop where
  old : v < σ.next
  lease : ∀ o, σ.object = some o → o.version = v → o.lease = l

theorem stable_read {now : ℕ} : (discipline clock).Stable t (Read clock t now) :=
  fun _ _ _ _ _ _ hg ⟨τ, hτ, hnow⟩ => ⟨τ, hτ.trans hg.time, hnow⟩

theorem stable_found {l : Lease} : (discipline clock).Stable t (Found v l) := by
  refine fun _ σ σ' _ _ _ hg h => ⟨h.old.trans_le hg.next, fun o ho hv => ?_⟩
  rcases hg.object o ho with ho | hle
  · exact h.lease o ho hv
  · rw [hv] at hle
    exact absurd h.old (Nat.not_lt_of_le hle)

theorem Read.expired (hc : ClocksOk clock) {now : ℕ} (h : Read clock t now σ)
    (hd : d + leaseSkewTolerance ≤ now) : ∀ t', d ≤ clock t' σ.time := by
  obtain ⟨τ, hτ, rfl⟩ := h
  intro t'
  have hskew := hc.skew t t' τ
  have hmono := hc.mono t' τ σ.time hτ
  omega

variable {P : World → Prop}

theorem spec_systemTime (hc : ClocksOk clock) (hP : (discipline clock).Stable t P)
    (hpass : ∀ σ c, P σ → P (World.pass c σ)) :
    Spec clock t (call .systemTime) P fun now σ => P σ ∧ Read clock t now σ := by
  refine Discipline.Triple.perform (fun _ => hP.and stable_read) (fun _ _ _ => trivial) ?_
  intro σ c r σ' hi hp _ hex
  cases hex
  obtain ⟨hi', hg⟩ := pass_step (t := t) (c := c) hc hi
  exact ⟨hi', hg, hpass σ c hp, _, Nat.le_refl _, rfl⟩

theorem spec_getMessage (hc : ClocksOk clock) (hP : (discipline clock).Stable t P)
    (hpass : ∀ σ c, P σ → P (World.pass c σ)) :
    Spec clock t (call .getMessage) P fun r σ => P σ ∧
      ∀ v l, r = .ok (some (v, l)) → Found v l σ := by
  refine Discipline.Triple.perform (fun r => hP.and ?_) (fun _ _ _ => trivial) ?_
  · intro t' σ σ' ht hi hi' hg h v l hr
    exact stable_found t' σ σ' ht hi hi' hg (h v l hr)
  intro σ c r σ' hi hp _ hex
  cases hex
  obtain ⟨hi', hg⟩ := pass_step (t := t) (c := c) hc hi
  refine ⟨hi', hg, hpass σ c hp, fun v l hr => ?_⟩
  split at hr
  · obtain ⟨o, ho, heq⟩ := Option.map_eq_some_iff.mp (Except.ok.inj hr)
    cases heq
    refine ⟨hi.fresh o ho, fun o' ho' _ => ?_⟩
    rw [show (σ.pass c).object = some o from ho] at ho'
    cases ho'
    rfl
  · cases hr

theorem spec_setGuard (hc : ClocksOk clock) {Q : World → Prop}
    (hQ : (discipline clock).Stable t Q)
    (hkeep : ∀ σ c guards, P σ → Q { World.pass c σ with guards := guards })
    (hkept : ∀ σ, Inv clock σ → P σ → g.released = false → g.lost = false →
      Kept clock t g.expiresAt σ) :
    Spec clock t (call (.setGuard g)) P fun _ σ => Q σ ∧ σ.guards t = some g := by
  refine Discipline.Triple.perform (fun _ => hQ.and stable_guards) (fun _ _ _ => trivial) ?_
  intro σ c r σ' hi hp _ hex
  cases hex
  obtain ⟨hi', hg⟩ := pass_step (t := t) (c := c) hc hi
  refine ⟨⟨hi'.fresh, fun t' g' hg' hr hl => ?_, hi'.last, hi'.epochs⟩, ⟨hg.time, hg.next,
    fun t' ht => if_neg ht, hg.kept, hg.object⟩, hkeep σ c _ hp, if_pos rfl⟩
  change (if t' = t then some g else σ.guards t') = some g' at hg'
  split at hg'
  · rename_i ht
    cases hg'
    rw [ht]
    exact (hkept σ hi hp hr hl).pass hc
  · exact hi'.kept t' g' hg' hr hl

theorem put_call (hc : ClocksOk clock) {l : Lease} {created : Bool} {c : Choice} {b : Bool}
    {x : StoreError} {r : Except StoreError ℕ} (hi : Inv clock σ)
    (hp : b = true → PutOk clock t l created (σ.pass c))
    (h : (if b = true then (σ.pass c).answerPut t c l created else (.error x, σ.pass c)) =
      (r, σ')) :
    Inv clock σ' ∧ Guar clock t σ σ' ∧ σ'.guards = σ.guards ∧
      ∀ v, r = .ok v → Wrote t v l.epoch σ' ∧ Kept clock t l.expiry σ' := by
  obtain ⟨hi', hg⟩ := pass_step (t := t) (c := c) hc hi
  split at h
  · rename_i hb
    obtain ⟨hi'', hg', hguards, hok⟩ := answerPut_step hi' (hp hb) h
    exact ⟨hi'', hg.trans hg', hguards, hok⟩
  · cases h
    exact ⟨hi', hg, rfl, nofun⟩

theorem stable_taken {l : Lease} {r : Except StoreError ℕ} : (discipline clock).Stable t fun σ =>
    ∀ v, r = .ok v → Wrote t v l.epoch σ ∧ Kept clock t l.expiry σ := by
  intro t' σ σ' ht hi hi' hg h v hr
  exact ⟨stable_wrote t' σ σ' ht hi hi' hg (h v hr).1, stable_kept t' σ σ' ht hi hi' hg (h v hr).2⟩

theorem spec_create (hc : ClocksOk clock) {l : Lease} (hl : l.epoch = 0) :
    Spec clock t (call (.create l)) (fun σ => σ.guards t = none) fun r σ => σ.guards t = none ∧
      ∀ v, r = .ok v → Wrote t v l.epoch σ ∧ Kept clock t l.expiry σ := by
  refine Discipline.Triple.perform (fun _ => stable_guards.and stable_taken)
    (fun _ _ _ => trivial) ?_
  intro σ c r σ' hi hnone _ hex
  have hput : (σ.pass c).object.isNone = true → PutOk clock t l true (σ.pass c) := by
    intro hb
    have hobj : (σ.pass c).object = none := Option.isNone_iff_eq_none.mp hb
    refine ⟨fun o ho => ?_, fun g hg => ?_, fun _ => hl, nofun⟩
    · rw [hobj] at ho
      cases ho
    · rw [show (σ.pass c).guards t = none from hnone] at hg
      cases hg
  obtain ⟨hi', hg, hguards, hok⟩ := put_call hc hi hput (Option.some.inj hex)
  exact ⟨hi', hg, hguards ▸ hnone, hok⟩

theorem spec_update (hc : ClocksOk clock) {l : Lease} (hP : (discipline clock).Stable t P)
    (hpass : ∀ σ c, P σ → P (World.pass c σ))
    (hguards : ∀ σ σ', Guar clock t σ σ' → σ'.guards = σ.guards → P σ → P σ')
    (hover : ∀ σ o, P σ → σ.object = some o → o.version = v →
      (o.writer = t ∨ ∀ t', o.lease.expiry ≤ clock t' σ.time) ∧ o.lease.epoch < l.epoch) :
    Spec clock t (call (.update l v)) P fun r σ => P σ ∧
      ∀ v', r = .ok v' → Wrote t v' l.epoch σ ∧ Kept clock t l.expiry σ := by
  refine Discipline.Triple.perform (fun _ => hP.and stable_taken) (fun _ _ _ => trivial) ?_
  intro σ c r σ' hi hp hshort hex
  have hput : ((σ.pass c).object.any fun o => o.version = v) = true →
      PutOk clock t l false (σ.pass c) := by
    intro hb
    obtain ⟨o, ho, hv⟩ := (Option.any_eq_true _ _).mp hb
    obtain ⟨hw, he⟩ := hover _ o (hpass σ c hp) ho (of_decide_eq_true hv)
    refine ⟨fun o' ho' => ?_, fun g hg => hshort l v g rfl hg, nofun, fun _ => ⟨o, ho, he⟩⟩
    rw [ho] at ho'
    cases ho'
    exact hw
  obtain ⟨hi', hg, hsame, hok⟩ := put_call hc hi hput (Option.some.inj hex)
  exact ⟨hi', hg, hguards σ σ' hg hsame hp, hok⟩

theorem spec_delete (hc : ClocksOk clock) :
    Spec clock t (call (.delete v)) (fun σ => Wrote t v e σ ∧
      ∃ g, σ.guards t = some g ∧ g.released = true) fun _ _ => True := by
  refine Discipline.Triple.perform (fun _ => Discipline.Stable.const) (fun _ _ _ => trivial) ?_
  rintro σ c r σ' hi ⟨hw, g, hg, hrel⟩ _ hex
  obtain ⟨hi', hguar⟩ := pass_step (t := t) (c := c) hc hi
  have hgone : ∀ o, σ.object = some o → o.version = v →
      Inv clock { World.pass c σ with object := none } ∧
        Guar clock t σ { World.pass c σ with object := none } := by
    intro o ho hv
    have hown := (hw.own o ho hv).1
    have hkept : ∀ t' ≠ t, ∀ d, Kept clock t' d (σ.pass c) →
        Kept clock t' d { World.pass c σ with object := none } := by
      intro t' ht d hk
      rcases hk with ⟨o', ho', hw', -⟩ | hd
      · rw [show (σ.pass c).object = some o from ho] at ho'
        cases ho'
        exact absurd (hw'.symm.trans hown) ht
      · exact .inr hd
    refine ⟨⟨nofun, fun t' g' hg' hr hl => ?_, nofun, hi'.epochs⟩, ⟨hguar.time, hguar.next,
      hguar.guards, fun t' ht d hk => hkept t' ht d (hguar.kept t' ht d hk), nofun⟩⟩
    by_cases ht : t' = t
    · subst ht
      rw [show (σ.pass c).guards t' = some g from hg] at hg'
      cases hg'
      rw [hrel] at hr
      cases hr
    · exact hkept t' ht _ (hi'.kept t' g' hg' hr hl)
  change some ((σ.pass c).delete c v) = some (r, σ') at hex
  have hdel := Option.some.inj hex
  unfold World.delete at hdel
  split at hdel
  · cases hdel
    exact ⟨hi', hguar, trivial⟩
  · rename_i o ho
    split at hdel
    · rename_i hv
      split at hdel
      · cases hdel
        exact ⟨(hgone o ho hv).1, (hgone o ho hv).2, trivial⟩
      · cases hdel
        exact ⟨hi', hguar, trivial⟩
      · cases hdel
        exact ⟨(hgone o ho hv).1, (hgone o ho hv).2, trivial⟩
    · cases hdel
      exact ⟨hi', hguar, trivial⟩

end Specs

section Programs

/-- The task's own guard, over a record that it wrote. -/
def Holding (t : ℕ) (g : Guard) (σ : World) : Prop :=
  σ.guards t = some g ∧ Wrote t g.version g.epoch σ

theorem stable_holding : (discipline clock).Stable t (Holding t g) :=
  stable_guards.and stable_wrote

theorem spec_newGuard (hc : ClocksOk clock) {version now epoch : ℕ} :
    Spec clock t (newGuard ttl version now epoch)
      (fun σ => Wrote t version epoch σ ∧ Kept clock t (now + ttl) σ) fun r σ =>
        ∀ g, r = .ok (some g) → Holding t g σ := by
  refine Discipline.Triple.bind (spec_setGuard hc (stable_wrote.and stable_kept)
    (fun σ c _ h => ⟨⟨h.1.old, h.1.own⟩, h.2.pass hc⟩) fun σ _ h _ _ => h.2) fun _ => ?_
  rintro σ _ ⟨⟨hw, -⟩, hg⟩ g hr
  cases hr
  exact ⟨hg, hw⟩

theorem spec_acquired (hc : ClocksOk clock) {now epoch : ℕ} {r : Except StoreError ℕ}
    {P : World → Prop} (hP : ∀ σ v, P σ → r = .ok v →
      Wrote t v epoch σ ∧ Kept clock t (now + ttl) σ) :
    Spec clock t (acquired ttl now epoch r) P fun r σ => ∀ g, r = .ok (some g) → Holding t g σ := by
  unfold acquired
  split
  · exact (spec_newGuard hc).pre fun σ _ hp => hP σ _ hp rfl
  · exact fun _ _ _ _ hr => nomatch hr
  · exact fun _ _ _ _ hr => nomatch hr

theorem spec_tryAcquire (hc : ClocksOk clock) :
    Spec clock t (tryAcquire holder purpose ttl) (fun σ => σ.guards t = none) fun r σ =>
      ∀ g, r = .ok (some g) → Holding t g σ := by
  refine Discipline.Triple.bind (spec_systemTime hc stable_guards fun _ _ h => h) fun now => ?_
  refine Discipline.Triple.bind (spec_getMessage hc (stable_guards.and stable_read)
    fun _ c h => ⟨h.1, h.2.imp fun _ hτ => ⟨hτ.1.trans (Nat.le_add_right _ _), hτ.2⟩⟩) fun r => ?_
  match r with
  | .error _ => exact fun _ _ _ _ hr => nomatch hr
  | .ok none =>
    refine Discipline.Triple.bind ((spec_create hc rfl).pre fun _ _ h => h.1.1) fun r => ?_
    exact spec_acquired hc fun σ v h hr => h.2 v hr
  | .ok (some (version, existing)) =>
    dsimp only
    split
    · rename_i hexp
      refine Discipline.Triple.bind ((spec_update (P := fun σ => (σ.guards t = none ∧
        Read clock t now σ) ∧ Found version existing σ) hc
        ((stable_guards.and stable_read).and stable_found) ?_ ?_ ?_).pre
        fun σ _ h => ⟨h.1, h.2 version existing rfl⟩) fun r => ?_
      · exact fun σ c h => ⟨⟨h.1.1, h.1.2.imp fun _ hτ => ⟨hτ.1.trans (Nat.le_add_right _ _),
          hτ.2⟩⟩,
          h.2.old, h.2.lease⟩
      · rintro σ σ' hg hguards ⟨⟨hn, τ, hτ, hnow⟩, hf⟩
        refine ⟨⟨hguards ▸ hn, τ, hτ.trans hg.time, hnow⟩, hf.old.trans_le hg.next,
          fun o ho hv => ?_⟩
        rcases hg.object o ho with ho | hle
        · exact hf.lease o ho hv
        · rw [hv] at hle
          exact absurd hf.old (Nat.not_lt_of_le hle)
      · rintro σ o ⟨⟨-, hread⟩, hf⟩ ho hv
        rw [hf.lease o ho hv]
        exact ⟨.inr (hread.expired hc hexp), Nat.lt_succ_self _⟩
      · exact spec_acquired hc fun σ v h hr => h.2 v hr
    · exact fun _ _ _ _ hr => nomatch hr

theorem spec_flagGuard (hc : ClocksOk clock) (g g' : Guard) (hv : g'.version = g.version)
    (he : g.epoch ≤ g'.epoch) (hd : g'.expiresAt = g.expiresAt)
    (hr : g.released = true → g'.released = true) (hl : g.lost = true → g'.lost = true) :
    Spec clock t (call (.setGuard g')) (Holding t g) fun _ σ =>
      Wrote t g.version g.epoch σ ∧ Holding t g' σ := by
  refine Discipline.Triple.post (spec_setGuard hc stable_wrote
    (fun σ c _ h => ⟨h.2.old, h.2.own⟩) fun σ hi h hr' hl' => ?_) fun _ σ _ h => ?_
  · rw [hd]
    exact hi.kept t g h.1 (by simpa [hr'] using hr) (by simpa [hl'] using hl)
  · exact ⟨h.1, h.2, hv ▸ h.1.mono he⟩

theorem spec_heartbeat (hc : ClocksOk clock) :
    Spec clock t (heartbeat holder purpose ttl g) (Holding t g) fun r => Holding t r.2 := by
  refine Discipline.Triple.bind (spec_systemTime hc stable_holding
    fun σ c h => ⟨h.1, h.2.old, h.2.own⟩) fun now => ?_
  refine Discipline.Triple.bind ((spec_flagGuard hc g { g with epoch := g.epoch + 1 } rfl
    (Nat.le_succ _) rfl id id).pre
    fun _ _ h => h.1) fun _ => ?_
  refine Discipline.Triple.bind (spec_update hc (stable_wrote.and stable_holding) ?_ ?_ ?_)
    fun r => ?_
  · exact fun σ c h => ⟨⟨h.1.old, h.1.own⟩, h.2.1, h.2.2.old, h.2.2.own⟩
  · exact fun σ σ' hg hguards h => ⟨h.1.keep hg, hguards ▸ h.2.1, h.2.2.keep hg⟩
  · intro σ o h ho hv
    obtain ⟨hw, he⟩ := h.1.own o ho hv
    exact ⟨.inl hw, Nat.lt_succ_of_le he⟩
  match r with
  | .ok version =>
    refine Discipline.Triple.bind (spec_setGuard (Q := fun σ => Wrote t version (g.epoch + 1) σ ∧
      Kept clock t (now + ttl) σ) hc (stable_wrote.and stable_kept) (fun σ c _ h => ?_)
      fun σ _ h _ _ => ?_) fun _ => ?_
    · exact ⟨⟨(h.2 version rfl).1.old, (h.2 version rfl).1.own⟩, (h.2 version rfl).2.pass hc⟩
    · exact (h.2 version rfl).2
    · exact fun σ _ h => ⟨h.2, h.1.1⟩
  | .error .preconditionFailed =>
    refine Discipline.Triple.bind ((spec_flagGuard hc { g with epoch := g.epoch + 1 }
      { g with epoch := g.epoch + 1, lost := true } rfl (Nat.le_refl _) rfl id fun _ => rfl).pre
      fun _ _ h => h.1.2) fun _ => ?_
    exact fun σ _ h => h.2
  | .error .notFound => exact fun σ _ h => h.1.2
  | .error .other => exact fun σ _ h => h.1.2

theorem spec_heartbeatLoop (hc : ClocksOk clock) {rounds : ℕ} :
    Spec clock t (heartbeatLoop holder purpose ttl rounds g) (Holding t g) (Holding t) := by
  induction rounds generalizing g with
  | zero => exact fun _ _ h => h
  | succ rounds ih =>
    unfold heartbeatLoop
    split
    · exact fun _ _ h => h
    · refine Discipline.Triple.bind (spec_heartbeat hc) fun r => ?_
      split
      · refine Discipline.Triple.bind (spec_flagGuard hc _ _ rfl (Nat.le_refl _) rfl
          (fun _ => rfl) id)
          fun _ => ?_
        exact fun _ _ h => h.2
      · exact ih

theorem spec_release (hc : ClocksOk clock) :
    Spec clock t (release g) (Holding t g) fun _ _ => True := by
  refine Discipline.Triple.bind (spec_flagGuard hc _ _ rfl (Nat.le_refl _) rfl (fun _ => rfl) id)
    fun _ => ?_
  refine Discipline.Triple.bind ((spec_delete hc).pre fun _ _ h => ⟨h.1, _, h.2.1, rfl⟩) fun r => ?_
  split <;> exact fun _ _ _ => trivial

theorem spec_dropGuard (hc : ClocksOk clock) :
    Spec clock t (dropGuard g) (Holding t g) fun _ _ => True := by
  unfold dropGuard
  split
  · exact fun _ _ _ => trivial
  · refine Discipline.Triple.bind (spec_flagGuard hc _ _ rfl (Nat.le_refl _) rfl (fun _ => rfl) id)
      fun _ => ?_
    refine Discipline.Triple.bind ((spec_delete hc).pre fun _ _ h => ⟨h.1, _, h.2.1, rfl⟩)
      fun r => ?_
    exact fun _ _ _ => trivial

theorem spec_useGuard (hc : ClocksOk clock) {uses : List Use} :
    Spec clock t (useGuard holder purpose uses g) (Holding t g) fun _ _ => True := by
  induction uses generalizing g with
  | nil => exact fun _ _ _ => trivial
  | cons u us ih =>
    cases u with
    | heartbeat ttl => exact Discipline.Triple.bind (spec_heartbeat hc) fun _ => ih
    | heartbeats ttl rounds => exact Discipline.Triple.bind (spec_heartbeatLoop hc) fun _ => ih
    | release => exact Discipline.Triple.bind (spec_release hc) fun _ _ _ _ => trivial
    | drop => exact spec_dropGuard hc

theorem spec_job (hc : ClocksOk clock) (j : Job) :
    Spec clock t j.run (fun σ => σ.guards t = none) fun _ _ => True := by
  refine Discipline.Triple.bind (spec_tryAcquire hc) fun r => ?_
  match r with
  | .ok (some g) => exact (spec_useGuard hc).pre fun _ _ h => h g rfl
  | .ok none => exact fun _ _ _ => trivial
  | .error _ => exact fun _ _ _ => trivial

end Programs

section Runs

theorem inv_init : Inv clock World.init :=
  ⟨nofun, nofun, nofun, nofun, List.IsChain.nil⟩

theorem inv_leaseRun (hc : ClocksOk clock) {s : Sys} (h : LeaseRun clock NotShorter s) :
    Inv clock s.world :=
  (Discipline.Sound.reach (D := discipline clock) (fun _ => stable_guards)
    (fun j _ => spec_job hc j) (Discipline.sound_init inv_init fun _ => rfl) h).inv

theorem Inv.exclusive (hc : ClocksOk clock) (hi : Inv clock σ) : Exclusive clock σ := by
  intro τ hτ t t' ⟨g, hg, hr, hl, hlt⟩ ⟨g', hg', hr', hl', hlt'⟩
  have hmono := hc.mono t σ.time τ hτ
  have hmono' := hc.mono t' σ.time τ hτ
  rcases hi.kept t g hg hr hl with ⟨o, ho, rfl, -⟩ | hd
  · rcases hi.kept t' g' hg' hr' hl' with ⟨o', ho', rfl, -⟩ | hd'
    · rw [ho] at ho'
      cases ho'
      rfl
    · omega
  · omega

/-- As long as no heartbeat asks for less time than its guard has left, at most one task believes
that it holds the lease, and the epochs go up until the record is deleted. -/
theorem lease_exclusive (hc : ClocksOk clock) {s : Sys} (h : LeaseRun clock NotShorter s) :
    Exclusive clock s.world ∧ EpochsIncreaseUntilRelease s.world :=
  ⟨(inv_leaseRun hc h).exclusive hc, (inv_leaseRun hc h).epochs⟩

def notShorter (t : ℕ) (o : Op) (_ : Choice) (σ : World) : Bool :=
  match o with
  | .update l _ => (σ.guards t).all fun g => g.expiresAt ≤ l.expiry
  | _ => true

theorem notShorter_of_test {o : Op} {c : Choice} (h : notShorter t o c σ = true) :
    NotShorter t o σ := by
  rintro l version g rfl hg
  simpa [notShorter, hg] using h

theorem exists_leaseRun (clock : ℕ → ℕ → ℕ) (es : List Step) {p : Sys → Bool}
    (h : (Pool.testedRuns (exec clock) Job.run notShorter Sys.init es).any p = true) :
    ∃ s, LeaseRun clock NotShorter s ∧ p s = true :=
  exists_of_testedRuns (exec clock) Job.run (fun _ _ _ _ => notShorter_of_test) h

theorem exists_anyLeaseRun (clock : ℕ → ℕ → ℕ) (es : List Step) {p : Sys → Bool}
    (h : (Pool.runs (exec clock) Job.run Sys.init es).any p = true) :
    ∃ s, LeaseRun clock (fun _ _ _ => True) s ∧ p s = true :=
  exists_of_runs (exec clock) Job.run h

def trueClock : ℕ → ℕ → ℕ := fun _ τ => τ

theorem clocksOk_true : ClocksOk trueClock := ⟨fun _ _ _ h => h, fun _ _ _ => Nat.le_add_right _ _⟩

def second : ℕ := 1000000000

def calls (t n : ℕ) : List Step := List.replicate n (.run t ⟨.ok, 0⟩)

def contender (name : String) (uses : List Use) : Step :=
  .spawn ⟨name, "compact", 10 * second, uses⟩

def believes (σ : World) (t : ℕ) : Bool :=
  (σ.guards t).any fun g => !g.released && !g.lost && decide (σ.time < g.expiresAt)

theorem believes_of_test (h : believes σ t = true) : Believes trueClock σ t σ.time := by
  obtain ⟨g, hg, hb⟩ := (Option.any_eq_true _ _).mp h
  simp only [Bool.and_eq_true, Bool.not_eq_true', decide_eq_true_eq] at hb
  exact ⟨g, hg, hb.1.1, hb.1.2, hb.2⟩

/-- A holder that heartbeats once, and a contender that waits until it has expired. -/
def stolen : List Step :=
  contender "a" [.heartbeat (10 * second)] :: calls 0 8 ++ contender "b" [] ::
    .run 1 ⟨.ok, 12 * second⟩ :: calls 1 3

theorem lease_exclusive_stolen : ∃ s, LeaseRun trueClock NotShorter s ∧
    s.world.records.map Record.epoch = [2, 1, 0] ∧ believes s.world 1 = true ∧
    Exclusive trueClock s.world := by
  obtain ⟨s, hr, hs⟩ := exists_leaseRun trueClock stolen
    (p := fun s => s.world.records.map Record.epoch = [2, 1, 0] ∧ believes s.world 1 = true)
    (by decide +kernel)
  obtain ⟨hrec, hb⟩ := of_decide_eq_true hs
  exact ⟨s, hr, hrec, hb, (lease_exclusive clocksOk_true hr).1⟩

/-- A holds the lease for ten seconds; its heartbeat for one second is applied without an answer.
Three seconds later B takes the expired record over and releases it, and C creates one. -/
def shortened : List Step :=
  contender "a" [.heartbeat second] :: calls 0 6 ++ .run 0 ⟨.errApplied, 0⟩ ::
    contender "b" [.release] :: .run 1 ⟨.ok, 3 * second⟩ :: calls 1 5 ++
    contender "c" [] :: calls 2 4

theorem two_holders_and_epoch_again : ClocksOk trueClock ∧
    ∃ s, LeaseRun trueClock (fun _ _ _ => True) s ∧
      s.world.records.map Record.epoch = [0, 2, 1, 0] ∧
      ¬ Exclusive trueClock s.world ∧ ¬ EpochsIncrease s.world := by
  obtain ⟨s, hr, hs⟩ := exists_anyLeaseRun trueClock shortened
    (p := fun s => s.world.records.map Record.epoch = [0, 2, 1, 0] ∧
      believes s.world 0 = true ∧ believes s.world 2 = true) (by decide +kernel)
  obtain ⟨hrec, hb, hb'⟩ := of_decide_eq_true hs
  refine ⟨clocksOk_true, s, hr, hrec, fun hx => ?_, fun he => ?_⟩
  · exact absurd (hx s.world.time (Nat.le_refl _) 0 2 (believes_of_test hb) (believes_of_test hb'))
      (by decide)
  · rw [EpochsIncrease, hrec] at he
    exact absurd he (by decide)

end Runs

end Walgit.Leases
