import Walgit.ApplySpec

/-!
# Sync under the mutex

The freshness check with its three outcomes, and the rules for the lock and for
the pair of manifest and version. A sync that starts from any calm assertion
ends in it, whatever it answers.
-/

namespace Walgit

open Interleaving Replay

variable {L : List Hazard} {t h : ℕ} {m M : Manifest} {R : World → Prop} {σ : World}
  {version : ℕ}

section Pair

variable {hd : Handle} {c : Choice} {locked : Bool}

theorem forward_setManifest (hp : PairLevel L)
    (hok : Avoids L (.setManifest h m locked) c σ) (hh : σ.handles h = some hd)
    (hstep : locked = true → RefsLevel L → hd.manifest.revision ≤ m.revision) :
    hd.manifest.revision ≤ m.revision := by
  obtain hback | ⟨hback, hL⟩ := hp.forward
  · exact Nat.le_of_not_lt fun hlt => hok _ hback ⟨h, m, locked, rfl, hd, hh, hlt⟩
  · cases locked with
    | true => exact hstep rfl hL
    | false => exact Nat.le_of_not_lt fun hlt => hok _ hback ⟨h, m, rfl, hd, hh, hlt⟩

/-- A manifest field that does not go back keeps the pair, whatever version stands beside it. -/
theorem pair_setManifest (hi : Inv L σ) (hinv : HandleInv L σ hd) (hm : Has m σ)
    (hrev : hd.manifest.revision ≤ m.revision) : PairOf m hd.version σ := by
  obtain ⟨a, ha, hman, hv⟩ := hinv.pair
  obtain ⟨b, hb, rfl⟩ := hm
  refine ⟨b, hb, rfl, fun v h => (hv v h).trans (hi.linked.version_le ha hb ?_)⟩
  rwa [hman]

theorem manifest_of_setVersion (hp : PairLevel L)
    (hok : Avoids L (.setVersion h m version) c σ) (hh : σ.handles h = some hd) :
    hd.manifest = m := by
  by_contra hne
  exact hok .tornWrite hp.tornWrite ⟨h, m, version, rfl, hd, hh, hne⟩

theorem HandleInv.setVersion (hinv : HandleInv L σ hd) (hm : hd.manifest = m)
    (hv : PairOf m (some version) σ) : HandleInv L σ { hd with version := some version } := by
  refine hinv.of_core ⟨rfl, rfl, rfl, rfl⟩ ?_ id
  rwa [hm]

theorem HandleGuar.of_same {hd' : Handle} (hs : SameCore hd hd')
    (hm : hd'.syncMutex = hd.syncMutex) : HandleGuar L t hd hd' :=
  ⟨by rw [hs.manifest], fun _ _ h => hm.trans h,
    fun _ _ _ _ => ⟨hs.manifest, hs.state, hs.verified, hs.refs⟩⟩

theorem HandleGuar.of_unlocked {hd' : Handle} (hn : hd.syncMutex = none) (hs : SameCore hd hd') :
    HandleGuar L t hd hd' := by
  refine ⟨by rw [hs.manifest], fun t' _ ht => ?_, fun _ t' _ ht => ?_⟩
  · rw [hn] at ht
    cases ht
  · rw [hn] at ht
    cases ht

end Pair

section Held

variable {X : World → Handle → Prop}

theorem spec_setVersion (hp : PairLevel L) (hR : Calm L t R) (hX : Frozen L X)
    (hv : ∀ σ, R σ → PairOf m (some version) σ) :
    Spec L t (call (.setVersion h m version)) (Under L t h R X) fun _ => Under L t h R X := by
  refine Spec.held (o := .setVersion h m version) (fun _ _ => trivial)
    (fun _ hd => ((), { hd with version := some version })) (fun _ _ => rfl) hR (fun _ => hX) ?_
  intro σ c hd hi hr hok hh hm hinv hx
  have hman := manifest_of_setVersion hp hok hh
  refine ⟨hm, Nat.le_refl _, hinv.setVersion hman (hv σ hr), fun hL => ?_⟩
  exact hX σ σ hd _ hi hinv (.of_commits_eq rfl) ⟨rfl, rfl, rfl, rfl⟩ (hx hL)

theorem spec_setManifest (hp : PairLevel L) (hR : Calm L t R) (hm : ∀ σ, R σ → Has m σ)
    {Y : World → Handle → Prop} (hY : Frozen L Y)
    (hstep : ∀ σ hd, Inv L σ → R σ → RefsLevel L → HandleInv L σ hd → X σ hd →
      hd.manifest.revision ≤ m.revision ∧
        (hd.verified = true → NearHandle σ { hd with manifest := m }) ∧
          Y σ { hd with manifest := m }) :
    Spec L t (call (.setManifest h m true)) (Under L t h R X) fun _ => Under L t h R Y := by
  refine Spec.held (o := .setManifest h m true) (fun _ _ => trivial)
    (fun _ hd => ((), { hd with manifest := m }))
    (fun _ _ => rfl) hR (fun _ => hY) ?_
  intro σ c hd hi hr hok hh hmut hinv hx
  have hrev := forward_setManifest hp hok hh fun _ hL => (hstep σ hd hi hr hL hinv (hx hL)).1
  have hpair : PairOf m hd.version σ := pair_setManifest hi hinv (hm σ hr) hrev
  refine ⟨hmut, hrev, ⟨hpair, hinv.headOk, fun hL hver => ?_, fun hE hnone => ?_⟩,
    fun hL => (hstep σ hd hi hr hL hinv (hx hL)).2.2⟩
  · exact (hstep σ hd hi hr hL hinv (hx hL)).2.1 hver
  · change hd.syncMutex = none at hnone
    rw [hmut] at hnone
    cases hnone

theorem quiet_acquire {hd : Handle} (hX : Frozen L X) (hi : Inv L σ)
    (hh : σ.handles h = some hd) (hfree : hd.syncMutex.isNone = true)
    (hx : hd.syncMutex = none → RefsLevel L → X σ hd) :
    Quiet L t σ (σ.setHandle h { hd with syncMutex := some t }) ∧
      Held L t h X (σ.setHandle h { hd with syncMutex := some t }) := by
  have hnone : hd.syncMutex = none := Option.isNone_iff_eq_none.mp hfree
  have hinv := hi.handles h hd hh
  refine ⟨.setHandle hi hh (hinv.of_same ⟨rfl, rfl, rfl, rfl⟩ rfl nofun)
    (.of_unlocked hnone ⟨rfl, rfl, rfl, rfl⟩), _, setHandle_self, rfl, fun hL => ?_⟩
  exact hX σ _ hd _ hi hinv (.of_commits_eq rfl) ⟨rfl, rfl, rfl, rfl⟩ (hx hnone hL)

theorem spec_lock (hR : Calm L t R) :
    Spec L t (call (.lock h)) R fun _ => Under L t h R fun σ hd => Ready L σ hd ∧ Even L σ hd := by
  have hfroz : Frozen L fun σ hd => Ready L σ hd ∧ Even L σ hd :=
    frozen_and frozen_ready frozen_even
  refine (Spec.quiet (o := .lock h) (fun _ _ => trivial) hR (P := fun _ => True)
    (fun _ => stable_held hfroz) ?_).pre fun σ _ hr => ⟨hr, trivial⟩
  intro σ c r σ' hi hr _ hok hex
  obtain ⟨hd, hh, hfree, rfl⟩ := updateIf_eq hex
  refine quiet_acquire hfroz hi hh hfree fun hnone _ => ⟨fun hE hv => ?_, fun hz hv => ?_⟩
  · exact (hi.handles h hd hh).settled hE hnone (.inl hv)
  · by_contra hne
    exact hok .lockUnsettled hz ⟨h, rfl, hd, hh, hv, hne⟩

theorem quiet_release {hd hd' : Handle} {o : Op} {c : Choice} (hi : Inv L σ)
    (hh : σ.handles h = some hd) (hm : hd.syncMutex = some t) (hs : SameCore hd hd')
    (hv : hd'.version = hd.version) (ho : o = .unlock h ∨ o = .publishHandle h)
    (hok : Avoids L o c σ) (hr : RefsLevel L → Ready L σ hd) : Quiet L t σ (σ.setHandle h hd') := by
  have hinv := hi.handles h hd hh
  refine .setHandle hi hh ?_ (.of_held hm (by rw [hs.manifest]))
  have hinv' : HandleInv L σ { hd' with syncMutex := some t } :=
    hinv.of_same ⟨hs.manifest, hs.state, hs.verified, hs.refs⟩ hv
      fun h => by cases h
  refine ⟨hinv'.pair, hinv'.headOk, fun hL hver => ?_, fun hE _ hver => ?_⟩
  · obtain ⟨ha, hn⟩ := hinv'.near hL hver
    exact ⟨ha, hn⟩
  · have hver : hd.verified = true := by
      rcases hver with hver | hL
      · exact hs.verified.symm.trans hver
      · by_contra hne
        exact hok _ hL ⟨h, ho, hd, hh, by simpa using hne⟩
    exact (hr hE.refs hE hver).of_same hs

theorem spec_unlock (hR : Calm L t R) :
    Spec L t (call (.unlock h)) (Under L t h R (Ready L)) fun _ => R := by
  refine (Spec.quiet (o := .unlock h) (fun _ _ => trivial) (Q := fun _ _ => True) hR
    (fun _ => Discipline.Stable.const) ?_).post fun _ _ _ hx => hx.1
  rintro σ c r σ' hi hr ⟨hd, hh, hm, hX⟩ hok hex
  obtain ⟨hd₀, hh₀, he⟩ := Option.map_eq_some_iff.mp hex
  rw [hh] at hh₀
  cases hh₀
  cases he
  exact ⟨quiet_release hi hh hm ⟨rfl, rfl, rfl, rfl⟩ rfl (.inl rfl) hok hX, trivial⟩

theorem spec_unlockEnded {α : Type} {r : Except WalError α} (hR : Calm L t R) :
    Spec L t (call (.unlock h)) (Under L t h R (Ended L r)) fun _ => R :=
  (spec_unlock hR).pre fun _ _ hx => ⟨hx.1, hx.2.imp fun _ _ _ hX => hX.1⟩

end Held

section Sync

variable {force : Bool}

def Checked (L : List Hazard) (M : Manifest) (force : Bool) :
    Option (Manifest × ℕ) → World → Handle → Prop
  | none => Begin L M M force
  | some (m, _) => Begin L m M force

theorem frozen_checked (o : Option (Manifest × ℕ)) : Frozen L (Checked L M force o) := by
  rcases o with _ | ⟨m, v⟩
  · exact frozen_begin
  · exact frozen_begin

theorem Checked.ready {o : Option (Manifest × ℕ)} {hd : Handle}
    (hc : Checked L M force o σ hd) : Ready L σ hd := by
  rcases o with _ | ⟨m, v⟩
  · exact Begin.ready hc
  · exact Begin.ready hc

theorem Checked.of_force {o : Option (Manifest × ℕ)} {hd : Handle}
    (hc : Checked L M true o σ hd) (hf : force = false → hd.verified = true) :
    Checked L M force o σ hd := by
  rcases o with _ | ⟨m, v⟩
  · exact ⟨hc.manifest, hc.revision, hc.head, hf, hc.near, hc.even, hc.ready⟩
  · exact ⟨Begin.manifest hc, Begin.revision hc, Begin.head hc, hf, Begin.near hc, Begin.even hc,
      Begin.ready hc⟩

def NewPair (o : Option (Manifest × ℕ)) (σ : World) : Prop :=
  ∀ m v, o = some (m, v) → PairOf m (some v) σ

theorem lasting_newPair {o : Option (Manifest × ℕ)} : Lasting L (NewPair o) :=
  .all fun _ => .all fun _ => lasting_pairOf.imp

theorem checked_now {hd : Handle} {known : Option ℕ} (hi : Inv L σ) (hinv : HandleInv L σ hd)
    (hL : RefsLevel L) (hM : hd.manifest = M) (hr : Ready L σ hd) (hev : Even L σ hd)
    (hv : PairOf M known σ) : Checked L M true (if known = some σ.current.version then none
      else some (σ.current.manifest, σ.current.version)) σ hd := by
  have hhead := hinv.headOk hL
  -- whatever the refs have of later entries was committed by now
  have hnear : hd.verified = true → hd.state.appliedSeq ≤ M.headSeq ∧ ∃ k ≤ σ.head,
      NearFold σ.log hd.refs hd.state.appliedSeq k ∧ NearFold σ.log hd.refs M.headSeq k := by
    intro hver
    rw [← hM]
    exact ⟨(hinv.near hL hver).applied, (hinv.near hL hver).near⟩
  split
  · rename_i hk
    subst hk
    have hcur : M.headSeq = σ.head := by
      rw [PairOf.current hi hv rfl]
      rfl
    rw [← hcur] at hhead hnear
    exact ⟨hM, Nat.le_refl _, hhead, nofun, hnear, hev, hr⟩
  · obtain ⟨c, hc, rfl, -⟩ := hv
    obtain ⟨older, ho⟩ := hi.commits_eq
    have hl := hi.linked
    rw [ho] at hl hc
    exact ⟨hM, (hl.le_head hc).2.2, hhead, nofun, hnear, hev, hr⟩

theorem spec_readManifest {X : World → Handle → Prop} (hR : Calm L t R) (hX : Frozen L X) :
    Spec L t (call (.manifest h)) (Under L t h R X)
      fun m => Under L t h (fun σ => R σ ∧ Has m σ) fun σ hd => X σ hd ∧ hd.manifest = m := by
  refine Spec.learn (o := .manifest h) rfl hR (fun _ => lasting_has)
    (fun m => frozen_and hX (frozen_core (p := fun x _ _ => x = m))) ?_
  intro σ c m hd hi hr hex hh hinv hx
  obtain ⟨-, hd₀, hh₀, rfl⟩ := read_eq hex
  rw [hh] at hh₀
  cases hh₀
  obtain ⟨a, ha, hman, -⟩ := hinv.pair
  exact ⟨⟨a, ha, hman⟩, fun hL => ⟨hx hL, rfl⟩⟩

theorem spec_syncUnchanged {known : Option ℕ} (hR : Calm L t R) :
    Spec L t (syncUnchanged h known force) (Under L t h R (Begin L M M force))
      fun r => Under L t h R (Ended L r) := by
  unfold syncUnchanged
  split
  · refine Spec.bind (spec_readManifest hR frozen_begin) fun m => ?_
    split
    · refine ((spec_applyAndVerify (hR.and lasting_has.calm) fun σ hr => hr.2).pre ?_).post ?_
      · rintro σ - ⟨hr, hx⟩
        refine ⟨hr, hx.imp fun hd _ _ ⟨hb, hman⟩ => ?_⟩
        obtain rfl : M = m := hb.manifest.symm.trans hman
        exact ⟨hman, Nat.le_refl _, hb.head, nofun, hb.near, hb.even, hb.ready⟩
      · exact fun _ σ _ hx => ⟨hx.1.1, hx.2.imp fun _ _ _ hp => ⟨hp.1.2, hp.2⟩⟩
    · exact Spec.ret fun σ _ hx => ⟨hx.1.1, hx.2.imp fun _ _ _ hb => ⟨hb.1.ready, nofun⟩⟩
  · rename_i hforce
    obtain rfl : force = false := by simpa using hforce
    exact Spec.ret fun σ _ hx => ⟨hx.1, hx.2.imp fun _ _ _ hb => ⟨hb.ready, fun _ => hb.synced⟩⟩

theorem spec_setPair (hp : PairLevel L) (hR : Calm L t R)
    (hv : ∀ σ, R σ → PairOf m (some version) σ) {X Y : World → Handle → Prop} (hY : Frozen L Y)
    (hstep : ∀ σ hd, Inv L σ → R σ → RefsLevel L → HandleInv L σ hd → X σ hd →
      hd.manifest.revision ≤ m.revision ∧
        (hd.verified = true → NearHandle σ { hd with manifest := m }) ∧
          Y σ { hd with manifest := m })
    {β : Type} {f : Task β} {Q : β → World → Prop} (hf : Spec L t f (Under L t h R Y) Q) :
    Spec L t (do call (.setManifest h m true); call (.setVersion h m version); f)
      (Under L t h R X) Q :=
  Spec.bind (spec_setManifest hp hR (fun σ hr => (hv σ hr).has) hY hstep) fun _ =>
    Spec.bind (spec_setVersion hp hR hY hv) fun _ => hf

theorem spec_syncChanged (hp : PairLevel L) (hR : Calm L t R)
    (hv : ∀ σ, R σ → PairOf m (some version) σ) :
    Spec L t (syncChanged h m version force) (Under L t h R (Begin L m M force))
      fun r => Under L t h R (Ended L r) := by
  unfold syncChanged
  refine Spec.bind (spec_readManifest hR frozen_begin) fun cur => ?_
  have hRc : Calm L t fun σ => R σ ∧ Has cur σ := hR.and lasting_has.calm
  have hX : Frozen L fun σ hd => Begin L m M force σ hd ∧ hd.manifest = cur :=
    frozen_and frozen_begin (frozen_core (p := fun x _ _ => x = cur))
  refine Spec.bind (Spec.skip rfl (stable_under hRc hX)) fun held => ?_
  split
  · -- at the level of refs this branch is dead: the manifest held is never ahead of the store
    rename_i hlt
    have hdead : ∀ {σ : World} {hd : Handle} {p : Prop},
        Begin L m M force σ hd ∧ hd.manifest = cur → p := by
      rintro σ hd p ⟨hb, rfl⟩
      have := hb.revision
      rw [← hb.manifest] at this
      omega
    split
    · refine Spec.bind (Spec.skip rfl (stable_under hRc hX)) fun known => ?_
      split
      · refine ((spec_applyAndVerify hRc fun σ hr => hr.2).pre ?_).post ?_
        · exact fun σ _ hx => ⟨hx.1, hx.2.imp fun hd _ _ hb => hdead hb⟩
        · exact fun _ σ _ hx => ⟨hx.1.1, hx.2.imp fun _ _ _ hp => ⟨hp.1.2, hp.2⟩⟩
      · exact Spec.ret fun σ _ hx => ⟨hx.1.1, hx.2.imp fun hd _ _ hb => hdead hb⟩
    · exact Spec.ret fun σ _ hx => ⟨hx.1.1, hx.2.imp fun hd _ _ hb => hdead hb⟩
  · split
    · rename_i hge heq
      have hsame : ∀ {σ : World} {hd : Handle}, Inv L σ → R σ ∧ Has cur σ →
          Begin L m M force σ hd ∧ hd.manifest = cur → hd.manifest = m := by
        rintro σ hd hi ⟨hr, a, ha, rfl⟩ ⟨-, hman⟩
        obtain ⟨b, hb, rfl, -⟩ := hv σ hr
        rw [hman, hi.linked.eq_of_revision hb ha heq.2]
      refine Spec.andThen (R := fun r => Under L t h R (Proved L m r)) ?_
        (fun _ σ _ hx => ⟨hx.1, hx.2.imp fun _ _ _ hp => ⟨hp.1.2, nofun⟩⟩) fun _ => ?_
      · split
        · refine (spec_applyAndVerify hR fun σ hr => (hv σ hr).has).pre ?_
          rintro σ hi ⟨hr, hx⟩
          refine ⟨hr.1, hx.imp fun hd _ _ hb => ?_⟩
          have hm := hsame hi hr hb
          obtain rfl : M = m := hb.1.manifest.symm.trans hm
          exact ⟨hm, Nat.le_refl _, hb.1.head, nofun, hb.1.near, hb.1.even, hb.1.ready⟩
        · rename_i hforce
          obtain rfl : force = false := by simpa using hforce
          refine Spec.ret fun σ hi ⟨hr, hx⟩ => ⟨hr.1, hx.imp fun hd _ _ hb => ?_⟩
          have hm := hsame hi hr hb
          obtain rfl : M = m := hb.1.manifest.symm.trans hm
          exact ⟨⟨hm, hb.1.ready⟩, fun _ => hb.1.synced⟩
      · refine spec_setPair (Y := fun σ hd => Proven L m σ hd ∧ Synced L σ hd) hp hR hv
          (frozen_and frozen_proven frozen_synced) ?_
          (Spec.ret fun σ _ hx => ⟨hx.1, hx.2.imp fun _ _ _ hy => ⟨hy.1.2, fun _ => hy.2⟩⟩)
        rintro σ hd - - hL hinv ⟨⟨rfl, hr⟩, hy⟩
        exact ⟨Nat.le_refl _, hinv.near hL, ⟨rfl, hr⟩, hy rfl⟩
    · -- the manifest held is `cur`, which this branch found not to be newer
      rename_i hge _
      refine Spec.andThen ((spec_applyDeltaWithRebuild (M := cur) hR
        fun σ hr => (hv σ hr).has).pre ?_) ?_ fun _ => ?_
      · rintro σ - ⟨hr, hx⟩
        refine ⟨hr.1, hx.imp fun hd _ _ ⟨hb, hman⟩ => ?_⟩
        obtain rfl : M = cur := hb.manifest.symm.trans hman
        exact hb
      · exact fun _ σ _ hx => ⟨hx.1, hx.2.imp fun _ _ _ hd => ⟨.of_down hd.2, nofun⟩⟩
      · refine spec_setPair (Y := Applied L m m) hp hR hv frozen_applied ?_ ?_
        · rintro σ hd - - - - ⟨⟨⟨hman, hdown⟩, hle, hn⟩, happ⟩
          refine ⟨?_, fun hv => ?_, ⟨⟨rfl, hdown⟩, hle, hn⟩, happ⟩
          · rw [hman]
            exact Nat.le_of_not_lt hge
          rw [hdown] at hv
          cases hv
        · refine Spec.bind (spec_setVerified hR) fun _ => Spec.ret fun σ _ hx => ?_
          exact ⟨hx.1, hx.2.imp fun _ _ _ hp => ⟨hp.1.2, fun _ => hp.2⟩⟩

theorem spec_syncLockedInner (hp : PairLevel L) (hR : Calm L t R) :
    Spec L t (syncLockedInner h force) (Under L t h R fun σ hd => Ready L σ hd ∧ Even L σ hd)
      fun r => Under L t h R (Ended L r) := by
  have hfroz : ∀ M, Frozen L fun σ hd => Proven L M σ hd ∧ Even L σ hd :=
    fun M => frozen_and frozen_proven frozen_even
  refine Spec.pre (P := fun σ => ∃ M, Under L t h R (fun σ hd => Proven L M σ hd ∧ Even L σ hd) σ)
    (Spec.given fun M => ?_) ?_
  swap
  · rintro σ - ⟨hr, hd, hh, hm, hX⟩
    exact ⟨hd.manifest, hr, hd, hh, hm, fun hL => ⟨⟨rfl, (hX hL).1⟩, (hX hL).2⟩⟩
  unfold syncLockedInner
  refine Spec.bind (R := fun known => Under L t h (fun σ => R σ ∧ (RefsLevel L → PairOf M known σ))
    fun σ hd => Proven L M σ hd ∧ Even L σ hd) ?_ fun known => ?_
  · refine Spec.learn (o := .version h) rfl hR (fun _ => lasting_pairOf.imp)
      (fun _ => hfroz M) ?_
    intro σ c known hd hi _ hex hh hinv hX
    obtain ⟨-, hd₀, hh₀, rfl⟩ := read_eq hex
    rw [hh] at hh₀
    cases hh₀
    refine ⟨fun hL => ?_, hX⟩
    rw [← (hX hL).1.1]
    exact hinv.pair
  have hRk : Calm L t fun σ => R σ ∧ (RefsLevel L → PairOf M known σ) :=
    hR.and lasting_pairOf.imp.calm
  refine Spec.andThen (R := fun r => Under L t h (fun σ => R σ ∧ ∀ o, r = .ok o → NewPair o σ)
    fun σ hd => Ready L σ hd ∧ ∀ o, r = .ok o → Checked L M true o σ hd) ?_
    (fun _ σ _ hx => ⟨hx.1.1, hx.2.imp fun _ _ _ hX => ⟨hX.1, nofun⟩⟩) fun o => ?_
  · refine (Spec.learn (o := .getManifestIf known) rfl hRk (F := fun r σ => ∀ o, r = .ok o →
      NewPair o σ) (Y := fun r σ hd => Ready L σ hd ∧ ∀ o, r = .ok o → Checked L M true o σ hd)
      (fun _ => .all fun _ => lasting_newPair.imp) ?_ ?_).post
      fun _ σ _ hx => ⟨⟨hx.1.1.1, hx.1.2⟩, hx.2⟩
    · exact fun r => frozen_and frozen_ready fun σ σ' hd hd' hi hh he hs hx o ho =>
        frozen_checked o σ σ' hd hd' hi hh he hs (hx o ho)
    · intro σ c r hd hi hr hex hh hinv hX
      have hget : ∀ o, r = .ok o → o = if known = some σ.current.version then none
          else some (σ.current.manifest, σ.current.version) := by
        rintro o rfl
        exact Choice.get_ok (congrArg Prod.fst (Option.some.inj hex))
      refine ⟨fun o ho m v hmv => ?_, fun hL => ⟨(hX hL).1.2, fun o ho => ?_⟩⟩
      · have hnew := hmv.symm.trans (hget o ho)
        split at hnew
        · cases hnew
        · cases hnew
          exact hi.current_pair
      · rw [hget o ho]
        exact checked_now hi hinv hL (hX hL).1.1 (hX hL).1.2 (hX hL).2 (hr.2 hL)
  refine Spec.bind (R := fun verified => Under L t h (fun σ => R σ ∧ NewPair o σ)
    (Checked L M (force || !verified) o)) ?_ fun verified => ?_
  · refine (Spec.heldRead (o := .verified h) (fun _ => trivial) (fun _ hd => hd.verified)
      (fun _ _ => rfl) (hR.stable.and lasting_newPair.calm.stable) (X := Checked L M true o)
      (Y := fun verified => Checked L M (force || !verified) o)
      (fun _ => frozen_checked o) ?_).pre ?_
    · intro σ c hd _ _ _ _ hX
      refine hX.of_force fun hf => ?_
      simpa using (Bool.or_eq_false_iff.mp hf).2
    · exact fun σ _ hx => ⟨⟨hx.1.1, hx.1.2 o rfl⟩, hx.2.imp fun _ _ _ hX => hX.2 o rfl⟩
  · rcases o with _ | ⟨m, v⟩
    · exact (spec_syncUnchanged hR).pre fun σ _ hx => ⟨hx.1.1, hx.2⟩
    · refine (spec_syncChanged hp (hR.and lasting_newPair.calm) fun σ hr => hr.2 m v rfl).post ?_
      exact fun _ σ _ hx => ⟨hx.1.1, hx.2⟩

theorem spec_freshEnough {P : World → Prop} (hP : Keeping L t P) :
    Spec L t (freshEnough h) P fun _ => P := by
  unfold freshEnough
  refine Spec.bind (Spec.skip rfl hP) fun verified => ?_
  split
  · exact Spec.skip rfl hP
  · exact Spec.ret fun _ _ hx => hx

theorem spec_syncRefsPhase (hp : PairLevel L) (hR : Calm L t R) :
    Spec L t (syncRefsPhase h) R fun _ => R := by
  have hready : Keeping L t (Under L t h R fun σ hd => Ready L σ hd ∧ Even L σ hd) :=
    stable_under hR (frozen_and frozen_ready frozen_even)
  unfold syncRefsPhase
  refine Spec.bind (spec_freshEnough hR.stable) fun fresh => ?_
  split
  · exact Spec.ret fun _ _ hx => hx
  refine Spec.bind (spec_lock hR) fun _ => Spec.bind (spec_freshEnough hready) fun fresh => ?_
  split
  · refine Spec.bind ((spec_unlock hR).pre fun σ _ hx => ?_) fun _ => Spec.ret fun _ _ hx => hx
    exact ⟨hx.1, hx.2.imp fun _ _ _ hX => hX.1⟩
  refine Spec.bind (Spec.skip rfl hready) fun verified => ?_
  refine Spec.bind (spec_syncLockedInner hp hR) fun r => ?_
  exact Spec.bind (spec_unlockEnded hR) fun _ => Spec.ret fun _ _ hx => hx

theorem spec_syncServe (hp : PairLevel L) (hR : Calm L t R) :
    Spec L t (syncServe h) R fun _ => R :=
  Spec.andThen (spec_syncRefsPhase hp hR) (fun _ _ _ hx => hx) fun _ => Spec.skip rfl hR.stable

theorem spec_rebuildRefs (hp : PairLevel L) (hR : Calm L t R) :
    Spec L t (rebuildRefs h) R fun _ => R :=
  Spec.bind (spec_lock hR) fun _ => Spec.bind (spec_syncLockedInner hp hR) fun _ =>
    Spec.bind (spec_unlockEnded hR) fun _ => Spec.ret fun _ _ hx => hx

end Sync

section Open

/-- Whatever an older instance left on disk, its `HEAD` is no stranger to the log. -/
theorem leftover_headOk {old : Option ℕ} {c : Choice} {left : RefState × RepoState} {σ' : World}
    (hi : Inv L σ) (hL : RefsLevel L)
    (hex : exec t (.leftover old) c σ = some (left, σ')) : HeadOk σ.log left.1 σ.head := by
  cases old with
  | none =>
    cases hex
    exact .inl rfl
  | some j =>
    obtain ⟨-, hd, hh, rfl⟩ := read_eq hex
    exact (hi.handles j hd hh).headOk hL

theorem lasting_headOk {s : RefState} : Lasting L fun σ => HeadOk σ.log s σ.head :=
  .of_extends fun _ _ _ _ he hh => he.headOk hh

theorem lasting_headOk_at {s : RefState} {b : ℕ} : Lasting L fun σ => HeadOk σ.log s b :=
  .of_extends fun _ _ _ _ he hh => hh.imp_right fun ht => he.touched (Nat.le_refl b) ht

theorem spec_install {state : RepoState} {refs : RefState} (hR : Calm L t R)
    (hv : ∀ σ, R σ → PairOf m (some version) σ)
    (hhead : ∀ σ, R σ → RefsLevel L → HeadOk σ.log refs m.headSeq) :
    Spec L t (call (.install h m version state refs)) R
      fun _ => Under L t h R (Begin L m m true) := by
  refine (Spec.quiet (o := .install h m version state refs) (fun _ _ => trivial) hR
    (P := fun _ => True) (fun _ => stable_held frozen_begin) ?_).pre fun σ _ hr => ⟨hr, trivial⟩
  intro σ c r σ' hi hr _ hok hex
  have hexec : (if (σ.handles h).isNone then some ((), σ.setHandle h
      ⟨m, some version, state, false, refs, some t, false, none, false⟩) else none) =
      some (r, σ') := hex
  split at hexec
  · rename_i hnone
    cases hexec
    have hnone := Option.isNone_iff_eq_none.mp hnone
    have hle : RefsLevel L → HeadOk σ.log refs σ.head := fun hL =>
      (hhead σ hr hL).imp_right fun ht => touched_mono ((hv σ hr).has.headSeq_le hi) ht
    refine ⟨.of_keeps hi (.setHandle ⟨hv σ hr, hle, nofun, fun _ => nofun⟩) (.setHandle ?_) rfl rfl,
      _, setHandle_self, rfl, fun hL => ⟨rfl, Nat.le_refl _, hhead σ hr hL, nofun, nofun,
        fun _ => nofun, .of_down rfl⟩⟩
    intro x hx
    rw [hnone] at hx
    cases hx
  · cases hexec

theorem spec_openRepo {old : Option ℕ} (hR : Calm L t R) :
    Spec L t (openRepo h old) R fun _ _ => True := by
  unfold openRepo
  refine Spec.bind (R := fun left σ => R σ ∧ (RefsLevel L → HeadOk σ.log left.1 σ.head)) ?_
    fun left => ?_
  · refine Spec.read (o := .leftover old) rfl hR.stable (fun _ => lasting_headOk.imp) ?_
    exact fun σ c left hi _ _ hex hL => leftover_headOk hi hL hex
  refine Spec.andThen (R := fun r σ => R σ ∧ ∀ m v, r = .ok (m, v) → PairOf m (some v) σ ∧
    (RefsLevel L → HeadOk σ.log left.1 m.headSeq)) ?_ (fun _ _ _ _ => trivial) ?_
  · refine (Spec.read (o := .getManifest) rfl (hR.stable.and lasting_headOk.imp.calm.stable)
      (F := fun r σ => ∀ m v, r = .ok (m, v) → PairOf m (some v) σ ∧
        (RefsLevel L → HeadOk σ.log left.1 m.headSeq)) (fun _ => .all fun _ => .all fun _ =>
        (lasting_pairOf.and lasting_headOk_at.imp).imp) ?_).post
      fun _ σ _ hx => ⟨hx.1.1, hx.2⟩
    rintro σ c r hi ⟨-, hh⟩ - hex m v rfl
    cases Choice.get_ok (congrArg Prod.fst (Option.some.inj hex))
    exact ⟨hi.current_pair, hh⟩
  · rintro ⟨m, v⟩
    have hRm : Calm L t fun σ => R σ ∧ PairOf m (some v) σ ∧
        (RefsLevel L → HeadOk σ.log left.1 m.headSeq) :=
      hR.and (lasting_pairOf.and lasting_headOk_at.imp).calm
    refine Spec.bind ((spec_install hRm (fun σ hr => hr.2.1) fun σ hr => hr.2.2).pre
      fun σ _ hx => ⟨hx.1, hx.2 m v rfl⟩) fun _ => ?_
    refine Spec.andThen (R := fun _ => Under L t h (fun σ => R σ ∧ PairOf m (some v) σ ∧
      (RefsLevel L → HeadOk σ.log left.1 m.headSeq)) (Ready L)) ?_ (fun _ _ _ _ => trivial)
      fun _ => ?_
    · split
      · exact (spec_applyAndVerify hRm fun σ hr => hr.2.1.has).post
          fun _ σ _ hx => ⟨hx.1, hx.2.imp fun _ _ _ hp => hp.1.2⟩
      · exact Spec.ret fun σ _ hx => ⟨hx.1, hx.2.imp fun _ _ _ hb => hb.ready⟩
    · refine Spec.bind (R := fun _ _ => True) ?_ fun _ => Spec.ret fun _ _ _ => trivial
      refine (Spec.quiet (o := .publishHandle h) (fun _ _ => trivial) (Q := fun _ _ => True) hRm
        (fun _ => Discipline.Stable.const) ?_).post fun _ _ _ _ => trivial
      rintro σ c r σ' hi hr ⟨hd, hh, hm, hX⟩ hok hex
      obtain ⟨hd₀, hh₀, he⟩ := Option.map_eq_some_iff.mp hex
      rw [hh] at hh₀
      cases hh₀
      cases he
      exact ⟨quiet_release hi hh hm ⟨rfl, rfl, rfl, rfl⟩ rfl (.inr rfl) hok hX, trivial⟩

end Open

end Walgit
