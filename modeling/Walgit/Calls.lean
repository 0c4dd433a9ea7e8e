import Walgit.Assert

/-!
# Rules for single calls

Reads keep the world; a write to a handle keeps the invariant when the new
handle does. Programs are then verified by chaining these rules.
-/

namespace Walgit

open Interleaving Replay

variable {L : List Hazard} {t : ℕ} {σ σ' : World}

def Op.readOnly : Op → Bool
  | .now => true
  | .fallible => true
  | .getManifest => true
  | .getManifestIf _ => true
  | .headManifest _ => true
  | .headSegment _ => true
  | .getSegment _ => true
  | .getCheckpointRefs _ => true
  | .leftover _ => true
  | .ttlActive _ => true
  | .manifest _ => true
  | .version _ => true
  | .versionFor .. => true
  | .state _ => true
  | .verified _ => true
  | .lastEntryTime .. => true
  | .refView .. => true
  | .refs .. => true
  | .refresh _ => true
  | _ => false

theorem read_eq {α : Type} {h : ℕ} {f : Handle → α} {r : α} (hex : σ.read h f = some (r, σ')) :
    σ' = σ ∧ ∃ hd, σ.handles h = some hd ∧ r = f hd := by
  obtain ⟨hd, hh, he⟩ := Option.map_eq_some_iff.mp hex
  cases he
  exact ⟨rfl, hd, hh, rfl⟩

theorem Choice.get_ok {α : Type} {c : Choice} {a b : α} (h : c.get a = .ok b) : b = a := by
  unfold Choice.get at h
  split at h
  · exact (Except.ok.inj h).symm
  · cases h

theorem updateIf_eq {h : ℕ} {p : Handle → Bool} {f : Handle → Handle} {r : Unit}
    (hex : σ.updateIf h p f = some (r, σ')) :
    ∃ hd, σ.handles h = some hd ∧ p hd = true ∧ σ' = σ.setHandle h (f hd) := by
  obtain ⟨hd, hh, he⟩ := Option.bind_eq_some_iff.mp hex
  split at he
  · cases he
    exact ⟨hd, hh, by assumption, rfl⟩
  · cases he

theorem tryUpdate_eq {α : Type} {h : ℕ} {f : Handle → α × Handle} {r : α}
    (hex : σ.tryUpdate h f = some (r, σ')) :
    ∃ hd, σ.handles h = some hd ∧ r = (f hd).1 ∧ σ' = σ.setHandle h (f hd).2 := by
  obtain ⟨hd, hh, he⟩ := Option.map_eq_some_iff.mp hex
  cases he
  exact ⟨hd, hh, rfl, rfl⟩

theorem update_eq {h : ℕ} {f : Handle → Handle} {r : Unit} (hex : σ.update h f = some (r, σ')) :
    ∃ hd, σ.handles h = some hd ∧ σ' = σ.setHandle h (f hd) := by
  obtain ⟨hd, hh, he⟩ := Option.map_eq_some_iff.mp hex
  cases he
  exact ⟨hd, hh, rfl⟩

theorem exec_readOnly {o : Op} {c : Choice} {r : o.Res} (ho : o.readOnly = true)
    (hex : exec t o c σ = some (r, σ')) : σ' = σ := by
  cases o with
  | leftover old =>
    cases old with
    | none => exact (congrArg Prod.snd (Option.some.inj hex)).symm
    | some h => exact (read_eq hex).1
  | now | fallible | getManifest | getManifestIf | headManifest | headSegment | getSegment
  | getCheckpointRefs => exact (congrArg Prod.snd (Option.some.inj hex)).symm
  | ttlActive | manifest | version | versionFor | state | verified | lastEntryTime | refView
  | refs | refresh => exact (read_eq hex).1
  | _ => cases ho

/-- What a call can do to the history and to the log segments. -/
inductive StoreStep (t : ℕ) (o : Op) (σ σ' : World) : Prop
  | same (hc : σ'.commits = σ.commits) (hs : σ'.segs = σ.segs) (hn : σ'.next = σ.next)
  | commit (base : Manifest) (op : ManifestOp) (slot : Option Slot)
      (ho : o = .putManifest (some σ.current.version) base op slot)
      (hσ : σ' = σ.commit t base op slot)
  | write (seq : ℕ) (entries : List LogEntry) (ho : o = .putSegment seq entries)
      (hfree : σ.segs seq = none) (hσ : σ' = σ.writeSegment t seq entries)
  | remove (seq : ℕ) (hσ : σ' = σ.setSegment seq none)

theorem exec_store {o : Op} {c : Choice} {r : o.Res} (hex : exec t o c σ = some (r, σ')) :
    StoreStep t o σ σ' := by
  cases o with
  | putManifest known base op slot =>
    have hres : σ.putManifest c t known base op slot = (r, σ') := Option.some.inj hex
    unfold World.putManifest at hres
    split at hres
    · cases hres
      exact .same rfl rfl rfl
    · split at hres
      · rename_i hk
        cases hres
        exact .commit base op slot (by rw [hk]) rfl
      · cases hres
        exact .same rfl rfl rfl
  | halt => cases hex
  | putSegment seq entries =>
    have hres : σ.putSegment c t seq entries = (r, σ') := Option.some.inj hex
    unfold World.putSegment at hres
    split at hres
    · cases hres
      exact .same rfl rfl rfl
    · split at hres
      · rename_i hnone
        cases hres
        exact .write seq entries rfl (Option.isNone_iff_eq_none.mp hnone) rfl
      · cases hres
        exact .same rfl rfl rfl
  | deleteSegment seq version =>
    have hres : σ.deleteSegment c seq version = σ' := congrArg Prod.snd (Option.some.inj hex)
    unfold World.deleteSegment at hres
    split at hres
    · exact .remove seq hres.symm
    · cases hres
      exact .same rfl rfl rfl
  | casLanded slot =>
    have hres : σ.casLanded c t slot = (r, σ') := Option.some.inj hex
    unfold World.casLanded at hres
    split at hres <;> cases hres <;> exact .same rfl rfl rfl
  | putCheckpointRefs seq snap | putCheckpoint seq cp =>
    have hres := Option.some.inj hex
    unfold Choice.put at hres
    split at hres <;> cases hres <;> exact .same rfl rfl rfl
  | install h m version state refs =>
    change (if _ then _ else _) = _ at hex
    split at hex <;> cases hex
    exact .same rfl rfl rfl
  | respond answers =>
    cases hex
    exact .same rfl rfl rfl
  | enter | beginBatch | lock | lockForCommit =>
    obtain ⟨hd, -, -, rfl⟩ := updateIf_eq hex
    exact .same rfl rfl rfl
  | loadRefSnapshot | applyRefTxn | applyRefTxnsOffline =>
    obtain ⟨hd, -, -, rfl⟩ := tryUpdate_eq hex
    exact .same rfl rfl rfl
  | publishHandle | endBatch | unlock | noteEntryTime | setManifest | setVersion | takeVersion
  | setState | setApplied | setVerified =>
    obtain ⟨hd, -, rfl⟩ := update_eq hex
    exact .same rfl rfl rfl
  | _ =>
    rw [exec_readOnly rfl hex]
    exact .same rfl rfl rfl

theorem needs_readOnly {o : Op} (ho : o.readOnly = true) : o.needs t σ := by
  cases o <;> first | exact trivial | cases ho

namespace Spec

variable {α β ε : Type}

theorem ret {a : α} {P : World → Prop} {Q : α → World → Prop} (h : ∀ σ, Inv L σ → P σ → Q a σ) :
    Spec L t (pure a) P Q :=
  Discipline.Triple.ret h

theorem bind {p : Task α} {f : α → Task β} {P : World → Prop} {R : α → World → Prop}
    {Q : β → World → Prop} (hp : Spec L t p P R) (hf : ∀ a, Spec L t (f a) (R a) Q) :
    Spec L t (p >>= f) P Q :=
  Discipline.Triple.bind hp hf

theorem andThen {p : Task (Except ε α)} {f : α → Task (Except ε β)} {P : World → Prop}
    {R : Except ε α → World → Prop} {Q : Except ε β → World → Prop} (hp : Spec L t p P R)
    (herr : ∀ e σ, Inv L σ → R (.error e) σ → Q (.error e) σ)
    (hf : ∀ a, Spec L t (f a) (R (.ok a)) Q) : Spec L t (Task.andThen p f) P Q := by
  refine bind hp fun r => ?_
  cases r with
  | ok a => exact hf a
  | error e => exact ret (herr e)

theorem pre {p : Task α} {P P' : World → Prop} {Q : α → World → Prop} (h : Spec L t p P Q)
    (hP : ∀ σ, Inv L σ → P' σ → P σ) : Spec L t p P' Q :=
  Discipline.Triple.pre h hP

theorem post {p : Task α} {P : World → Prop} {Q Q' : α → World → Prop} (h : Spec L t p P Q)
    (hQ : ∀ a σ, Inv L σ → Q a σ → Q' a σ) : Spec L t p P Q' :=
  Discipline.Triple.post h hQ

theorem read {o : Op} {P : World → Prop} {F : o.Res → World → Prop} (ho : o.readOnly = true)
    (hP : Keeping L t P) (hF : ∀ r, Lasting L (F r))
    (h : ∀ σ c r, Inv L σ → P σ → Avoids L o c σ → exec t o c σ = some (r, σ) → F r σ) :
    Spec L t (call o) P fun r σ => P σ ∧ F r σ := by
  refine Discipline.Triple.perform (fun r => hP.and (hF r).calm.stable)
    (fun _ _ _ => needs_readOnly ho) ?_
  intro σ c r σ' hi hp hok hex
  obtain rfl := exec_readOnly ho hex
  exact ⟨hi, .refl, hp, h σ' c r hi hp hok hex⟩

theorem skip {o : Op} {P : World → Prop} (ho : o.readOnly = true) (hP : Keeping L t P) :
    Spec L t (call o) P fun _ => P := by
  refine Discipline.Triple.perform (fun _ => hP) (fun _ _ _ => needs_readOnly ho) ?_
  intro σ c r σ' hi hp hok hex
  obtain rfl := exec_readOnly ho hex
  exact ⟨hi, .refl, hp⟩

theorem quiet {o : Op} {R P : World → Prop} {Q : o.Res → World → Prop}
    (hn : ∀ σ, P σ → o.needs t σ) (hR : Calm L t R) (hQ : ∀ r, Keeping L t (Q r))
    (h : ∀ σ c r σ', Inv L σ → R σ → P σ → Avoids L o c σ → exec t o c σ = some (r, σ') →
      Quiet L t σ σ' ∧ Q r σ') :
    Spec L t (call o) (fun σ => R σ ∧ P σ) fun r σ => R σ ∧ Q r σ := by
  refine Discipline.Triple.perform (fun r => hR.stable.and (hQ r)) (fun σ _ h => hn σ h.2) ?_
  rintro σ c r σ' hi ⟨hr, hp⟩ hok hex
  obtain ⟨hq, hQ'⟩ := h σ c r σ' hi hr hp hok hex
  exact ⟨hq.inv', hq.guar, hR.quiet σ σ' hq hr, hQ'⟩

end Spec

theorem Quiet.of_keeps (hi : Inv L σ) (hk : Keeps L σ σ') (hg : Guar L t σ σ')
    (hv : σ'.verdicts = σ.verdicts) (hr : σ'.replies = σ.replies) : Quiet L t σ σ' :=
  ⟨hi, hk.inv hi, hg, hk.commits, hv, hr⟩

theorem Quiet.setHandle {h : ℕ} {hd hd' : Handle} (hi : Inv L σ) (hh : σ.handles h = some hd)
    (hinv : HandleInv L σ hd') (hg : HandleGuar L t hd hd') :
    Quiet L t σ (σ.setHandle h hd') := by
  refine .of_keeps hi (.setHandle hinv) (.setHandle fun x hx => ?_) rfl rfl
  rw [hh] at hx
  cases hx
  exact hg

theorem HandleGuar.of_held {hd hd' : Handle} (hm : hd.syncMutex = some t)
    (hr : hd.manifest.revision ≤ hd'.manifest.revision) : HandleGuar L t hd hd' :=
  ⟨hr, fun _ ht he => absurd (Option.some.inj (he.symm.trans hm)) ht,
    fun _ _ ht he => absurd (Option.some.inj (he.symm.trans hm)) ht⟩

theorem HandleInv.of_core {hd hd' : Handle} (hinv : HandleInv L σ hd) (hs : SameCore hd hd')
    (hp : PairOf hd'.manifest hd'.version σ) (hm : hd'.syncMutex = none → hd.syncMutex = none) :
    HandleInv L σ hd' where
  pair := hp
  headOk := by
    rw [hs.refs]
    exact hinv.headOk
  near hR hver := (hinv.near hR (hs.verified.symm.trans hver)).of_same hs
  settled hX hmut hver :=
    (hinv.settled hX (hm hmut) (hver.imp_left fun hv => hs.verified.symm.trans hv)).of_same hs

theorem HandleInv.of_same {hd hd' : Handle} (hinv : HandleInv L σ hd) (hs : SameCore hd hd')
    (hv : hd'.version = hd.version) (hm : hd'.syncMutex = none → hd.syncMutex = none) :
    HandleInv L σ hd' := by
  refine hinv.of_core hs ?_ hm
  rw [hs.manifest, hv]
  exact hinv.pair

theorem SameCore.refl {hd : Handle} : SameCore hd hd := ⟨rfl, rfl, rfl, rfl⟩

/-- A frame `R` that quiet steps keep, and the mutex of `h` with its core in `X`. -/
abbrev Under (L : List Hazard) (t h : ℕ) (R : World → Prop) (X : World → Handle → Prop) :
    World → Prop :=
  fun σ => R σ ∧ Held L t h X σ

theorem stable_under {h : ℕ} {R : World → Prop} {X : World → Handle → Prop} (hR : Calm L t R)
    (hX : Frozen L X) : Keeping L t (Under L t h R X) :=
  hR.stable.and (stable_held hX)

theorem Spec.held {o : Op} {h : ℕ}
    (hn : ∀ σ, (σ.on h fun hd => hd.syncMutex = some t) → o.needs t σ)
    (f : Choice → Handle → o.Res × Handle) (hex : ∀ c σ, exec t o c σ = σ.tryUpdate h (f c))
    {R : World → Prop} (hR : Calm L t R) {X : World → Handle → Prop}
    {Y : o.Res → World → Handle → Prop} (hY : ∀ r, Frozen L (Y r))
    (hstep : ∀ σ c hd, Inv L σ → R σ → Avoids L o c σ → σ.handles h = some hd →
      hd.syncMutex = some t → HandleInv L σ hd → (RefsLevel L → X σ hd) →
      (f c hd).2.syncMutex = some t ∧
        hd.manifest.revision ≤ (f c hd).2.manifest.revision ∧
        HandleInv L σ (f c hd).2 ∧ (RefsLevel L → Y (f c hd).1 σ (f c hd).2)) :
    Spec L t (call o) (Under L t h R X) fun r => Under L t h R (Y r) := by
  refine Spec.quiet (fun σ ⟨hd, hh, hm, _⟩ => hn σ ⟨hd, hh, hm⟩) hR
    (fun r => stable_held (hY r)) ?_
  rintro σ c r σ' hi hr ⟨hd, hh, hm, hX⟩ hok he
  rw [hex] at he
  obtain ⟨hd₀, hh₀, rfl, rfl⟩ := tryUpdate_eq he
  rw [hh] at hh₀
  cases hh₀
  obtain ⟨hm', hrev, hinv, hy⟩ := hstep σ c hd hi hr hok hh hm (hi.handles h hd hh) hX
  refine ⟨.setHandle hi hh hinv (.of_held hm hrev), _, setHandle_self, hm', fun hL => ?_⟩
  exact hY _ σ _ _ _ hi hinv (.of_commits_eq rfl) .refl (hy hL)

theorem Spec.free {o : Op} {h : ℕ} (hn : ∀ σ, o.needs t σ)
    (f : Choice → Handle → o.Res × Handle)
    (hex : ∀ c σ, exec t o c σ = σ.tryUpdate h (f c)) {R : World → Prop} (hR : Calm L t R)
    (hstep : ∀ σ c hd, Inv L σ → R σ → Avoids L o c σ → σ.handles h = some hd →
      HandleInv L σ hd → HandleInv L σ (f c hd).2 ∧ HandleGuar L t hd (f c hd).2) :
    Spec L t (call o) R fun _ => R := by
  refine Discipline.Triple.perform (fun _ => hR.stable) (fun σ _ _ => hn σ) ?_
  intro σ c r σ' hi hr hok he
  change exec t o c σ = some (r, σ') at he
  rw [hex] at he
  obtain ⟨hd, hh, rfl, rfl⟩ := tryUpdate_eq he
  obtain ⟨hinv, hg⟩ := hstep σ c hd hi hr hok hh (hi.handles h hd hh)
  have hq : Quiet L t σ (σ.setHandle h (f c hd).2) := .setHandle hi hh hinv hg
  exact ⟨hq.inv', hq.guar, hR.quiet σ _ hq hr⟩

theorem Spec.heldRead {o : Op} {h : ℕ} (hn : ∀ σ, o.needs t σ) (f : Choice → Handle → o.Res)
    (hex : ∀ c σ, exec t o c σ = σ.read h (f c)) {R : World → Prop} (hR : Keeping L t R)
    {X : World → Handle → Prop} {Y : o.Res → World → Handle → Prop} (hY : ∀ r, Frozen L (Y r))
    (hstep : ∀ σ c hd, Inv L σ → σ.handles h = some hd → HandleInv L σ hd → RefsLevel L →
      X σ hd → Y (f c hd) σ hd) :
    Spec L t (call o) (Under L t h R X) fun r => Under L t h R (Y r) := by
  refine Discipline.Triple.perform (fun r => hR.and (stable_held (hY r))) (fun σ _ _ => hn σ) ?_
  rintro σ c r σ' hi ⟨hr, hd, hh, hm, hX⟩ hok he
  change exec t o c σ = some (r, σ') at he
  rw [hex] at he
  obtain ⟨rfl, hd₀, hh₀, rfl⟩ := read_eq he
  rw [hh] at hh₀
  cases hh₀
  exact ⟨hi, .refl, hr, hd, hh, hm, fun hL => hstep σ' c hd hi hh (hi.handles h hd hh) hL (hX hL)⟩

theorem Spec.learn {o : Op} {h : ℕ} (ho : o.readOnly = true) {R : World → Prop}
    (hR : Calm L t R) {X : World → Handle → Prop} {F : o.Res → World → Prop}
    {Y : o.Res → World → Handle → Prop} (hF : ∀ r, Lasting L (F r)) (hY : ∀ r, Frozen L (Y r))
    (hlearn : ∀ σ c r hd, Inv L σ → R σ → exec t o c σ = some (r, σ) → σ.handles h = some hd →
      HandleInv L σ hd → (RefsLevel L → X σ hd) → F r σ ∧ (RefsLevel L → Y r σ hd)) :
    Spec L t (call o) (Under L t h R X) fun r => Under L t h (fun σ => R σ ∧ F r σ) (Y r) := by
  refine Discipline.Triple.perform
    (fun r => (hR.stable.and (hF r).calm.stable).and (stable_held (hY r)))
    (fun _ _ _ => needs_readOnly ho) ?_
  rintro σ c r σ' hi ⟨hr, hd, hh, hm, hX⟩ hok he
  obtain rfl := exec_readOnly ho he
  obtain ⟨hf, hy⟩ := hlearn σ' c r hd hi hr he hh (hi.handles h hd hh) hX
  exact ⟨hi, .refl, ⟨hr, hf⟩, hd, hh, hm, hy⟩

theorem Spec.given {α β : Type} {p : Task α} {P : β → World → Prop} {Q : α → World → Prop}
    (h : ∀ b, Spec L t p (P b) Q) : Spec L t p (fun σ => ∃ b, P b σ) Q :=
  Discipline.Triple.given h

theorem Spec.knowing {α : Type} {p : Task α} {a : Prop} {P : World → Prop} {Q : α → World → Prop}
    (h : a → Spec L t p P Q) : Spec L t p (fun σ => P σ ∧ a) Q :=
  (Spec.given fun b : PLift a => h b.down).pre fun _ _ hx => ⟨⟨hx.2⟩, hx.1⟩

end Walgit
