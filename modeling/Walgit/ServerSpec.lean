import Walgit.Lib.Extension
import Walgit.Calls

/-!
# Servers as a part of a larger system

What the servers' programs are, seen from outside: every manifest that a handle
is given, or that a commit starts from, is one that the system has handed out
before; a commit advances it; a checkpoint is put at the head of such a
manifest, and committed by the task that has put it. `ServerRules` says what a
larger system has to provide for one call, and the result is that it then
provides for every job.
-/

namespace Walgit

open Interleaving

/-- What a server's commit does to the manifest it starts from. -/
def Advances (base : Manifest) : ManifestOp → Prop
  | .create => False
  | .push _ seg | .compact _ _ seg | .settings _ seg => base.headSeq < seg.lastSeq
  | .checkpoint _ => ∀ cp, base.checkpoint = some cp → cp.seq < base.headSeq
  | .annotate .. => True

theorem Advances.head_le {base : Manifest} {op : ManifestOp} (h : Advances base op) :
    base.headSeq ≤ (op.apply base).headSeq := by
  cases op with
  | create => exact h.elim
  | push packs seg => exact h.le
  | compact pack supersedes seg => exact h.le
  | settings doc seg => exact h.le
  | checkpoint cp => exact Nat.le_refl _
  | annotate => exact Nat.le_refl _

section Effects

variable {t : ℕ} {o : Op} {c : Choice} {σ σ' : World}

def Op.gives : Op → Option Manifest
  | .setManifest _ m _ => some m
  | .install _ m _ _ _ => some m
  | _ => none

def HeldFrom (o : Op) (σ σ' : World) : Prop :=
  ∀ h hd', σ'.handles h = some hd' →
    (∃ hd, σ.handles h = some hd ∧ hd'.manifest = hd.manifest) ∨ o.gives = some hd'.manifest

theorem HeldFrom.of_eq (h : σ'.handles = σ.handles) : HeldFrom o σ σ' :=
  fun _ hd' hh => .inl ⟨hd', h ▸ hh, rfl⟩

theorem HeldFrom.setHandle {j : ℕ} {hd hd' : Handle} (hh : σ.handles j = some hd)
    (hm : hd'.manifest = hd.manifest ∨ o.gives = some hd'.manifest) :
    HeldFrom o σ (σ.setHandle j hd') := by
  intro i hi hi'
  by_cases h : i = j
  · subst h
    obtain rfl : hd' = hi := by simpa using hi'
    exact hm.imp_left fun he => ⟨hd, hh, he⟩
  · rw [setHandle_of_ne h] at hi'
    exact .inl ⟨hi, hi', rfl⟩

theorem Handle.setRefs_manifest {hd : Handle} {new half : RefState} :
    (hd.setRefs c new half).2.manifest = hd.manifest := by
  unfold Handle.setRefs
  split <;> rfl

theorem exec_held {r : o.Res} (hex : exec t o c σ = some (r, σ')) : HeldFrom o σ σ' := by
  cases o with
  | halt => cases hex
  | putManifest known base op slot =>
    have hres : σ.putManifest c t known base op slot = (r, σ') := Option.some.inj hex
    refine .of_eq ?_
    unfold World.putManifest at hres
    split at hres
    · cases hres
      rfl
    · split at hres <;> cases hres <;> rfl
  | putSegment seq entries =>
    have hres : σ.putSegment c t seq entries = (r, σ') := Option.some.inj hex
    refine .of_eq ?_
    unfold World.putSegment at hres
    split at hres
    · cases hres
      rfl
    · split at hres <;> cases hres <;> rfl
  | deleteSegment seq version =>
    have hres : σ.deleteSegment c seq version = σ' := congrArg Prod.snd (Option.some.inj hex)
    refine .of_eq ?_
    unfold World.deleteSegment at hres
    split at hres <;> subst hres <;> rfl
  | casLanded slot =>
    have hres : σ.casLanded c t slot = (r, σ') := Option.some.inj hex
    refine .of_eq ?_
    unfold World.casLanded at hres
    split at hres <;> cases hres <;> rfl
  | putCheckpointRefs seq snap | putCheckpoint seq cp =>
    have hres := Option.some.inj hex
    refine .of_eq ?_
    unfold Choice.put at hres
    split at hres <;> cases hres <;> rfl
  | install h m version state refs =>
    change (if _ then _ else _) = _ at hex
    split at hex <;> cases hex
    intro i hi hi'
    by_cases h : i = h
    · subst h
      obtain rfl := Option.some.inj (setHandle_self.symm.trans hi')
      exact .inr rfl
    · rw [setHandle_of_ne h] at hi'
      exact .inl ⟨hi, hi', rfl⟩
  | respond answers =>
    cases hex
    exact .of_eq rfl
  | enter | beginBatch | lock | lockForCommit =>
    obtain ⟨hd, hh, -, rfl⟩ := updateIf_eq hex
    exact .setHandle hh (.inl rfl)
  | loadRefSnapshot | applyRefTxnsOffline | applyRefTxn =>
    obtain ⟨hd, hh, -, rfl⟩ := tryUpdate_eq hex
    refine .setHandle hh (.inl ?_)
    first
    | exact Handle.setRefs_manifest
    | unfold Handle.applyRefTxnsOffline
      split
      · exact Handle.setRefs_manifest
      · rfl
    | unfold Handle.applyRefTxn
      split
      · exact Handle.setRefs_manifest
      · rfl
  | setManifest h m locked =>
    obtain ⟨hd, hh, rfl⟩ := update_eq hex
    exact .setHandle hh (.inr rfl)
  | publishHandle | endBatch | unlock | noteEntryTime | setVersion | takeVersion | setState
  | setApplied | setVerified =>
    obtain ⟨hd, hh, rfl⟩ := update_eq hex
    exact .setHandle hh (.inl rfl)
  | _ =>
    rw [exec_readOnly rfl hex]
    exact .of_eq rfl

def Op.putsCheckpoint : Op → Bool
  | .putCheckpointRefs .. | .putCheckpoint .. => true
  | _ => false

/-- What a call can do to the objects that a manifest names, log segments apart. -/
inductive ObjectStep (t : ℕ) (o : Op) (c : Choice) (σ σ' : World) : Prop
  | same (hc : σ'.commits = σ.commits) (hn : σ.next ≤ σ'.next) (hr : σ'.cpRefs = σ.cpRefs)
      (hp : σ'.cps = σ.cps) (ho : o.putsCheckpoint = true → c.outcome = .err)
  | commit (base : Manifest) (op : ManifestOp) (slot : Option Slot)
      (ho : o = .putManifest (some σ.current.version) base op slot)
      (hσ : σ' = σ.commit t base op slot)
  | refs (seq : ℕ) (snap : RefState) (ho : o = .putCheckpointRefs seq snap)
      (hc : c.outcome ≠ .err)
      (hσ : σ' = { σ with cpRefs := fun j => if j = seq then some snap else σ.cpRefs j })
  | checkpoint (seq : ℕ) (cp : Checkpoint) (ho : o = .putCheckpoint seq cp)
      (hc : c.outcome ≠ .err)
      (hσ : σ' = { σ with cps := fun j => if j = seq then some cp else σ.cps j })

theorem exec_objects {r : o.Res} (hex : exec t o c σ = some (r, σ')) :
    ObjectStep t o c σ σ' := by
  cases o with
  | putCheckpointRefs seq snap =>
    have hres := Option.some.inj hex
    unfold Choice.put at hres
    split at hres
    · rename_i h
      cases hres
      exact .refs seq snap rfl (by simp [h]) rfl
    · rename_i h
      cases hres
      exact .same rfl (Nat.le_refl _) rfl rfl fun _ => h
    · rename_i h
      cases hres
      exact .refs seq snap rfl (by simp [h]) rfl
  | putCheckpoint seq cp =>
    have hres := Option.some.inj hex
    unfold Choice.put at hres
    split at hres
    · rename_i h
      cases hres
      exact .checkpoint seq cp rfl (by simp [h]) rfl
    · rename_i h
      cases hres
      exact .same rfl (Nat.le_refl _) rfl rfl fun _ => h
    · rename_i h
      cases hres
      exact .checkpoint seq cp rfl (by simp [h]) rfl
  | putManifest known base op slot =>
    have hres : σ.putManifest c t known base op slot = (r, σ') := Option.some.inj hex
    unfold World.putManifest at hres
    split at hres
    · cases hres
      exact .same rfl (Nat.le_refl _) rfl rfl nofun
    · split at hres
      · rename_i hk
        cases hres
        exact .commit base op slot (by rw [hk]) rfl
      · cases hres
        exact .same rfl (Nat.le_refl _) rfl rfl nofun
  | putSegment seq entries =>
    have hres : σ.putSegment c t seq entries = (r, σ') := Option.some.inj hex
    unfold World.putSegment at hres
    split at hres
    · cases hres
      exact .same rfl (Nat.le_refl _) rfl rfl nofun
    · split at hres <;> cases hres
      · exact .same rfl (Nat.le_succ _) rfl rfl nofun
      · exact .same rfl (Nat.le_refl _) rfl rfl nofun
  | deleteSegment seq version =>
    have hres : σ.deleteSegment c seq version = σ' := congrArg Prod.snd (Option.some.inj hex)
    unfold World.deleteSegment at hres
    split at hres <;> subst hres <;> exact .same rfl (Nat.le_refl _) rfl rfl nofun
  | halt => cases hex
  | casLanded slot =>
    have hres : σ.casLanded c t slot = (r, σ') := Option.some.inj hex
    unfold World.casLanded at hres
    split at hres <;> cases hres <;> exact .same rfl (Nat.le_refl _) rfl rfl nofun
  | install h m version state refs =>
    change (if _ then _ else _) = _ at hex
    split at hex <;> cases hex
    exact .same rfl (Nat.le_refl _) rfl rfl nofun
  | respond answers =>
    cases hex
    exact .same rfl (Nat.le_refl _) rfl rfl nofun
  | enter | beginBatch | lock | lockForCommit =>
    obtain ⟨hd, -, -, rfl⟩ := updateIf_eq hex
    exact .same rfl (Nat.le_refl _) rfl rfl nofun
  | loadRefSnapshot | applyRefTxn | applyRefTxnsOffline =>
    obtain ⟨hd, -, -, rfl⟩ := tryUpdate_eq hex
    exact .same rfl (Nat.le_refl _) rfl rfl nofun
  | publishHandle | endBatch | unlock | noteEntryTime | setManifest | setVersion | takeVersion
  | setState | setApplied | setVerified =>
    obtain ⟨hd, -, rfl⟩ := update_eq hex
    exact .same rfl (Nat.le_refl _) rfl rfl nofun
  | _ =>
    rw [exec_readOnly rfl hex]
    exact .same rfl (Nat.le_refl _) rfl rfl nofun

end Effects

section Rules

variable {Op' : Type} {Res' : Op' → Type} {W C α β : Type}

def ServerNeeds (has : Manifest → W → Prop) (refsFiled filed : ℕ → W → Prop) (o : Op) (σ : W) :
    Prop :=
  match o with
  | .setManifest _ m _ => has m σ
  | .install _ m _ _ _ => has m σ
  | .putCheckpointRefs seq _ | .putCheckpoint seq _ =>
    ∃ m, has m σ ∧ m.headSeq = seq ∧ m.checkpoint ≠ some ⟨seq⟩
  | .putManifest _ base op _ => has base σ ∧ Advances base op ∧
    ∀ cp, op = .checkpoint cp → refsFiled cp.seq σ ∧ filed cp.seq σ
  | _ => True

def ServerAnswer (has : Manifest → W → Prop) (refsFiled filed : ℕ → W → Prop) (o : Op)
    (r : o.Res) (σ : W) : Prop :=
  match o, r with
  | .manifest _, m => has m σ
  | .getManifest, .ok (m, _) => has m σ
  | .getManifestIf _, .ok (some (m, _)) => has m σ
  | .casLanded _, .ok (some m) => has m σ
  | .putManifest _ base op _, .ok _ => has (op.apply base) σ
  | .putCheckpointRefs seq _, .ok _ => refsFiled seq σ
  | .putCheckpoint seq _, .ok _ => filed seq σ
  | _, _ => True

/-- What a system provides for the calls of a server's task: `has` are the manifests handed out,
`refsFiled` and `filed` the checkpoint objects that the task has put, and `steady` the assertions
that neither the other tasks nor a server's own calls break. -/
structure ServerRules (D : Discipline (Op ⊕ Op') (Both Op.Res Res') W C) (t : ℕ) where
  steady : (W → Prop) → Prop
  has : Manifest → W → Prop
  refsFiled : ℕ → W → Prop
  filed : ℕ → W → Prop
  stable : ∀ {P}, steady P → D.Stable t P
  and : ∀ {P Q}, steady P → steady Q → steady fun σ => P σ ∧ Q σ
  const : ∀ p : Prop, steady fun _ => p
  steady_has : ∀ m, steady (has m)
  steady_refsFiled : ∀ seq, steady (refsFiled seq)
  steady_filed : ∀ seq, steady (filed seq)
  needs : ∀ o σ, D.inv σ → ServerNeeds has refsFiled filed o σ → D.needs t (.inl o) σ
  rule : ∀ o {P}, steady P → ∀ σ c r σ', D.inv σ → P σ →
    ServerNeeds has refsFiled filed o σ → D.ok t (.inl o) c σ →
    D.exec t (.inl o) c σ = some (r, σ') →
    D.inv σ' ∧ D.guar t σ σ' ∧ P σ' ∧ ServerAnswer has refsFiled filed o r σ'

def Op.free : Op → Bool
  | .setManifest .. | .install .. | .putCheckpointRefs .. | .putCheckpoint .. => false
  | .putManifest .. => false
  | _ => true

theorem serverNeeds_free {has : Manifest → W → Prop} {refsFiled filed : ℕ → W → Prop} {o : Op}
    {σ : W} (h : o.free) : ServerNeeds has refsFiled filed o σ := by
  cases o <;> first | exact trivial | cases h

abbrev Task.Free (p : Task α) : Prop := p.Within fun o => o.free

@[simp]
theorem free_call {o : Op} : (call o).Free ↔ o.free := Prog.within_perform

theorem Task.Free.andThen {ε : Type} {p : Task (Except ε α)} {f : α → Task (Except ε β)}
    (hp : p.Free) (hf : ∀ a, (f a).Free) : (Task.andThen p f).Free := by
  refine hp.bind fun r => ?_
  cases r with
  | ok a => exact hf a
  | error e => exact Prog.within_pure

variable {D : Discipline (Op ⊕ Op') (Both Op.Res Res') W C} {t : ℕ}

/-- The program, run as a part of the larger system. -/
def ServerRules.Spec (_R : ServerRules D t) (p : Task α) (P : W → Prop) (Q : α → W → Prop) : Prop :=
  D.Triple t (p.lift Res') P Q

namespace ServerRules

variable {R : ServerRules D t} {P P' : W → Prop} {Q : α → W → Prop}

theorem steady_answer {o : Op} {r : o.Res} :
    R.steady (ServerAnswer R.has R.refsFiled R.filed o r) := by
  cases o with
  | manifest h => exact R.steady_has _
  | getManifest =>
    cases r with
    | ok v => exact R.steady_has _
    | error e => exact R.const True
  | getManifestIf known =>
    cases r with
    | ok v =>
      cases v with
      | some v => exact R.steady_has _
      | none => exact R.const True
    | error e => exact R.const True
  | casLanded slot =>
    cases r with
    | ok v =>
      cases v with
      | some m => exact R.steady_has _
      | none => exact R.const True
    | error e => exact R.const True
  | putManifest known base op slot =>
    cases r with
    | ok v => exact R.steady_has _
    | error e => exact R.const True
  | putCheckpointRefs seq snap =>
    cases r with
    | ok v => exact R.steady_refsFiled _
    | error e => exact R.const True
  | putCheckpoint seq cp =>
    cases r with
    | ok v => exact R.steady_filed _
    | error e => exact R.const True
  | _ => exact R.const True

namespace Spec

theorem ret {a : α} (h : ∀ σ, P σ → Q a σ) : R.Spec (pure a) P Q :=
  Discipline.Triple.ret fun σ _ hp => h σ hp

theorem bind {p : Task α} {f : α → Task β} {Q' : β → W → Prop} (hp : R.Spec p P Q)
    (hf : ∀ a, R.Spec (f a) (Q a) Q') : R.Spec (p >>= f) P Q' := by
  unfold Spec
  rw [Prog.lift_bind]
  exact Discipline.Triple.bind hp hf

theorem pre {p : Task α} (h : R.Spec p P Q) (hP : ∀ σ, P' σ → P σ) : R.Spec p P' Q :=
  Discipline.Triple.pre h fun σ _ hp => hP σ hp

theorem post {p : Task α} {Q' : α → W → Prop} (h : R.Spec p P Q) (hQ : ∀ a σ, Q a σ → Q' a σ) :
    R.Spec p P Q' :=
  Discipline.Triple.post h fun a σ _ hq => hQ a σ hq

theorem andThen {ε : Type} {p : Task (Except ε α)} {f : α → Task (Except ε β)}
    {Q : Except ε α → W → Prop} {Q' : Except ε β → W → Prop} (hp : R.Spec p P Q)
    (herr : ∀ e σ, Q (.error e) σ → Q' (.error e) σ) (hf : ∀ a, R.Spec (f a) (Q (.ok a)) Q') :
    R.Spec (Task.andThen p f) P Q' := by
  refine bind hp fun r => ?_
  cases r with
  | ok a => exact hf a
  | error e => exact ret fun σ hq => herr e σ hq

theorem absurd {p : Task α} (h : ∀ σ, ¬ P σ) : R.Spec p P Q := by
  cases p with
  | ret a => exact fun σ _ hp => (h σ hp).elim
  | call o k =>
    exact ⟨fun σ _ hp => (h σ hp).elim, fun σ _ _ _ _ hp => (h σ hp).elim⟩

theorem call {o : Op} (hP : R.steady P)
    (hn : ∀ σ, P σ → ServerNeeds R.has R.refsFiled R.filed o σ) :
    R.Spec (Walgit.call o) P fun r σ => P σ ∧ ServerAnswer R.has R.refsFiled R.filed o r σ := by
  refine Discipline.Triple.perform (o := Sum.inl o) (D := D)
    (fun r => R.stable (R.and hP R.steady_answer))
    (fun σ hi hp => R.needs o σ hi (hn σ hp)) fun σ c r σ' hi hp hok hex => ?_
  exact R.rule o hP σ c r σ' hi hp (hn σ hp) hok hex

theorem step {o : Op} (hP : R.steady P)
    (hn : ∀ σ, P σ → ServerNeeds R.has R.refsFiled R.filed o σ) :
    R.Spec (Walgit.call o) P fun _ => P :=
  (call hP hn).post fun _ _ h => h.1

theorem free {p : Task α} (hp : p.Free) (hP : R.steady P) : R.Spec p P fun _ => P := by
  induction p with
  | ret a => exact ret fun _ h => h
  | call o k ih =>
    exact bind (p := Walgit.call o) (step hP fun _ _ => serverNeeds_free hp.1)
      fun r => ih r (hp.2 r)

end Spec

end ServerRules

end Rules

section Free

variable {h seq : ℕ} {m : Manifest}

theorem free_fetchSegments {keys : List ℕ} : (fetchSegments keys).Free := by
  induction keys with
  | nil => exact Prog.within_pure
  | cons key keys ih =>
    exact (free_call.mpr rfl).andThen fun es => ih.andThen fun rest => Prog.within_pure

theorem free_noteLastEntry {es : List LogEntry} : (noteLastEntry h es).Free := by
  unfold noteLastEntry
  split
  · exact free_call.mpr rfl
  · exact Prog.within_pure

theorem free_applyEntries {es : List LogEntry} : (applyEntries h es).Free := by
  unfold applyEntries
  dsimp only
  split
  · exact Prog.within_pure
  · exact free_call.mpr rfl

theorem free_replayLog {fromSeq toSeq : ℕ} : (replayLog h m fromSeq toSeq).Free := by
  refine Task.Free.andThen Prog.within_pure fun _ => ?_
  refine free_fetchSegments.andThen fun fetched => ?_
  dsimp only
  split
  · exact Prog.within_pure
  · exact free_noteLastEntry.bind fun _ => free_applyEntries

theorem free_loadSnapshotAt {snap : RefState} : (loadSnapshotAt h seq snap).Free :=
  (free_call.mpr rfl).andThen fun _ => (free_call.mpr rfl).bind fun _ => Prog.within_pure

theorem free_loadStart {need rebuilt : Bool} : (loadStart h m need rebuilt).Free := by
  unfold loadStart
  split
  · refine (free_call.mpr rfl).andThen fun r => ?_
    cases r with
    | some snap => exact free_loadSnapshotAt
    | none => exact Prog.within_pure
  · split
    · exact free_loadSnapshotAt
    · exact Prog.within_pure

theorem free_applyTail {applied : ℕ} {rebuilt : Bool} : (applyTail h m applied rebuilt).Free := by
  unfold applyTail
  dsimp only
  split
  · exact Prog.within_pure
  · refine Task.Free.andThen Prog.within_pure fun _ => (free_call.mpr rfl).andThen fun _ =>
      free_loadStart.andThen fun _ => (free_call.mpr rfl).bind fun state => ?_
    split
    · exact free_replayLog
    · exact Prog.within_pure

theorem free_applyDeltaWithRebuild {version : ℕ} {force : Bool} :
    (applyDeltaWithRebuild h m version force).Free := by
  refine (free_call.mpr rfl).bind fun current => (free_call.mpr rfl).bind fun _ => ?_
  refine Task.Free.andThen ?_ fun _ => (free_call.mpr rfl).bind fun _ =>
    (free_call.mpr rfl).andThen fun _ => free_call.mpr rfl
  split
  · exact (free_call.mpr rfl).andThen fun _ => free_loadSnapshotAt
  · exact free_applyTail

theorem free_applyAndVerify {version : ℕ} : (applyAndVerify h m version).Free :=
  free_applyDeltaWithRebuild.andThen fun _ => (free_call.mpr rfl).bind fun _ => Prog.within_pure

theorem free_freshEnough : (freshEnough h).Free := by
  refine (free_call.mpr rfl).bind fun verified => ?_
  cases verified with
  | true => exact free_call.mpr rfl
  | false => exact Prog.within_pure

theorem free_probeOrphan {left : ℕ} : (probeOrphan seq left).Free := by
  induction left with
  | zero =>
    unfold probeOrphan
    refine (free_call.mpr rfl).andThen fun fresh => ?_
    split
    · exact Prog.within_pure
    · refine (free_call.mpr rfl).andThen fun r => ?_
      cases r with
      | none => exact Prog.within_pure
      | some version => exact Prog.within_pure
  | succ left ih =>
    unfold probeOrphan
    refine (free_call.mpr rfl).andThen fun fresh => ?_
    split
    · exact Prog.within_pure
    · refine (free_call.mpr rfl).andThen fun r => ?_
      cases r with
      | none => exact Prog.within_pure
      | some version => exact ih

theorem free_sweepBurned {burned : List (ℕ × ℕ)} : (sweepBurned burned).Free := by
  induction burned with
  | nil => exact Prog.within_pure
  | cons b bs ih => exact (free_call.mpr rfl).bind fun _ => ih

theorem free_applyTxns {txns : List RefTransaction} {done : ℕ} : (applyTxns h txns done).Free := by
  induction txns generalizing done with
  | nil => exact Prog.within_pure
  | cons txn txns ih =>
    refine (free_call.mpr rfl).bind fun r => ?_
    cases r with
    | ok => exact ih
    | error e => exact Prog.within_pure

theorem free_refreshIf {ok : Bool} : (refreshIf h ok).Free := by
  cases ok with
  | true => exact (free_call.mpr rfl).bind fun _ => Prog.within_pure
  | false => exact Prog.within_pure

theorem free_noteEntryTimes {es : List LogEntry} : (noteEntryTimes h es).Free := by
  induction es with
  | nil => exact Prog.within_pure
  | cons e es ih => exact (free_call.mpr rfl).bind fun _ => ih

theorem free_refsProven : (refsProven h m).Free := by
  refine (free_call.mpr rfl).bind fun state => ?_
  split
  · exact free_call.mpr rfl
  · exact Prog.within_pure

end Free

section Jobs

variable {Op' : Type} {Res' : Op' → Type} {W C : Type}
  {D : Discipline (Op ⊕ Op') (Both Op.Res Res') W C} {t : ℕ} {R : ServerRules D t} {P : W → Prop}
  {cfg : Config} {h : ℕ} {m : Manifest}

namespace ServerRules

theorem spec_adoptManifest {version : ℕ} {locked : Bool} (hP : R.steady P) {α : Type} {p : Task α}
    {Q : α → W → Prop} (hp : R.Spec p P Q) :
    R.Spec (do call (.setManifest h m locked); call (.setVersion h m version); p)
      (fun σ => P σ ∧ R.has m σ) Q := by
  have hset : R.Spec (call (.setManifest h m locked)) (fun σ => P σ ∧ R.has m σ) fun _ => P :=
    Spec.post (Spec.step (R.and hP (R.steady_has m)) fun _ hx => hx.2) fun _ _ hx => hx.1
  refine Spec.bind hset fun _ => ?_
  exact Spec.bind (Spec.free (free_call.mpr rfl) hP) fun _ => hp

section Sync

theorem spec_syncUnchanged {known : Option ℕ} {force : Bool} (hP : R.steady P) :
    R.Spec (syncUnchanged h known force) P fun _ => P := by
  unfold syncUnchanged
  split
  · refine Spec.bind (Spec.free (free_call.mpr rfl) hP) fun m => ?_
    cases known with
    | some version => exact Spec.free free_applyAndVerify hP
    | none => exact Spec.ret fun _ hx => hx
  · exact Spec.ret fun _ hx => hx

theorem spec_syncChanged {version : ℕ} {force : Bool} (hP : R.steady P) :
    R.Spec (syncChanged h m version force) (fun σ => P σ ∧ R.has m σ) fun _ => P := by
  have hPm := R.and hP (R.steady_has m)
  refine Spec.bind (Spec.free (free_call.mpr rfl) hPm) fun cur => ?_
  refine Spec.bind (Spec.free (free_call.mpr rfl) hPm) fun held => ?_
  split
  · refine Spec.pre (P := P) ?_ fun _ hx => hx.1
    split
    · refine Spec.bind (Spec.free (free_call.mpr rfl) hP) fun version => ?_
      cases version with
      | some version => exact Spec.free free_applyAndVerify hP
      | none => exact Spec.ret fun _ hx => hx
    · exact Spec.ret fun _ hx => hx
  · split
    · refine Spec.andThen (Q := fun _ σ => P σ ∧ R.has m σ) ?_ (fun _ _ hx => hx.1) fun _ =>
        spec_adoptManifest hP (Spec.ret fun _ hx => hx)
      split
      · exact Spec.free free_applyAndVerify hPm
      · exact Spec.ret fun _ hx => hx
    · refine Spec.andThen (Spec.free free_applyDeltaWithRebuild hPm) (fun _ _ hx => hx.1) fun _ =>
        spec_adoptManifest hP ?_
      exact Spec.bind (Spec.free (free_call.mpr rfl) hP) fun _ => Spec.ret fun _ hx => hx

theorem spec_syncLockedInner {force : Bool} (hP : R.steady P) :
    R.Spec (syncLockedInner h force) P fun _ => P := by
  refine Spec.bind (Spec.free (free_call.mpr rfl) hP) fun known => ?_
  refine Spec.andThen (Spec.call hP fun _ _ => trivial) (fun _ _ hx => hx.1) fun outcome => ?_
  cases outcome with
  | none =>
    refine Spec.pre (P := P) ?_ fun _ hx => hx.1
    exact Spec.bind (Spec.free (free_call.mpr rfl) hP) fun verified => spec_syncUnchanged hP
  | some o =>
    have hPm := R.and hP (R.steady_has o.1)
    exact Spec.bind (Spec.free (free_call.mpr rfl) hPm) fun verified => spec_syncChanged hP

theorem spec_syncRefsPhase (hP : R.steady P) : R.Spec (syncRefsPhase h) P fun _ => P := by
  refine Spec.bind (Spec.free free_freshEnough hP) fun fresh => ?_
  split
  · exact Spec.ret fun _ hx => hx
  · refine Spec.bind (Spec.free (free_call.mpr rfl) hP) fun _ => ?_
    refine Spec.bind (Spec.free free_freshEnough hP) fun fresh' => ?_
    split
    · exact Spec.bind (Spec.free (free_call.mpr rfl) hP) fun _ => Spec.ret fun _ hx => hx
    · refine Spec.bind (Spec.free (free_call.mpr rfl) hP) fun verified => ?_
      refine Spec.bind (spec_syncLockedInner hP) fun r => ?_
      exact Spec.bind (Spec.free (free_call.mpr rfl) hP) fun _ => Spec.ret fun _ hx => hx

theorem spec_syncServe (hP : R.steady P) : R.Spec (syncServe h) P fun _ => P :=
  Spec.andThen (spec_syncRefsPhase hP) (fun _ _ hx => hx) fun _ =>
    Spec.free (free_call.mpr rfl) hP

theorem spec_rebuildRefs (hP : R.steady P) : R.Spec (rebuildRefs h) P fun _ => P := by
  refine Spec.bind (Spec.free (free_call.mpr rfl) hP) fun _ => ?_
  refine Spec.bind (spec_syncLockedInner hP) fun r => ?_
  exact Spec.bind (Spec.free (free_call.mpr rfl) hP) fun _ => Spec.ret fun _ hx => hx

theorem spec_openRepo {old : Option ℕ} (hP : R.steady P) :
    R.Spec (openRepo h old) P fun _ => P := by
  refine Spec.bind (Spec.free (free_call.mpr rfl) hP) fun left => ?_
  refine Spec.andThen (Spec.call hP fun _ _ => trivial) (fun _ _ hx => hx.1) fun o => ?_
  have hPm := R.and hP (R.steady_has o.1)
  refine Spec.bind (Spec.step hPm fun _ hx => hx.2) fun _ => ?_
  refine Spec.pre (P := P) ?_ fun _ hx => hx.1
  refine Spec.andThen (Q := fun _ => P) ?_ (fun _ _ hx => hx) fun _ =>
    Spec.bind (Spec.free (free_call.mpr rfl) hP) fun _ => Spec.ret fun _ hx => hx
  split
  · exact Spec.free free_applyAndVerify hP
  · exact Spec.ret fun _ hx => hx

end Sync

section Publish

theorem spec_claimLogSlot {encode : ℕ → ℕ → List LogEntry} {rounds seq : ℕ}
    {burned : List (ℕ × ℕ)} (hP : R.steady P) :
    R.Spec (claimLogSlot encode rounds seq burned) P fun r σ => P σ ∧
      ∀ s, r = .ok (.claimed s) → seq ≤ s.slot.seq := by
  induction rounds generalizing seq burned with
  | zero => exact Spec.bind (Spec.free (free_call.mpr rfl) hP) fun r => r.elim
  | succ rounds ih =>
    unfold claimLogSlot
    refine Spec.bind (Spec.free (free_call.mpr rfl) hP) fun now => ?_
    refine Spec.bind (Spec.free (free_call.mpr rfl) hP) fun r => ?_
    split
    · refine Spec.ret fun _ hx => ⟨hx, fun s hs => ?_⟩
      cases hs
      exact Nat.le_refl _
    · exact Spec.ret fun _ hx => ⟨hx, nofun⟩
    · refine Spec.andThen (Spec.free free_probeOrphan hP) (fun _ _ hx => ⟨hx, nofun⟩)
        fun probe => ?_
      split
      · exact Spec.ret fun _ hx => ⟨hx, nofun⟩
      · exact ih
      · split
        · exact Spec.ret fun _ hx => ⟨hx, nofun⟩
        · exact Spec.post ih fun _ _ hx => ⟨hx.1, fun s hs => by have := hx.2 s hs; omega⟩

theorem spec_localCommit {version last : ℕ} {txns : List RefTransaction} (hP : R.steady P) :
    R.Spec (localCommit h m version last txns) (fun σ => P σ ∧ R.has m σ) fun _ => P := by
  have hPm := R.and hP (R.steady_has m)
  refine Spec.bind (Spec.free (free_call.mpr rfl) hPm) fun _ => ?_
  refine Spec.bind (Spec.free free_applyTxns hPm) fun applied => ?_
  refine Spec.bind (Spec.free free_refreshIf hPm) fun localOk => ?_
  split
  · refine spec_adoptManifest hP ?_
    refine Spec.bind (Spec.free (free_call.mpr rfl) hP) fun _ => ?_
    exact Spec.bind (Spec.free (free_call.mpr rfl) hP) fun _ => Spec.free (free_call.mpr rfl) hP
  · refine Spec.pre (P := P) ?_ fun _ hx => hx.1
    exact Spec.bind (Spec.free (free_call.mpr rfl) hP) fun _ => Spec.free (free_call.mpr rfl) hP

theorem spec_published {batch : List PublishRequest} {verified : List Verified} {s : LogSlot}
    {entries : List LogEntry} {last version : ℕ} (hP : R.steady P) :
    R.Spec (published h batch verified s entries last m version) (fun σ => P σ ∧ R.has m σ)
      fun _ => P := by
  refine Spec.bind (spec_localCommit hP) fun _ => ?_
  refine Spec.bind (Spec.free free_sweepBurned hP) fun _ => ?_
  exact Spec.bind (Spec.free free_noteEntryTimes hP) fun _ => Spec.free (free_call.mpr rfl) hP

theorem spec_putManifest {known : Option ℕ} {op : ManifestOp} {slot : Option Slot}
    (hP : R.steady P) (hm : ∀ σ, P σ → R.has m σ) (hop : Advances m op)
    (hcp : ∀ cp, op = .checkpoint cp → ∀ σ, P σ → R.refsFiled cp.seq σ ∧ R.filed cp.seq σ) :
    R.Spec (call (.putManifest known m op slot)) P fun r σ => P σ ∧
      ∀ v, r = .ok v → R.has (op.apply m) σ := by
  refine Spec.post (Spec.call hP fun σ hx => ⟨hm σ hx, hop, fun cp h => hcp cp h σ hx⟩) ?_
  rintro r σ ⟨hx, hr⟩
  refine ⟨hx, fun v hv => ?_⟩
  subst hv
  exact hr

theorem spec_casLanded {slot : Slot} (hP : R.steady P) :
    R.Spec (call (.casLanded slot)) P fun r σ => P σ ∧ ∀ fresh, r = .ok (some fresh) →
      R.has fresh σ := by
  refine Spec.post (Spec.call hP fun _ _ => trivial) ?_
  rintro r σ ⟨hx, hr⟩
  refine ⟨hx, fun v hv => ?_⟩
  subst hv
  exact hr

theorem spec_finishWithError {batch : List PublishRequest} {cause : FailCause} (hP : R.steady P) :
    R.Spec (finishWithError batch cause) P fun _ => P :=
  Spec.free (free_call.mpr rfl) hP

theorem spec_publishClaimed {batch : List PublishRequest} {verified : List Verified}
    {known : Option ℕ} {s : LogSlot} {again : Task Unit} (hP : R.steady P)
    (hagain : R.Spec again P fun _ => P) (hs : m.headSeq < s.slot.seq)
    (hreq : validRequests batch verified ≠ []) :
    R.Spec (publishClaimed h batch verified m known s again) (fun σ => P σ ∧ R.has m σ)
      fun _ => P := by
  have hPm := R.and hP (R.steady_has m)
  refine Spec.bind (Spec.free (free_call.mpr rfl) hPm) fun now => ?_
  have hlen := List.length_pos_iff.mpr hreq
  refine Spec.bind (spec_putManifest hPm (fun _ hx => hx.2) ?_ nofun) fun r => ?_
  · change m.headSeq < s.slot.seq + (validRequests batch verified).length - 1
    omega
  · split
    · exact Spec.pre (spec_published hP) fun σ hx => ⟨hx.1.1, hx.2 _ rfl⟩
    · refine Spec.pre (P := P) ?_ fun _ hx => hx.1.1
      exact Spec.bind (Spec.free (free_call.mpr rfl) hP) fun _ => hagain
    · refine Spec.pre (P := P) ?_ fun _ hx => hx.1.1
      refine Spec.bind (spec_casLanded hP) fun r => ?_
      split
      · exact Spec.pre (spec_finishWithError hP) fun _ hx => hx.1
      · exact Spec.pre (spec_finishWithError hP) fun _ hx => hx.1
      · rename_i fresh
        refine Spec.pre (P := fun σ => P σ ∧ R.has fresh σ) ?_ fun _ hx => ⟨hx.1, hx.2 fresh rfl⟩
        refine Spec.bind (Spec.free (free_call.mpr rfl) (R.and hP (R.steady_has fresh)))
          fun r => ?_
        split
        · exact Spec.pre (spec_finishWithError hP) fun _ hx => hx.1
        · exact Spec.pre (spec_finishWithError hP) fun _ hx => hx.1
        · exact spec_published hP

theorem spec_publishVerified {batch : List PublishRequest} {verified : List Verified}
    {known : Option ℕ} {again : Task Unit} (hP : R.steady P)
    (hagain : R.Spec again P fun _ => P) :
    R.Spec (publishVerified cfg h batch verified m known again) (fun σ => P σ ∧ R.has m σ)
      fun _ => P := by
  have hPm := R.and hP (R.steady_has m)
  unfold publishVerified
  dsimp only
  split
  · exact Spec.pre (Spec.free (free_call.mpr rfl) hP) fun _ hx => hx.1
  · rename_i hreq
    refine Spec.bind (Q := fun _ σ => P σ ∧ R.has m σ) ?_ fun upload => ?_
    · unfold uploadPacks
      split
      · exact Spec.free (free_call.mpr rfl) hPm
      · exact Spec.ret fun _ hx => hx
    · refine Spec.bind (spec_claimLogSlot hPm) fun claim => ?_
      split
      · exact Spec.pre (spec_finishWithError hP) fun _ hx => hx.1.1
      · exact Spec.pre (spec_finishWithError hP) fun _ hx => hx.1.1
      · exact Spec.pre hagain fun _ hx => hx.1.1
      · rename_i s
        -- the claim's answer is what the slot's seq rests on
        by_cases hs : m.headSeq < s.slot.seq
        · refine Spec.pre (spec_publishClaimed hP hagain hs ?_) fun _ hx => hx.1
          simpa using hreq
        · refine Spec.absurd fun σ hx => hs ?_
          exact hx.2 s rfl

theorem spec_publishAttempt {batch : List PublishRequest} {attempts : ℕ} {again : Task Unit}
    (hP : R.steady P) (hagain : R.Spec again P fun _ => P) :
    R.Spec (publishAttempt cfg h batch attempts again) P fun _ => P := by
  refine Spec.bind (Q := fun _ => P) ?_ fun r => ?_
  · unfold syncFirst
    split
    · exact spec_syncRefsPhase hP
    · exact Spec.ret fun _ hx => hx
  · split
    · exact spec_finishWithError hP
    · refine Spec.bind (Spec.call hP fun _ _ => trivial) fun m => ?_
      have hPm := R.and hP (R.steady_has m)
      refine Spec.bind (Spec.free (free_call.mpr rfl) hPm) fun known => ?_
      refine Spec.bind (Spec.free (free_call.mpr rfl) hPm) fun r => ?_
      split
      · exact Spec.pre (spec_finishWithError hP) fun _ hx => hx.1
      · refine Spec.bind (Spec.free (free_call.mpr rfl) hPm) fun floor => ?_
        exact spec_publishVerified hP hagain

theorem spec_processBatch {batch : List PublishRequest} (hP : R.steady P) :
    R.Spec (processBatch cfg h batch) P fun _ => P := by
  have hfrom : ∀ left attempts, R.Spec (processBatchFrom cfg h batch left attempts) P
      fun _ => P := by
    intro left
    induction left with
    | zero => exact fun _ => spec_publishAttempt hP (spec_finishWithError hP)
    | succ left ih => exact fun attempts => spec_publishAttempt hP (ih (attempts + 1))
  refine Spec.bind (Spec.free (free_call.mpr rfl) hP) fun _ => ?_
  exact Spec.bind (hfrom _ _) fun _ => Spec.free (free_call.mpr rfl) hP

end Publish

section Writers

theorem spec_adopt {version : ℕ} {applied : Option ℕ} (hP : R.steady P) :
    R.Spec (adopt h m version applied) (fun σ => P σ ∧ R.has m σ) fun _ => P := by
  refine spec_adoptManifest hP ?_
  exact Spec.bind (Spec.free (free_call.mpr rfl) hP) fun _ => Spec.free (free_call.mpr rfl) hP

theorem spec_adoptSlot {s : LogSlot} {time version result : ℕ} (hP : R.steady P) :
    R.Spec (adoptSlot h s time m version result) (fun σ => P σ ∧ R.has m σ) fun _ => P := by
  refine spec_adoptManifest hP ?_
  refine Spec.bind (Spec.free (free_call.mpr rfl) hP) fun _ => ?_
  refine Spec.bind (Spec.free (free_call.mpr rfl) hP) fun _ => ?_
  refine Spec.andThen (Spec.free (free_call.mpr rfl) hP) (fun _ _ hx => hx) fun _ => ?_
  exact Spec.bind (Spec.free free_sweepBurned hP) fun _ => Spec.ret fun _ hx => hx

theorem spec_claimed {α : Type} {encode : ℕ → ℕ → List LogEntry}
    {f : ClaimOutcome → Task (Except WalError α)} (hP : R.steady P)
    (hcont : R.Spec (f .contended) P fun _ => P)
    (hf : ∀ s : LogSlot, m.headSeq < s.slot.seq →
      R.Spec (f (.claimed s)) (fun σ => P σ ∧ R.has m σ) fun _ => P) :
    R.Spec (Task.andThen (claimLogSlot encode cfg.claimRounds (m.headSeq + 1) []) f)
      (fun σ => P σ ∧ R.has m σ) fun _ => P := by
  refine Spec.andThen (spec_claimLogSlot (R.and hP (R.steady_has m))) (fun _ _ hx => hx.1.1)
    fun o => ?_
  cases o with
  | contended => exact Spec.pre hcont fun _ hx => hx.1.1
  | claimed s =>
    by_cases hs : m.headSeq < s.slot.seq
    · exact Spec.pre (hf s hs) fun _ hx => hx.1
    · exact Spec.absurd fun σ hx => hs (hx.2 s rfl)

theorem spec_compactClaimed {pack : PackInfo} {supersedes : List String} {tier time : ℕ}
    {known : Option ℕ} {s : LogSlot} {again : Task (Except WalError ℕ)} (hP : R.steady P)
    (hagain : R.Spec again P fun _ => P) (hs : m.headSeq < s.slot.seq) :
    R.Spec (compactClaimed h pack supersedes tier time m known s again)
      (fun σ => P σ ∧ R.has m σ) fun _ => P := by
  have hPm := R.and hP (R.steady_has m)
  refine Spec.bind (spec_putManifest hPm (fun _ hx => hx.2) hs nofun) fun r => ?_
  split
  · exact Spec.pre (spec_adoptSlot hP) fun σ hx => ⟨hx.1.1, hx.2 _ rfl⟩
  · refine Spec.pre (P := P) ?_ fun _ hx => hx.1.1
    exact Spec.bind (Spec.free (free_call.mpr rfl) hP) fun _ => hagain
  · refine Spec.pre (P := P) ?_ fun _ hx => hx.1.1
    refine Spec.bind (spec_casLanded hP) fun r => ?_
    split
    · exact Spec.ret fun _ hx => hx.1
    · exact Spec.ret fun _ hx => hx.1
    · rename_i fresh
      refine Spec.pre (P := fun σ => P σ ∧ R.has fresh σ) ?_ fun _ hx => ⟨hx.1, hx.2 fresh rfl⟩
      refine Spec.andThen (Spec.free (free_call.mpr rfl) (R.and hP (R.steady_has fresh)))
        (fun _ _ hx => hx.1) fun r => ?_
      cases r with
      | none => exact Spec.ret fun _ hx => hx.1
      | some version => exact spec_adoptSlot hP

theorem spec_compactAttempt {pack : PackInfo} {supersedes : List String} {tier attempts : ℕ}
    {again : Task (Except WalError ℕ)} (hP : R.steady P) (hagain : R.Spec again P fun _ => P) :
    R.Spec (compactAttempt cfg h pack supersedes tier attempts again) P fun _ => P := by
  refine Spec.andThen (Q := fun _ => P) ?_ (fun _ _ hx => hx) fun _ => ?_
  · split
    · exact spec_syncServe hP
    · exact Spec.ret fun _ hx => hx
  · refine Spec.bind (Spec.call hP fun _ _ => trivial) fun m => ?_
    have hPm := R.and hP (R.steady_has m)
    refine Spec.bind (Spec.free (free_call.mpr rfl) hPm) fun known => ?_
    refine Spec.bind (Spec.free (free_call.mpr rfl) hPm) fun time => ?_
    exact spec_claimed hP hagain fun s hs => spec_compactClaimed hP hagain hs

theorem spec_publishCompact {pack : PackInfo} {supersedes : List String} {tier : ℕ}
    (hP : R.steady P) : R.Spec (publishCompact cfg h pack supersedes tier) P fun _ => P := by
  have hfrom : ∀ left attempts,
      R.Spec (publishCompactFrom cfg h pack supersedes tier left attempts) P fun _ => P := by
    intro left
    induction left with
    | zero => exact fun _ => spec_compactAttempt hP (Spec.ret fun _ hx => hx)
    | succ left ih => exact fun attempts => spec_compactAttempt hP (ih (attempts + 1))
  exact Spec.andThen (Spec.free (free_call.mpr rfl) hP) (fun _ _ hx => hx) fun _ => hfrom _ _

theorem spec_settingsClaimed {doc : RepoSettings} {time : ℕ} {known : Option ℕ} {s : LogSlot}
    {again : Task (Except WalError ℕ)} (hP : R.steady P) (hagain : R.Spec again P fun _ => P)
    (hs : m.headSeq < s.slot.seq) :
    R.Spec (settingsClaimed h doc time m known s again) (fun σ => P σ ∧ R.has m σ)
      fun _ => P := by
  have hPm := R.and hP (R.steady_has m)
  refine Spec.bind (spec_putManifest hPm (fun _ hx => hx.2) hs nofun) fun r => ?_
  split
  · exact Spec.pre (spec_adoptSlot hP) fun σ hx => ⟨hx.1.1, hx.2 _ rfl⟩
  · refine Spec.pre (P := P) ?_ fun _ hx => hx.1.1
    exact Spec.bind (Spec.free (free_call.mpr rfl) hP) fun _ => hagain
  · exact Spec.ret fun _ hx => hx.1.1

theorem spec_settingsAttempt {toml author message : String} {again : Task (Except WalError ℕ)}
    (hP : R.steady P) (hagain : R.Spec again P fun _ => P) :
    R.Spec (settingsAttempt cfg h toml author message again) P fun _ => P := by
  refine Spec.andThen (spec_syncRefsPhase hP) (fun _ _ hx => hx) fun _ => ?_
  refine Spec.bind (Spec.call hP fun _ _ => trivial) fun m => ?_
  have hPm := R.and hP (R.steady_has m)
  refine Spec.bind (Spec.free (free_call.mpr rfl) hPm) fun known => ?_
  refine Spec.bind (Spec.free (free_call.mpr rfl) hPm) fun time => ?_
  exact spec_claimed hP hagain fun s hs => spec_settingsClaimed hP hagain hs

theorem spec_publishSettings {toml author message : String} (hP : R.steady P) :
    R.Spec (publishSettings cfg h toml author message) P fun _ => P := by
  have hfrom : ∀ left attempts,
      R.Spec (publishSettingsFrom cfg h toml author message left attempts) P fun _ => P := by
    intro left
    induction left with
    | zero => exact fun _ => spec_settingsAttempt hP (Spec.ret fun _ hx => hx)
    | succ left ih => exact fun attempts => spec_settingsAttempt hP (ih (attempts + 1))
  exact hfrom _ _

theorem spec_bareCas {known applied : Option ℕ} {op : ManifestOp}
    {again : Task (Except WalError Unit)} (hP : R.steady P) (hagain : R.Spec again P fun _ => P)
    (hop : Advances m op)
    (hcp : ∀ cp, op = .checkpoint cp → ∀ σ, P σ → R.refsFiled cp.seq σ ∧ R.filed cp.seq σ) :
    R.Spec (bareCas h m known op applied again) (fun σ => P σ ∧ R.has m σ) fun _ => P := by
  have hPm := R.and hP (R.steady_has m)
  refine Spec.bind (spec_putManifest hPm (fun _ hx => hx.2) hop fun cp h σ hx => hcp cp h σ hx.1)
    fun r => ?_
  split
  · exact Spec.pre (spec_adopt hP) fun σ hx => ⟨hx.1.1, hx.2 _ rfl⟩
  · exact Spec.pre hagain fun _ hx => hx.1.1
  · exact Spec.ret fun _ hx => hx.1.1

theorem spec_annotateAttempt {checksum : String} {rev bitmap commitGraph : Bool}
    {again : Task (Except WalError Unit)} (hP : R.steady P) (hagain : R.Spec again P fun _ => P) :
    R.Spec (annotateAttempt h checksum rev bitmap commitGraph again) P fun _ => P := by
  refine Spec.bind (Spec.call hP fun _ _ => trivial) fun m => ?_
  refine Spec.bind (Spec.free (free_call.mpr rfl) (R.and hP (R.steady_has m))) fun known => ?_
  split
  · exact spec_bareCas hP hagain trivial nofun
  · exact Spec.ret fun _ hx => hx.1

theorem spec_annotatePackImpl {checksum : String} {rev bitmap commitGraph : Bool}
    (hP : R.steady P) :
    R.Spec (annotatePackImpl cfg h checksum rev bitmap commitGraph) P fun _ => P := by
  have hfrom : ∀ left attempts,
      R.Spec (annotatePackFrom h checksum rev bitmap commitGraph left attempts) P fun _ => P := by
    intro left
    induction left with
    | zero => exact fun _ => spec_annotateAttempt hP (Spec.ret fun _ hx => hx)
    | succ left ih =>
      exact fun attempts => spec_annotateAttempt hP
        (Spec.andThen (spec_syncRefsPhase hP) (fun _ _ hx => hx) fun _ => ih (attempts + 1))
  refine Spec.andThen (spec_syncRefsPhase hP) (fun _ _ hx => hx) fun _ => ?_
  refine Spec.bind (Spec.free (free_call.mpr rfl) hP) fun m => ?_
  split
  · exact Spec.andThen (Spec.free (free_call.mpr rfl) hP) (fun _ _ hx => hx) fun _ => hfrom _ _
  · exact Spec.ret fun _ hx => hx

end Writers

section Checkpoints

variable {seq : ℕ}

theorem spec_checkpointAttempt {again : Task (Except WalError Unit)} (hP : R.steady P)
    (hput : ∀ σ, P σ → R.refsFiled seq σ ∧ R.filed seq σ) (hagain : R.Spec again P fun _ => P) :
    R.Spec (checkpointAttempt h seq again) P fun _ => P := by
  refine Spec.bind (Spec.call hP fun _ _ => trivial) fun m => ?_
  refine Spec.bind (Spec.free (free_call.mpr rfl) (R.and hP (R.steady_has m))) fun known => ?_
  split
  · exact Spec.ret fun _ hx => hx.1
  · rename_i hcp
    refine spec_bareCas hP hagain (fun cp hm => ?_) fun cp h σ hx => ?_
    · simpa [hm] using hcp
    · cases h
      exact hput σ hx

theorem spec_checkpointCas {left attempts : ℕ} (hP : R.steady P)
    (hput : ∀ σ, P σ → R.refsFiled seq σ ∧ R.filed seq σ) :
    R.Spec (checkpointCas h seq left attempts) P fun _ => P := by
  induction left generalizing attempts with
  | zero => exact spec_checkpointAttempt hP hput (Spec.ret fun _ hx => hx)
  | succ left ih =>
    exact spec_checkpointAttempt hP hput
      (Spec.andThen (spec_syncRefsPhase hP) (fun _ _ hx => hx) fun _ => ih)

theorem spec_writeCheckpointAt (hP : R.steady P) :
    R.Spec (writeCheckpointAt cfg h m) (fun σ => P σ ∧ R.has m σ) fun _ => P := by
  have hPm := R.and hP (R.steady_has m)
  unfold writeCheckpointAt
  split
  · exact Spec.ret fun _ hx => hx.1
  · rename_i hcp
    split
    · exact Spec.ret fun _ hx => hx.1
    · have hnew : m.checkpoint ≠ some ⟨m.headSeq⟩ := fun hm => hcp (by simp [hm])
      refine Spec.andThen (Spec.free (free_call.mpr rfl) hPm) (fun _ _ hx => hx.1) fun snap => ?_
      refine Spec.bind (Spec.call hPm fun σ hx => ⟨m, hx.2, rfl, hnew⟩) fun refsPut => ?_
      refine Spec.bind (Spec.call (R.and hPm R.steady_answer)
        fun σ hx => ⟨m, hx.1.2, rfl, hnew⟩) fun cpPut => ?_
      refine Spec.andThen (Spec.ret (Q := fun r σ => ((P σ ∧ R.has m σ) ∧
        ServerAnswer R.has R.refsFiled R.filed (.putCheckpointRefs m.headSeq snap) r σ) ∧
        ServerAnswer R.has R.refsFiled R.filed (.putCheckpoint m.headSeq ⟨m.headSeq, m.packs⟩)
          cpPut σ) fun _ hx => hx) (fun _ _ hx => hx.1.1.1) fun _ => ?_
      refine Spec.andThen (Spec.ret (Q := fun r σ => ((P σ ∧ R.has m σ) ∧
        R.refsFiled m.headSeq σ) ∧
        ServerAnswer R.has R.refsFiled R.filed (.putCheckpoint m.headSeq ⟨m.headSeq, m.packs⟩)
          r σ) fun _ hx => hx) (fun _ _ hx => hx.1.1.1) fun _ => ?_
      have hfiled := R.and (R.and hPm (R.steady_refsFiled m.headSeq)) (R.steady_filed m.headSeq)
      exact Spec.post (spec_checkpointCas hfiled fun σ hx => ⟨hx.1.2, hx.2⟩)
        fun _ _ hx => hx.1.1.1

theorem spec_writeCheckpoint (hP : R.steady P) : R.Spec (writeCheckpoint cfg h) P fun _ => P := by
  have hproven : ∀ m, R.Spec (writeCheckpoint.writeCheckpointProven cfg h m)
      (fun σ => P σ ∧ R.has m σ) fun _ => P := by
    intro m
    refine Spec.bind (Spec.free free_refsProven (R.and hP (R.steady_has m))) fun proven => ?_
    split
    · exact spec_writeCheckpointAt hP
    · exact Spec.ret fun _ hx => hx.1
  refine Spec.andThen (spec_syncRefsPhase hP) (fun _ _ hx => hx) fun _ => ?_
  refine Spec.bind (Spec.call hP fun _ _ => trivial) fun m => ?_
  refine Spec.bind (Spec.free free_refsProven (R.and hP (R.steady_has m))) fun proven => ?_
  split
  · exact hproven m
  · refine Spec.pre (P := P) ?_ fun _ hx => hx.1
    refine Spec.andThen (spec_rebuildRefs hP) (fun _ _ hx => hx) fun _ => ?_
    exact Spec.bind (Spec.call hP fun _ _ => trivial) fun m => hproven m

end Checkpoints

theorem spec_job (job : Job) (hP : R.steady P) : R.Spec (job.run cfg) P fun _ => P := by
  have henter : ∀ {α : Type} {h : ℕ} {p : Task α}, R.Spec p P (fun _ => P) →
      R.Spec (enter h p) P fun _ => P := fun hp =>
    Spec.bind (Spec.free (free_call.mpr rfl) hP) fun _ => Spec.bind hp fun _ =>
      Spec.ret fun _ hx => hx
  cases job with
  | openRepo h old => exact Spec.bind (spec_openRepo hP) fun _ => Spec.ret fun _ hx => hx
  | sync h => exact henter (spec_syncRefsPhase hP)
  | publish h batch => exact spec_processBatch hP
  | compact h pack supersedes tier => exact henter (spec_publishCompact hP)
  | settings h toml author message => exact henter (spec_publishSettings hP)
  | annotate h checksum rev bitmap commitGraph => exact henter (spec_annotatePackImpl hP)
  | checkpoint h => exact henter (spec_writeCheckpoint hP)

end ServerRules

end Jobs

end Walgit
