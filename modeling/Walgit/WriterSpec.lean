import Walgit.PublishSpec

/-!
# Compaction, settings, annotations and checkpoints

The other writers. Their log entries, where they have one, write no ref, and
none of them answers a request: what is left of their specification is that
every step they take keeps the invariant.
-/

namespace Walgit

open Interleaving Replay

variable {L : List Hazard} {t h : ℕ} {m : Manifest} {known : Option ℕ} {op : ManifestOp}

/-- What a writer has read before it claims a slot or puts the manifest. -/
structure Based (h : ℕ) (m : Manifest) (known : Option ℕ) (σ : World) : Prop where
  pair : PairOf m known σ
  atLeast : AtLeast h m.revision σ

theorem lasting_based : Lasting L (Based h m known) := fun t' σ σ' hi hi' hg hb =>
  ⟨lasting_pairOf t' σ σ' hi hi' hg hb.pair, lasting_atLeast t' σ σ' hi hi' hg hb.atLeast⟩

theorem spec_readBase {α : Type} {R : World → Prop} {f : Manifest → Option ℕ → Task α}
    {Q : α → World → Prop} (hp : PairLevel L) (hR : Keeping L t R)
    (hf : ∀ m known, Spec L t (f m known) (fun σ => Based h m known σ ∧ R σ) Q) :
    Spec L t
      (do let m ← call (.manifest h); let known ← call (.versionFor h m); f m known) R Q := by
  refine Spec.bind (spec_manifest hR) fun m => ?_
  have hm : Keeping L t fun σ => R σ ∧ Has m σ ∧ AtLeast h m.revision σ :=
    hR.and (lasting_has.and lasting_atLeast).calm.stable
  refine Spec.bind (spec_versionFor hp hm) fun known => (hf m known).pre ?_
  exact fun σ _ hx => ⟨⟨hx.2, hx.1.2.2⟩, hx.1.1⟩

section Slot

variable {entry : ℕ → LogEntry} {s : LogSlot}

structure SilentEntry (entry : ℕ → LogEntry) : Prop where
  seq : ∀ q, (entry q).seq = q
  refTxn : ∀ q, (entry q).refTxn = none
  txn : ∀ q, (entry q).txn = none

abbrev EntrySlot (m : Manifest) (known : Option ℕ) (entry : ℕ → LogEntry) (s : LogSlot) : Prop :=
  ClaimOk m.headSeq known (fun _ seq => [entry seq]) s

theorem EntrySlot.entries_eq (hs : EntrySlot m known entry s) :
    s.slot.entries = [entry s.slot.seq] :=
  hs.entries.elim fun _ he => he

theorem EntrySlot.last (hs : EntrySlot m known entry s) : s.slot.last = s.slot.seq := by
  rw [Slot.last, hs.entries_eq]
  rfl

theorem EntrySlot.dense (he : SilentEntry entry) (hs : EntrySlot m known entry s) :
    s.slot.Dense := by
  refine ⟨by rw [hs.entries_eq]; nofun, ?_⟩
  rw [hs.entries_eq, List.map_singleton, he.seq]
  rfl

theorem EntrySlot.writes (he : SilentEntry entry) (hs : EntrySlot m known entry s) :
    s.slot.entries.flatMap LogEntry.writes = [] := by
  rw [hs.entries_eq, ← flatMap_refTxn, List.filterMap_cons, he.refTxn]
  rfl

theorem EntrySlot.orderly (he : SilentEntry entry) (hs : EntrySlot m known entry s)
    (hseg : op.segment = some ⟨s.slot.seq, s.slot.seq, s.slot.seq⟩) :
    Orderly known m op (some s.slot) := by
  refine ⟨fun v x hv hx => ?_, fun x hx e hmem => ?_, fun cp old hcp => ?_⟩
  · cases hx
    exact hs.after v hv
  · cases hx
    rw [hs.entries_eq, List.mem_singleton] at hmem
    rw [hmem, he.refTxn, he.txn]
  · rw [hcp] at hseg
    cases hseg

theorem casOk_silent (he : SilentEntry entry) {r : RefState} {q : ℕ} : CasOk r [entry q] := by
  refine ⟨?_, trivial⟩
  rw [LogEntry.updates, he.refTxn]
  trivial

theorem spec_putEntry (he : SilentEntry entry) (hs : EntrySlot m known entry s)
    (hseg : op.segment = some ⟨s.slot.seq, s.slot.seq, s.slot.seq⟩)
    (hlogs : op.Logs [entry s.slot.seq]) :
    Spec L t (call (.putManifest known m op (some s.slot)))
      (fun σ => Based h m known σ ∧ Fresh t σ ∧ Mine t s.slot σ)
      fun r σ => Based h m known σ ∧ PutPost t m op (some s.slot) r σ := by
  refine (spec_putManifest (R := Based h m known) lasting_based ?_ ?_ ?_ ?_ (hs.orderly he hseg)
    (fun σ hr => hr.pair) ?_ ?_).pre ?_
  · rintro rfl
    cases hseg
  · rw [hseg, Option.map_some, Slot.ref, hs.last]
  · rw [Option.elim_some, hs.entries_eq]
    exact hlogs
  · rintro x hx
    cases hx
    exact ⟨hs.past, hs.dense he⟩
  · rintro σ - cp rfl
    cases hseg
  · rintro σ - - - - x hx -
    cases hx
    rw [hs.entries_eq]
    exact casOk_silent he
  · rintro σ - ⟨hr, hf, hm⟩
    refine ⟨hr, hf, fun x hx => ?_⟩
    cases hx
    exact hm

theorem spec_adoptEntry {committed : Manifest} {version time result : ℕ} (hp : PairLevel L)
    (he : SilentEntry entry) (hs : EntrySlot m known entry s)
    (hseg : op.segment = some ⟨s.slot.seq, s.slot.seq, s.slot.seq⟩) :
    Spec L t (adoptSlot h s time committed version result)
      (Carries L t h m op (some s.slot) committed version) fun _ _ => True := by
  have hop : op ≠ .create := by
    rintro rfl
    cases hseg
  have hhead : (op.apply m).headSeq = s.slot.seq := by
    rw [apply_headSeq hop, hseg]
    rfl
  refine (spec_adoptSlot hp lasting_carries.calm (fun σ hc => hc) rfl hop ?_ (hs.writes he)
    hhead.symm hs.burned).post fun _ _ _ _ => trivial
  rw [hhead]
  exact Nat.le_of_lt hs.past

theorem spec_silentCas {α : Type} (he : SilentEntry entry) (hs : EntrySlot m known entry s)
    (hseg : op.segment = some ⟨s.slot.seq, s.slot.seq, s.slot.seq⟩)
    (hlogs : op.Logs [entry s.slot.seq]) {f : Except PutError ℕ → Task α}
    (hok : ∀ v, Spec L t (f (.ok v)) (Carries L t h m op (some s.slot) (op.apply m) v)
      fun _ _ => True)
    (hpre : Spec L t (f (.error .preconditionFailed))
      (fun σ => Fresh t σ ∧ Mine t s.slot σ) fun _ _ => True)
    (hother : Spec L t (f (.error .other))
      (fun σ => Based h m known σ ∧ Ambiguous t m op s.slot σ) fun _ _ => True) :
    Spec L t (call (.putManifest known m op (some s.slot)) >>= f)
      (fun σ => Based h m known σ ∧ Fresh t σ ∧ Mine t s.slot σ) fun _ _ => True := by
  refine Spec.bind (spec_putEntry he hs hseg hlogs) fun r => ?_
  rcases r with (_ | _) | version
  · exact hpre.pre fun σ _ hx => ⟨hx.2.1, hx.2.2 _ rfl⟩
  · exact hother.pre fun σ _ hx => ⟨hx.1, hx.2.imp_left fun hx => ⟨hx.1, hx.2 _ rfl⟩⟩
  · refine (hok version).pre ?_
    rintro σ - ⟨hr, hl, hpair⟩
    exact ⟨hl, hr.pair.has, hpair, hr.atLeast, fun _ => rfl⟩

theorem spec_drop {α : Type} {again : Task α} (hagain : Spec L t again (Fresh t) fun _ _ => True) :
    Spec L t (do dropOwnSlot s; again) (fun σ => Fresh t σ ∧ Mine t s.slot σ) fun _ _ => True :=
  Spec.bind (spec_dropOwnSlot calm_fresh) fun _ => hagain

end Slot

section Compact

variable {pack : PackInfo} {supersedes : List String} {tier time : ℕ} {s : LogSlot}
  {again : Task (Except WalError ℕ)} {cfg : Config} {left attempts : ℕ}

theorem silent_compact : SilentEntry (compactEntry pack supersedes tier time) :=
  ⟨fun _ => rfl, fun _ => rfl, fun _ => rfl⟩

theorem spec_compactClaimed (hp : PairLevel L)
    (hs : EntrySlot m known (compactEntry pack supersedes tier time) s)
    (hagain : Spec L t again (Fresh t) fun _ _ => True) :
    Spec L t (compactClaimed h pack supersedes tier time m known s again)
      (fun σ => Based h m known σ ∧ Fresh t σ ∧ Mine t s.slot σ) fun _ _ => True := by
  unfold compactClaimed
  simp only
  generalize hop : ManifestOp.compact (packRefFromInfo pack s.slot.seq tier) supersedes
    ⟨s.slot.seq, s.slot.seq, s.slot.seq⟩ = op
  have hseg : op.segment = some ⟨s.slot.seq, s.slot.seq, s.slot.seq⟩ := by
    rw [← hop]
    rfl
  have hlogs : op.Logs [compactEntry pack supersedes tier time s.slot.seq] := by
    rw [← hop]
    exact ⟨_, rfl, rfl, rfl, rfl⟩
  refine spec_silentCas silent_compact hs hseg hlogs (fun v => ?_) (spec_drop hagain) ?_
  · exact spec_adoptEntry hp silent_compact hs hseg
  · refine Spec.bind (spec_casLanded m op lasting_based) fun r => ?_
    rcases r with e | _ | fresh
    · exact Spec.ret fun _ _ _ => trivial
    · exact Spec.ret fun _ _ _ => trivial
    · refine Spec.andThen (spec_headManifest hp (lasting_based.and
        (lasting_landed.and (lasting_has.and .const))).calm.stable) (fun _ _ _ _ => trivial)
        fun o => ?_
      cases o with
      | none => exact Spec.ret fun _ _ _ => trivial
      | some version =>
        refine (spec_adoptEntry hp silent_compact hs hseg).pre ?_
        rintro σ - ⟨⟨hr, hl, -, hsame⟩, hpair⟩
        exact ⟨hl, hr.pair.has, hpair, hr.atLeast, hsame⟩

theorem spec_claimed {entry : ℕ → LogEntry} {f : LogSlot → Task (Except WalError ℕ)}
    {rounds : ℕ} (hagain : Spec L t again (Fresh t) fun _ _ => True)
    (hf : ∀ s, EntrySlot m known entry s → Spec L t (f s)
      (fun σ => Based h m known σ ∧ Fresh t σ ∧ Mine t s.slot σ) fun _ _ => True) :
    Spec L t (Task.andThen (claimLogSlot (fun _ seq => [entry seq]) rounds (m.headSeq + 1) []) fun
      | .contended => again
      | .claimed s => f s) (fun σ => Based h m known σ ∧ Fresh t σ) fun _ _ => True := by
  refine Spec.andThen (spec_claimLogSlot m.headSeq (lasting_based.calm.and calm_fresh)
    (fun σ hx => hx.1.pair) (Nat.lt_succ_self _) fun b hb => by cases hb) (fun _ _ _ _ => trivial)
    fun claim => ?_
  cases claim with
  | contended => exact hagain.pre fun σ _ hx => hx.1.2
  | claimed s =>
    refine (Spec.knowing fun hs => hf s hs).pre ?_
    exact fun σ _ hx => ⟨⟨hx.1.1, hx.1.2, hx.2.1⟩, hx.2.2⟩

theorem spec_compactAttempt (hp : PairLevel L)
    (hagain : Spec L t again (Fresh t) fun _ _ => True) :
    Spec L t (compactAttempt cfg h pack supersedes tier attempts again) (Fresh t)
      fun _ _ => True := by
  unfold compactAttempt
  refine Spec.andThen (R := fun _ => Fresh t) ?_ (fun _ _ _ _ => trivial) fun _ => ?_
  · split
    · exact spec_syncServe hp calm_fresh
    · exact Spec.ret fun _ _ hx => hx
  refine spec_readBase hp calm_fresh.stable fun m known => ?_
  refine Spec.bind (Spec.skip rfl (lasting_based.calm.and calm_fresh).stable) fun time => ?_
  exact spec_claimed hagain fun s hs => spec_compactClaimed hp hs hagain

theorem spec_publishCompactFrom (hp : PairLevel L) :
    Spec L t (publishCompactFrom cfg h pack supersedes tier left attempts) (Fresh t)
      fun _ _ => True := by
  induction left generalizing attempts with
  | zero => exact spec_compactAttempt hp (Spec.ret fun _ _ _ => trivial)
  | succ left ih => exact spec_compactAttempt hp ih

theorem spec_publishCompact (hp : PairLevel L) :
    Spec L t (publishCompact cfg h pack supersedes tier) (Fresh t) fun _ _ => True :=
  Spec.andThen (Spec.skip rfl calm_fresh.stable) (fun _ _ _ _ => trivial)
    fun _ => spec_publishCompactFrom hp

variable {doc : RepoSettings} {toml author message : String}

theorem silent_settings : SilentEntry (settingsEntry doc time) :=
  ⟨fun _ => rfl, fun _ => rfl, fun _ => rfl⟩

theorem spec_settingsClaimed (hp : PairLevel L)
    (hs : EntrySlot m known (settingsEntry doc time) s)
    (hagain : Spec L t again (Fresh t) fun _ _ => True) :
    Spec L t (settingsClaimed h doc time m known s again)
      (fun σ => Based h m known σ ∧ Fresh t σ ∧ Mine t s.slot σ) fun _ _ => True := by
  unfold settingsClaimed
  simp only
  generalize hop : ManifestOp.settings doc ⟨s.slot.seq, s.slot.seq, s.slot.seq⟩ = op
  have hseg : op.segment = some ⟨s.slot.seq, s.slot.seq, s.slot.seq⟩ := by
    rw [← hop]
    rfl
  have hlogs : op.Logs [settingsEntry doc time s.slot.seq] := by
    rw [← hop]
    intro e he
    rw [List.mem_singleton.mp he]
    rfl
  refine spec_silentCas silent_settings hs hseg hlogs (fun v => ?_) (spec_drop hagain) ?_
  · exact spec_adoptEntry hp silent_settings hs hseg
  · exact Spec.ret fun _ _ _ => trivial

theorem spec_settingsAttempt (hp : PairLevel L)
    (hagain : Spec L t again (Fresh t) fun _ _ => True) :
    Spec L t (settingsAttempt cfg h toml author message again) (Fresh t) fun _ _ => True := by
  unfold settingsAttempt
  refine Spec.andThen (spec_syncRefsPhase hp calm_fresh) (fun _ _ _ _ => trivial) fun _ => ?_
  refine spec_readBase hp calm_fresh.stable fun m known => ?_
  refine Spec.bind (Spec.skip rfl (lasting_based.calm.and calm_fresh).stable) fun time => ?_
  exact spec_claimed hagain fun s hs => spec_settingsClaimed hp hs hagain

theorem spec_publishSettingsFrom (hp : PairLevel L) :
    Spec L t (publishSettingsFrom cfg h toml author message left attempts) (Fresh t)
      fun _ _ => True := by
  induction left generalizing attempts with
  | zero => exact spec_settingsAttempt hp (Spec.ret fun _ _ _ => trivial)
  | succ left ih => exact spec_settingsAttempt hp ih

end Compact

section Bare

variable {R : World → Prop} {again : Task (Except WalError Unit)} {cfg : Config}
  {left attempts : ℕ}

theorem spec_bareCas {applied : Option ℕ} (hp : PairLevel L) (hR : Lasting L R)
    (hop : op ≠ .create) (hseg : op.segment = none) (hlogs : op.Logs [])
    (hdue : ∀ cp old, op = .checkpoint cp → m.checkpoint = some old → old.seq < m.headSeq)
    (happ : ∀ q, applied = some q → q = (op.apply m).headSeq)
    (hcp : ∀ σ, R σ → ∀ cp, op = .checkpoint cp →
      (∃ a ∈ σ.commits, a.manifest.headSeq = cp.seq) ∧ (σ.cpRefs cp.seq).isSome)
    (hagain : Spec L t again (fun σ => R σ ∧ Fresh t σ) fun _ _ => True) :
    Spec L t (bareCas h m known op applied again)
      (fun σ => Based h m known σ ∧ R σ ∧ Fresh t σ) fun _ _ => True := by
  have hhead : (op.apply m).headSeq = m.headSeq := by
    rw [apply_headSeq hop, hseg]
    rfl
  unfold bareCas
  refine Spec.bind (Spec.pre (spec_putManifest (R := fun σ => Based h m known σ ∧ R σ)
    (lasting_based.and hR) hop hseg hlogs nofun ⟨fun _ _ _ => nofun, nofun, hdue⟩
    (fun σ hr => hr.1.pair) (fun σ hr => hcp σ hr.2)
    (fun _ _ _ _ _ => nofun)) ?_) fun r => ?_
  · exact fun σ _ hx => ⟨⟨hx.1, hx.2.1⟩, hx.2.2, nofun⟩
  rcases r with (_ | _) | version
  · exact hagain.pre fun σ _ hx => ⟨hx.1.2, hx.2.1⟩
  · exact Spec.ret fun _ _ _ => trivial
  · refine ((spec_adopt (R := Carries L t h m op none (op.apply m) version) hp
      lasting_carries.calm (fun σ hc => hc) hop hhead happ).pre ?_).post
      fun _ _ _ _ => trivial
    rintro σ - ⟨⟨hr, -⟩, hl, hpair⟩
    exact ⟨hl, hr.pair.has, hpair, hr.atLeast, fun _ => rfl⟩

variable {checksum : String} {rev bitmap commitGraph : Bool}

theorem spec_annotateAttempt (hp : PairLevel L)
    (hagain : Spec L t again (Fresh t) fun _ _ => True) :
    Spec L t (annotateAttempt h checksum rev bitmap commitGraph again) (Fresh t)
      fun _ _ => True := by
  unfold annotateAttempt
  refine spec_readBase hp calm_fresh.stable fun m known => ?_
  split
  · refine Spec.pre (spec_bareCas hp (Lasting.const (p := True)) nofun rfl rfl nofun nofun
      (fun _ _ => nofun)
      (hagain.pre fun σ _ hx => hx.2)) ?_
    exact fun σ _ hx => ⟨hx.1, trivial, hx.2⟩
  · exact Spec.ret fun _ _ _ => trivial

theorem spec_annotatePackFrom (hp : PairLevel L) :
    Spec L t (annotatePackFrom h checksum rev bitmap commitGraph left attempts) (Fresh t)
      fun _ _ => True := by
  induction left generalizing attempts with
  | zero => exact spec_annotateAttempt hp (Spec.ret fun _ _ _ => trivial)
  | succ left ih =>
    exact spec_annotateAttempt hp
      (Spec.andThen (spec_syncRefsPhase hp calm_fresh) (fun _ _ _ _ => trivial) fun _ => ih)

theorem spec_annotatePackImpl (hp : PairLevel L) :
    Spec L t (annotatePackImpl cfg h checksum rev bitmap commitGraph) (Fresh t)
      fun _ _ => True := by
  unfold annotatePackImpl
  refine Spec.andThen (spec_syncRefsPhase hp calm_fresh) (fun _ _ _ _ => trivial) fun _ => ?_
  refine Spec.bind (Spec.skip rfl calm_fresh.stable) fun m => ?_
  split
  · exact Spec.andThen (Spec.skip rfl calm_fresh.stable) (fun _ _ _ _ => trivial)
      fun _ => spec_annotatePackFrom hp
  · exact Spec.ret fun _ _ _ => trivial

end Bare

section Checkpoint

variable {cfg : Config} {left attempts seq : ℕ} {snap : RefState}

/-- Seq `seq` is the head of a commit and its refs are stored. -/
def Snapshotted (seq : ℕ) (σ : World) : Prop :=
  (∃ a ∈ σ.commits, a.manifest.headSeq = seq) ∧ (σ.cpRefs seq).isSome

theorem lasting_snapshotted : Lasting L (Snapshotted seq) :=
  lasting_knows.and fun _ _ _ _ _ hg h => hg.cpRefs seq h

theorem spec_checkpointAttempt {again : Task (Except WalError Unit)} (hp : PairLevel L)
    (hagain : Spec L t again (fun σ => Snapshotted seq σ ∧ Fresh t σ) fun _ _ => True) :
    Spec L t (checkpointAttempt h seq again) (fun σ => Snapshotted seq σ ∧ Fresh t σ)
      fun _ _ => True := by
  unfold checkpointAttempt
  refine spec_readBase hp (lasting_snapshotted.calm.and calm_fresh).stable fun m known => ?_
  split
  · exact Spec.ret fun _ _ _ => trivial
  · rename_i hany
    refine spec_bareCas hp lasting_snapshotted nofun rfl rfl ?_ ?_ ?_ hagain
    · intro cp old _ hold
      simpa [hold] using hany
    · rintro q hq
      cases hq
      rfl
    · rintro σ hs cp hcp
      cases hcp
      exact hs

theorem spec_checkpointCas (hp : PairLevel L) :
    Spec L t (checkpointCas h seq left attempts) (fun σ => Snapshotted seq σ ∧ Fresh t σ)
      fun _ _ => True := by
  induction left generalizing attempts with
  | zero => exact spec_checkpointAttempt hp (Spec.ret fun _ _ _ => trivial)
  | succ left ih =>
    exact spec_checkpointAttempt hp (Spec.andThen
      (spec_syncRefsPhase hp (lasting_snapshotted.calm.and calm_fresh)) (fun _ _ _ _ => trivial)
      fun _ => ih)

theorem spec_refs {P : World → Prop} (hP : Keeping L t P) :
    Spec L t (call (.refs h m)) P fun r σ => P σ ∧ ∀ snap, r = .ok snap → RefsLevel L →
      SnapOk L σ m.headSeq snap := by
  refine Spec.read (o := .refs h m) rfl hP (fun _ => .all fun _ => lasting_snapOk.imp.imp) ?_
  rintro σ c r hi hx hok hex snap rfl hL
  obtain ⟨-, hd, hh, hr⟩ := read_eq hex
  obtain rfl := Choice.get_ok hr.symm
  have hinv := hi.handles h hd hh
  have hproven : hd.provenAt m.headSeq := by
    by_contra hne
    exact hok .staleSnapshot (hL (by decide)) ⟨h, m, rfl, hd, hh, hne⟩
  obtain ⟨-, k, hk, hn, -⟩ := hinv.near hL hproven.1
  rw [← hproven.2]
  refine ⟨hinv.applied_le hi hL hproven.1, ⟨k, hk, hn⟩, fun hS => ?_⟩
  rcases hS with hE | ⟨-, hz⟩
  swap
  · by_contra hne
    rw [hproven.2] at hne
    exact hok .inexactSnapshot hz ⟨h, m, rfl, hd, hh, hne⟩
  have hfree : hd.syncMutex = none := by
    by_contra hne
    exact hok .snapshotMoved (hE (by decide)) ⟨h, m, rfl, hd, hh, hne⟩
  exact (hinv.settled hE hfree (.inl hproven.1)).applied

theorem spec_putCheckpointRefs {R : World → Prop} (hR : Calm L t R)
    (hs : ∀ σ, R σ → RefsLevel L → SnapOk L σ seq snap) :
    Spec L t (call (.putCheckpointRefs seq snap)) R
      fun r σ => R σ ∧ (r = .ok () → (σ.cpRefs seq).isSome) := by
  refine (Spec.quiet (o := .putCheckpointRefs seq snap) (fun _ _ => trivial) hR (P := fun _ => True)
    (Q := fun r σ => r = .ok () → (σ.cpRefs seq).isSome) ?_ ?_).pre fun σ _ hr => ⟨hr, trivial⟩
  · exact fun r => (Lasting.imp fun _ _ _ _ _ hg h => hg.cpRefs seq h).calm.stable
  intro σ c r σ' hi hr _ hok hex
  have hres := Option.some.inj hex
  have hnew : Quiet L t σ { σ with cpRefs := fun j => if j = seq then some snap else σ.cpRefs j } :=
    .of_keeps hi (.snapshot (hs σ hr)) .snapshot rfl rfl
  unfold Choice.put at hres
  split at hres
  · cases hres
    refine ⟨hnew, fun _ => ?_⟩
    simp
  · cases hres
    exact ⟨.of_keeps hi .refl .refl rfl rfl, nofun⟩
  · cases hres
    exact ⟨hnew, nofun⟩

theorem spec_putCheckpoint {R : World → Prop} (hR : Calm L t R) (hm : ∀ σ, R σ → Has m σ) :
    Spec L t (call (.putCheckpoint m.headSeq ⟨m.headSeq, m.packs⟩)) R fun _ => R := by
  refine ((Spec.quiet (o := .putCheckpoint m.headSeq ⟨m.headSeq, m.packs⟩) (fun _ _ => trivial) hR
    (P := fun _ => True) (Q := fun _ _ => True) (fun _ => Discipline.Stable.const) ?_).pre
    fun σ _ hr => ⟨hr, trivial⟩).post fun _ _ _ hx => hx.1
  intro σ c r σ' hi hr _ hok hex
  have hres := Option.some.inj hex
  have hold : ∃ a ∈ σ.commits, a.manifest.headSeq = m.headSeq ∧
      (⟨m.headSeq, m.packs⟩ : Checkpoint) = ⟨m.headSeq, a.manifest.packs⟩ := by
    obtain ⟨a, ha, rfl⟩ := hm σ hr
    exact ⟨a, ha, rfl, rfl⟩
  have hnew := Quiet.of_keeps hi (.checkpoint hold) (.checkpoint (t := t)) rfl rfl
  refine ⟨?_, trivial⟩
  unfold Choice.put at hres
  split at hres
  · cases hres
    exact hnew
  · cases hres
    exact .of_keeps hi .refl .refl rfl rfl
  · cases hres
    exact hnew

structure Snapping (L : List Hazard) (t : ℕ) (m : Manifest) (snap : RefState) (σ : World) :
    Prop where
  has : Has m σ
  fresh : Fresh t σ
  snap : RefsLevel L → SnapOk L σ m.headSeq snap

theorem calm_snapping : Calm L t (Snapping L t m snap) where
  stable t' σ σ' ht hi hi' hg hs :=
    ⟨lasting_has t' σ σ' hi hi' hg hs.has, calm_fresh.stable t' σ σ' ht hi hi' hg hs.fresh,
      fun hL => lasting_snapOk t' σ σ' hi hi' hg (hs.snap hL)⟩
  quiet σ σ' hq hs :=
    ⟨lasting_has.calm.quiet σ σ' hq hs.has, calm_fresh.quiet σ σ' hq hs.fresh,
      fun hL => lasting_snapOk.calm.quiet σ σ' hq (hs.snap hL)⟩

theorem spec_writeCheckpointAt (hp : PairLevel L) :
    Spec L t (writeCheckpointAt cfg h m) (fun σ => Has m σ ∧ Fresh t σ) fun _ _ => True := by
  unfold writeCheckpointAt
  split
  · exact Spec.ret fun _ _ _ => trivial
  split
  · exact Spec.ret fun _ _ _ => trivial
  refine Spec.andThen (spec_refs (lasting_has.calm.and calm_fresh).stable)
    (fun _ _ _ _ => trivial) fun snap => ?_
  refine Spec.bind ((spec_putCheckpointRefs calm_snapping fun σ hs => hs.snap).pre
    fun σ _ hx => ⟨hx.1.1, hx.1.2, hx.2 snap rfl⟩) fun refsPut => ?_
  have hstored : Calm L t fun σ => Snapping L t m snap σ ∧
      (refsPut = .ok () → (σ.cpRefs m.headSeq).isSome) :=
    calm_snapping.and (Lasting.imp fun _ _ _ _ _ hg h => hg.cpRefs m.headSeq h).calm
  refine Spec.bind (spec_putCheckpoint hstored fun σ hr => hr.1.has) fun cpPut => ?_
  refine Spec.andThen (R := fun r σ => (Snapping L t m snap σ ∧
    (refsPut = .ok () → (σ.cpRefs m.headSeq).isSome)) ∧ r = refsPut)
    (Spec.ret fun σ _ hx => ⟨hx, rfl⟩) (fun _ _ _ _ => trivial) fun u => ?_
  refine Spec.andThen (R := fun _ σ => Snapshotted m.headSeq σ ∧ Fresh t σ)
    (Spec.ret fun σ _ hx => ?_) (fun _ _ _ _ => trivial) fun _ => spec_checkpointCas hp
  obtain ⟨⟨hs, hput⟩, hr⟩ := hx
  obtain ⟨a, ha, hman⟩ := hs.has
  exact ⟨⟨⟨a, ha, by rw [hman]⟩, hput hr.symm⟩, hs.fresh⟩

theorem spec_refsProven {P : World → Prop} (hP : Keeping L t P) :
    Spec L t (refsProven h m) P fun _ => P := by
  unfold refsProven
  refine Spec.bind (Spec.skip rfl hP) fun st => ?_
  split
  · exact Spec.skip rfl hP
  · exact Spec.ret fun _ _ hx => hx

theorem spec_writeCheckpointProven (hp : PairLevel L) :
    Spec L t (writeCheckpoint.writeCheckpointProven cfg h m) (fun σ => Has m σ ∧ Fresh t σ)
      fun _ _ => True := by
  unfold writeCheckpoint.writeCheckpointProven
  refine Spec.bind (spec_refsProven (lasting_has.calm.and calm_fresh).stable) fun ok => ?_
  split
  · exact spec_writeCheckpointAt hp
  · exact Spec.ret fun _ _ _ => trivial

theorem spec_writeCheckpoint (hp : PairLevel L) :
    Spec L t (writeCheckpoint cfg h) (Fresh t) fun _ _ => True := by
  have hmanifest : Spec L t (call (.manifest h)) (Fresh t) fun m σ => Has m σ ∧ Fresh t σ :=
    (spec_manifest calm_fresh.stable).post fun _ _ _ hx => ⟨hx.2.1, hx.1⟩
  unfold writeCheckpoint
  refine Spec.andThen (spec_syncRefsPhase hp calm_fresh) (fun _ _ _ _ => trivial) fun _ => ?_
  refine Spec.bind hmanifest fun m => ?_
  refine Spec.bind (spec_refsProven (lasting_has.calm.and calm_fresh).stable) fun ok => ?_
  split
  · exact spec_writeCheckpointProven hp
  · refine Spec.andThen ((spec_rebuildRefs hp calm_fresh).pre fun _ _ hx => hx.2)
      (fun _ _ _ _ => trivial) fun _ => ?_
    exact Spec.bind hmanifest fun m => spec_writeCheckpointProven hp

end Checkpoint

end Walgit
