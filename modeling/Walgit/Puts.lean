import Walgit.ServerSpec

/-!
# What the writers put

Every manifest that a writer puts raises the head it starts from, its new packs
are numbered past that head, and only a push brings entries that write refs.
These are facts about the programs alone, whatever their calls answer.
-/

namespace Walgit

open Interleaving

variable {α β : Type} {cfg : Config} {h : ℕ} {m : Manifest} {f : ManifestOp → Prop}

def WritesNoRefs (slot : Option Slot) : Prop :=
  ∀ s, slot = some s → ∀ e ∈ s.entries, e.writes = []

/-- What holds of a put, from the manifest that its writer starts from. -/
def PutFrom (base : Manifest) (op : ManifestOp) (slot : Option Slot) : Prop :=
  match op with
  | .create => False
  | .push packs seg => base.headSeq ≤ seg.lastSeq ∧ ∀ p ∈ packs, base.headSeq < p.seq
  | .compact pack _ seg => base.headSeq ≤ seg.lastSeq ∧ base.headSeq < pack.seq ∧ WritesNoRefs slot
  | .settings _ seg => base.headSeq ≤ seg.lastSeq ∧ WritesNoRefs slot
  | .checkpoint _ => slot = none
  | .annotate .. => slot = none

/-- A call that, if it puts a manifest, puts one of the operations `f`. -/
def Puts (f : ManifestOp → Prop) : Op → Prop
  | .putManifest _ base op slot => PutFrom base op slot ∧ f op
  | _ => True

abbrev Task.Puts (f : ManifestOp → Prop) (p : Task α) : Prop := p.Within (Walgit.Puts f)

def Op.isPut : Op → Bool
  | .putManifest .. => true
  | _ => false

theorem puts_quiet {o : Op} (ho : o.isPut = false) : (call o).Puts f := by
  refine Prog.within_perform.mpr ?_
  cases o with
  | putManifest => cases ho
  | _ => trivial

theorem Task.Free.puts {p : Task α} (hp : p.Free) : p.Puts f := by
  refine Prog.Within.mono (fun o ho => ?_) hp
  cases o with
  | putManifest => cases ho
  | _ => trivial

theorem Task.Puts.andThen {ε : Type} {p : Task (Except ε α)} {g : α → Task (Except ε β)}
    (hp : p.Puts f) (hg : ∀ a, (g a).Puts f) : (Task.andThen p g).Puts f := by
  refine hp.bind fun r => ?_
  cases r with
  | ok a => exact hg a
  | error e => exact Prog.within_pure

section Sync

theorem puts_adopt {version : ℕ} {locked : Bool} {p : Task α} (hp : p.Puts f) :
    (do call (.setManifest h m locked); call (.setVersion h m version); p : Task α).Puts f :=
  (puts_quiet rfl).bind fun _ => (puts_quiet rfl).bind fun _ => hp

theorem puts_syncUnchanged {known : Option ℕ} {force : Bool} :
    (syncUnchanged h known force).Puts f := by
  unfold syncUnchanged
  split
  · refine (puts_quiet rfl).bind fun m => ?_
    cases known with
    | some version => exact free_applyAndVerify.puts
    | none => exact Prog.within_pure
  · exact Prog.within_pure

theorem puts_syncChanged {version : ℕ} {force : Bool} : (syncChanged h m version force).Puts f := by
  refine (puts_quiet rfl).bind fun cur => (puts_quiet rfl).bind fun held => ?_
  split
  · split
    · refine (puts_quiet rfl).bind fun r => ?_
      cases r with
      | some version => exact free_applyAndVerify.puts
      | none => exact Prog.within_pure
    · exact Prog.within_pure
  · split
    · refine Task.Puts.andThen ?_ fun _ => puts_adopt Prog.within_pure
      split
      · exact free_applyAndVerify.puts
      · exact Prog.within_pure
    · exact free_applyDeltaWithRebuild.puts.andThen fun _ =>
        puts_adopt ((puts_quiet rfl).bind fun _ => Prog.within_pure)

theorem puts_syncLockedInner {force : Bool} : (syncLockedInner h force).Puts f := by
  refine (puts_quiet rfl).bind fun known => (puts_quiet rfl).andThen fun outcome => ?_
  refine (puts_quiet rfl).bind fun verified => ?_
  cases outcome with
  | none => exact puts_syncUnchanged
  | some r => exact puts_syncChanged

theorem puts_syncRefsPhase : (syncRefsPhase h).Puts f := by
  refine free_freshEnough.puts.bind fun fresh => ?_
  cases fresh with
  | true => exact Prog.within_pure
  | false =>
    refine (puts_quiet rfl).bind fun _ => free_freshEnough.puts.bind fun fresh => ?_
    cases fresh with
    | true => exact (puts_quiet rfl).bind fun _ => Prog.within_pure
    | false =>
      exact (puts_quiet rfl).bind fun verified => puts_syncLockedInner.bind fun r =>
        (puts_quiet rfl).bind fun _ => Prog.within_pure

theorem puts_syncServe : (syncServe h).Puts f :=
  puts_syncRefsPhase.andThen fun _ => puts_quiet rfl

theorem puts_rebuildRefs : (rebuildRefs h).Puts f :=
  (puts_quiet rfl).bind fun _ => puts_syncLockedInner.bind fun _ =>
    (puts_quiet rfl).bind fun _ => Prog.within_pure

theorem puts_openRepo {old : Option ℕ} : (openRepo h old).Puts f := by
  refine (puts_quiet rfl).bind fun left => (puts_quiet rfl).andThen fun r => ?_
  obtain ⟨m, version⟩ := r
  refine (puts_quiet rfl).bind fun _ => Task.Puts.andThen ?_ fun _ =>
    (puts_quiet rfl).bind fun _ => Prog.within_pure
  split
  · exact free_applyAndVerify.puts
  · exact Prog.within_pure

end Sync

section Writers

variable {s : LogSlot} {known : Option ℕ}

/-- A claimed slot is not before the seq asked for, and has the entries made for it. -/
def Claims (encode : ℕ → ℕ → List LogEntry) (seq : ℕ) (r : Except WalError ClaimOutcome) : Prop :=
  ∀ s, r = .ok (.claimed s) → seq ≤ s.slot.seq ∧ ∃ now, s.slot.entries = encode now s.slot.seq

theorem Claims.mono {encode : ℕ → ℕ → List LogEntry} {seq seq' : ℕ}
    {r : Except WalError ClaimOutcome} (hr : Claims encode seq' r) (hle : seq ≤ seq') :
    Claims encode seq r :=
  fun s hs => ⟨hle.trans (hr s hs).1, (hr s hs).2⟩

theorem Ends.andThen {ε : Type} {p : Task (Except ε α)} {g : α → Task (Except ε β)}
    {Q : Except ε β → Prop} (hp : p.Puts f) (hg : ∀ a, (g a).Ends (Puts f) Q)
    (herr : ∀ e, Q (.error e)) : (Task.andThen p g).Ends (Puts f) Q := by
  refine hp.ends.bind fun r _ => ?_
  cases r with
  | ok a => exact hg a
  | error e => exact herr e

theorem ends_claimLogSlot {encode : ℕ → ℕ → List LogEntry} {rounds seq : ℕ}
    {burned : List (ℕ × ℕ)} :
    (claimLogSlot encode rounds seq burned).Ends (Puts f) (Claims encode seq) := by
  induction rounds generalizing seq burned with
  | zero => exact ⟨trivial, fun r => r.elim⟩
  | succ rounds ih =>
    unfold claimLogSlot
    refine (puts_quiet rfl).ends.bind fun now _ => (puts_quiet rfl).ends.bind fun r _ => ?_
    rcases r with (_ | _) | version
    · refine Ends.andThen free_probeOrphan.puts (fun r => ?_) fun _ s hs => by cases hs
      cases r with
      | committed => exact fun s hs => by cases hs
      | free => exact ih
      | orphan version =>
        dsimp only
        split
        · exact fun s hs => by cases hs
        · exact ih.mono fun r hr => hr.mono (Nat.le_succ _)
    · exact fun s hs => by cases hs
    · intro s hs
      cases hs
      exact ⟨Nat.le_refl _, now, rfl⟩

theorem ends_claim {encode : ℕ → ℕ → List LogEntry} {rounds seq : ℕ} {burned : List (ℕ × ℕ)}
    {g : ClaimOutcome → Task (Except WalError α)}
    (hg : ∀ r, (∀ s, r = .claimed s → seq ≤ s.slot.seq ∧
      ∃ now, s.slot.entries = encode now s.slot.seq) → (g r).Puts f) :
    (Task.andThen (claimLogSlot encode rounds seq burned) g).Puts f := by
  refine ends_claimLogSlot.within fun r hr => ?_
  cases r with
  | ok r => exact hg r fun s hs => hr s (congrArg Except.ok hs)
  | error e => exact Prog.within_pure

theorem mem_buildEntries {now first : ℕ} {reqs : List PublishRequest} {e : LogEntry} {p : PackRef}
    (he : e ∈ buildEntries now first reqs) (hp : e.pack = some p) : first ≤ p.seq := by
  induction reqs generalizing first with
  | nil => cases he
  | cons req reqs ih =>
    rcases List.mem_cons.mp he with rfl | he
    · obtain ⟨checksum, -, rfl⟩ := Option.map_eq_some_iff.mp hp
      exact Nat.le_refl _
    · exact (Nat.le_succ _).trans (ih he)

theorem puts_localCommit {version last : ℕ} {txns : List RefTransaction} :
    (localCommit h m version last txns).Puts f := by
  refine (puts_quiet rfl).bind fun _ => free_applyTxns.puts.bind fun applied =>
    free_refreshIf.puts.bind fun localOk => ?_
  split
  · exact puts_adopt ((puts_quiet rfl).bind fun _ => (puts_quiet rfl).bind fun _ => puts_quiet rfl)
  · exact (puts_quiet rfl).bind fun _ => puts_quiet rfl

theorem puts_published {batch : List PublishRequest} {verified : List Verified}
    {entries : List LogEntry} {last version : ℕ} :
    (published h batch verified s entries last m version).Puts f :=
  puts_localCommit.bind fun _ => free_sweepBurned.puts.bind fun _ =>
    free_noteEntryTimes.puts.bind fun _ => puts_quiet rfl

theorem puts_publishClaimed {batch : List PublishRequest} {verified : List Verified}
    {again : Task Unit} (hf : ∀ packs seg, f (.push packs seg)) (hs : m.headSeq < s.slot.seq)
    (hagain : again.Puts f) : (publishClaimed h batch verified m known s again).Puts f := by
  refine (puts_quiet rfl).bind fun now => Prog.Within.bind (Prog.within_perform.mpr ?_) fun r => ?_
  · refine ⟨⟨?_, fun p hp => ?_⟩, hf _ _⟩
    · dsimp only
      omega
    · obtain ⟨e, he, hep⟩ := List.mem_filterMap.mp hp
      exact hs.trans_le (mem_buildEntries he hep)
  · match r with
    | .ok version => exact puts_published
    | .error .preconditionFailed => exact (puts_quiet rfl).bind fun _ => hagain
    | .error .other =>
      refine (puts_quiet rfl).bind fun r => ?_
      match r with
      | .error _ => exact puts_quiet rfl
      | .ok none => exact puts_quiet rfl
      | .ok (some fresh) =>
        refine (puts_quiet rfl).bind fun r => ?_
        match r with
        | .error _ => exact puts_quiet rfl
        | .ok none => exact puts_quiet rfl
        | .ok (some version) => exact puts_published

theorem puts_publishVerified {batch : List PublishRequest} {verified : List Verified}
    {again : Task Unit} (hf : ∀ packs seg, f (.push packs seg)) (hagain : again.Puts f) :
    (publishVerified cfg h batch verified m known again).Puts f := by
  unfold publishVerified
  dsimp only
  split
  · exact puts_quiet rfl
  · have hupload : (uploadPacks batch).Puts f := by
      unfold uploadPacks
      split
      · exact puts_quiet rfl
      · exact Prog.within_pure
    refine hupload.bind fun upload => ends_claimLogSlot.within fun claim hclaim => ?_
    match upload, claim, hclaim with
    | .error _, _, _ => exact puts_quiet rfl
    | .ok (), .error _, _ => exact puts_quiet rfl
    | .ok (), .ok .contended, _ => exact hagain
    | .ok (), .ok (.claimed s), hclaim =>
      exact puts_publishClaimed hf (Nat.lt_of_succ_le (hclaim s rfl).1) hagain

theorem puts_publishAttempt {batch : List PublishRequest} {attempts : ℕ} {again : Task Unit}
    (hf : ∀ packs seg, f (.push packs seg)) (hagain : again.Puts f) :
    (publishAttempt cfg h batch attempts again).Puts f := by
  have hsync : (syncFirst h batch attempts).Puts f := by
    unfold syncFirst
    split
    · exact puts_syncRefsPhase
    · exact Prog.within_pure
  refine hsync.bind fun r => ?_
  match r with
  | .error _ => exact puts_quiet rfl
  | .ok () =>
    refine (puts_quiet rfl).bind fun m => (puts_quiet rfl).bind fun known =>
      (puts_quiet rfl).bind fun r => ?_
    match r with
    | .error _ => exact puts_quiet rfl
    | .ok refs => exact (puts_quiet rfl).bind fun floor => puts_publishVerified hf hagain

theorem puts_processBatch {batch : List PublishRequest} (hf : ∀ packs seg, f (.push packs seg)) :
    (processBatch cfg h batch).Puts f := by
  have hfrom : ∀ left attempts, (processBatchFrom cfg h batch left attempts).Puts f := by
    intro left
    induction left with
    | zero => exact fun _ => puts_publishAttempt hf (puts_quiet rfl)
    | succ left ih => exact fun attempts => puts_publishAttempt hf (ih (attempts + 1))
  exact (puts_quiet rfl).bind fun _ => (hfrom _ _).bind fun _ => puts_quiet rfl

theorem puts_adoptSlot {time version result : ℕ} :
    (adoptSlot h s time m version result).Puts f :=
  puts_adopt ((puts_quiet rfl).bind fun _ => (puts_quiet rfl).bind fun _ =>
    (puts_quiet rfl).andThen fun _ => free_sweepBurned.puts.bind fun _ => Prog.within_pure)

theorem writesNoRefs_singleton {e : LogEntry} (he : s.slot.entries = [e]) (hw : e.writes = []) :
    WritesNoRefs (some s.slot) := by
  intro s' hs' e' he'
  cases hs'
  rw [he, List.mem_singleton] at he'
  rw [he', hw]

/-- The COMPACT entry of `publish_compact`: its pack and what it supersedes are the arguments. -/
def Compacts (pack : PackInfo) (supersedes : List String) (op : ManifestOp) : Prop :=
  ∀ p sup seg, op = .compact p sup seg → p.checksum = pack.checksum ∧ sup = supersedes

theorem puts_compactClaimed {pack : PackInfo} {supersedes : List String} {tier time now : ℕ}
    {again : Task (Except WalError ℕ)} (hs : m.headSeq < s.slot.seq)
    (he : s.slot.entries = [compactEntry pack supersedes tier now s.slot.seq])
    (hagain : again.Puts (Compacts pack supersedes)) :
    (compactClaimed h pack supersedes tier time m known s again).Puts
      (Compacts pack supersedes) := by
  refine Prog.Within.bind (Prog.within_perform.mpr ?_) fun r => ?_
  · refine ⟨⟨hs.le, hs, writesNoRefs_singleton he rfl⟩, fun p sup seg hop => ?_⟩
    cases hop
    exact ⟨rfl, rfl⟩
  · match r with
    | .ok version => exact puts_adoptSlot
    | .error .preconditionFailed => exact (puts_quiet rfl).bind fun _ => hagain
    | .error .other =>
      refine (puts_quiet rfl).bind fun r => ?_
      match r with
      | .error _ => exact Prog.within_pure
      | .ok none => exact Prog.within_pure
      | .ok (some fresh) =>
        refine (puts_quiet rfl).andThen fun r => ?_
        match r with
        | none => exact Prog.within_pure
        | some version => exact puts_adoptSlot

theorem puts_compactAttempt {pack : PackInfo} {supersedes : List String} {tier attempts : ℕ}
    {again : Task (Except WalError ℕ)} (hagain : again.Puts (Compacts pack supersedes)) :
    (compactAttempt cfg h pack supersedes tier attempts again).Puts
      (Compacts pack supersedes) := by
  have hsync : (if 0 < attempts then syncServe h else pure (.ok ())).Puts
      (Compacts pack supersedes) := by
    split
    · exact puts_syncServe
    · exact Prog.within_pure
  refine hsync.andThen fun _ => (puts_quiet rfl).bind fun m => (puts_quiet rfl).bind fun known =>
    (puts_quiet rfl).bind fun time => ends_claim fun r hr => ?_
  cases r with
  | contended => exact hagain
  | claimed s =>
    obtain ⟨hle, now, he⟩ := hr s rfl
    exact puts_compactClaimed (Nat.lt_of_succ_le hle) he hagain

theorem puts_publishCompact {pack : PackInfo} {supersedes : List String} {tier : ℕ} :
    (publishCompact cfg h pack supersedes tier).Puts (Compacts pack supersedes) := by
  have hfrom : ∀ left attempts, (publishCompactFrom cfg h pack supersedes tier left attempts).Puts
      (Compacts pack supersedes) := by
    intro left
    induction left with
    | zero => exact fun _ => puts_compactAttempt Prog.within_pure
    | succ left ih => exact fun attempts => puts_compactAttempt (ih (attempts + 1))
  exact (puts_quiet rfl).andThen fun _ => hfrom _ _

theorem puts_settingsClaimed {doc : RepoSettings} {time now : ℕ}
    {again : Task (Except WalError ℕ)} (hf : ∀ doc seg, f (.settings doc seg))
    (hs : m.headSeq < s.slot.seq) (he : s.slot.entries = [settingsEntry doc now s.slot.seq])
    (hagain : again.Puts f) : (settingsClaimed h doc time m known s again).Puts f := by
  refine Prog.Within.bind (Prog.within_perform.mpr ?_) fun r => ?_
  · exact ⟨⟨hs.le, writesNoRefs_singleton he rfl⟩, hf _ _⟩
  · match r with
    | .ok version => exact puts_adoptSlot
    | .error .preconditionFailed => exact (puts_quiet rfl).bind fun _ => hagain
    | .error .other => exact Prog.within_pure

theorem puts_publishSettings {toml author message : String}
    (hf : ∀ doc seg, f (.settings doc seg)) :
    (publishSettings cfg h toml author message).Puts f := by
  have hattempt : ∀ again : Task (Except WalError ℕ), again.Puts f →
      (settingsAttempt cfg h toml author message again).Puts f := by
    intro again hagain
    refine puts_syncRefsPhase.andThen fun _ => (puts_quiet rfl).bind fun m =>
      (puts_quiet rfl).bind fun known => (puts_quiet rfl).bind fun time => ends_claim fun r hr => ?_
    cases r with
    | contended => exact hagain
    | claimed s =>
      obtain ⟨hle, now, he⟩ := hr s rfl
      exact puts_settingsClaimed hf (Nat.lt_of_succ_le hle) he hagain
  have hfrom : ∀ left attempts,
      (publishSettingsFrom cfg h toml author message left attempts).Puts f := by
    intro left
    induction left with
    | zero => exact fun _ => hattempt _ Prog.within_pure
    | succ left ih => exact fun attempts => hattempt _ (ih (attempts + 1))
  exact hfrom _ _

theorem puts_bareCas {op : ManifestOp} {applied : Option ℕ} {again : Task (Except WalError Unit)}
    (hop : PutFrom m op none ∧ f op) (hagain : again.Puts f) :
    (bareCas h m known op applied again).Puts f := by
  refine Prog.Within.bind (Prog.within_perform.mpr hop) fun r => ?_
  match r with
  | .ok version =>
    exact puts_adopt ((puts_quiet rfl).bind fun _ => puts_quiet rfl)
  | .error .preconditionFailed => exact hagain
  | .error .other => exact Prog.within_pure

theorem puts_annotatePackImpl {checksum : String} {rev bitmap commitGraph : Bool}
    (hf : f (.annotate checksum rev bitmap commitGraph)) :
    (annotatePackImpl cfg h checksum rev bitmap commitGraph).Puts f := by
  have hattempt : ∀ again : Task (Except WalError Unit), again.Puts f →
      (annotateAttempt h checksum rev bitmap commitGraph again).Puts f := by
    intro again hagain
    refine (puts_quiet rfl).bind fun m => (puts_quiet rfl).bind fun known => ?_
    split
    · exact puts_bareCas ⟨rfl, hf⟩ hagain
    · exact Prog.within_pure
  have hfrom : ∀ left attempts,
      (annotatePackFrom h checksum rev bitmap commitGraph left attempts).Puts f := by
    intro left
    induction left with
    | zero => exact fun _ => hattempt _ Prog.within_pure
    | succ left ih =>
      exact fun attempts => hattempt _ (puts_syncRefsPhase.andThen fun _ => ih (attempts + 1))
  refine puts_syncRefsPhase.andThen fun _ => (puts_quiet rfl).bind fun m => ?_
  split
  · exact (puts_quiet rfl).andThen fun _ => hfrom _ _
  · exact Prog.within_pure

theorem puts_checkpointCas {seq : ℕ} (hf : ∀ cp, f (.checkpoint cp)) (left attempts : ℕ) :
    (checkpointCas h seq left attempts).Puts f := by
  have hattempt : ∀ again : Task (Except WalError Unit), again.Puts f →
      (checkpointAttempt h seq again).Puts f := by
    intro again hagain
    refine (puts_quiet rfl).bind fun m => (puts_quiet rfl).bind fun known => ?_
    split
    · exact Prog.within_pure
    · exact puts_bareCas ⟨rfl, hf _⟩ hagain
  induction left generalizing attempts with
  | zero => exact hattempt _ Prog.within_pure
  | succ left ih => exact hattempt _ (puts_syncRefsPhase.andThen fun _ => ih (attempts + 1))

theorem puts_writeCheckpoint (hf : ∀ cp, f (.checkpoint cp)) : (writeCheckpoint cfg h).Puts f := by
  have hat : ∀ m, (writeCheckpointAt cfg h m).Puts f := by
    intro m
    unfold writeCheckpointAt
    split
    · exact Prog.within_pure
    · split
      · exact Prog.within_pure
      · refine (puts_quiet rfl).andThen fun snap => (puts_quiet rfl).bind fun refsPut =>
          (puts_quiet rfl).bind fun cpPut => ?_
        exact Task.Puts.andThen Prog.within_pure fun _ =>
          Task.Puts.andThen Prog.within_pure fun _ => puts_checkpointCas hf _ _
  have hproven : ∀ m, (writeCheckpoint.writeCheckpointProven cfg h m).Puts f := by
    intro m
    refine free_refsProven.puts.bind fun proven => ?_
    cases proven with
    | true => exact hat m
    | false => exact Prog.within_pure
  refine puts_syncRefsPhase.andThen fun _ => (puts_quiet rfl).bind fun m =>
    free_refsProven.puts.bind fun proven => ?_
  cases proven with
  | true => exact hproven m
  | false =>
    exact puts_rebuildRefs.andThen fun _ => (puts_quiet rfl).bind fun m => hproven m

theorem puts_enter {p : Task α} (hp : p.Puts f) : (enter h p).Puts f :=
  (puts_quiet rfl).bind fun _ => hp.bind fun _ => Prog.within_pure

end Writers

end Walgit
