import Walgit.Calls

/-!
# An apply keeps the refs near the fold

The phases of an apply under the mutex, as assertions on the handle's core:
before it, the refs are proven or will be rebuilt; while it runs the proof flag
is down; each load or replay leaves the refs near a known seq; at the end they
are near the head of the manifest applied, and the flag may go up again.
-/

namespace Walgit

open Interleaving Replay

variable {L : List Hazard} {t h : ℕ} {m M : Manifest} {R : World → Prop}

def Ready (L : List Hazard) (σ : World) (hd : Handle) : Prop :=
  ExactLevel L → hd.verified = true → Settled L σ hd

/-- The refs are near `q`, by entries up to `b` under the condition `p`. -/
structure NearAt (p : Prop) (q b : ℕ) (σ : World) (hd : Handle) : Prop where
  le : q ≤ σ.head
  near : ∃ k ≤ σ.head, NearFold σ.log hd.refs q k ∧ (p → k ≤ b)

/-- The proof flag is down and the manifest field is `M`. -/
def Down (M : Manifest) (_ : World) (hd : Handle) : Prop :=
  hd.manifest = M ∧ hd.verified = false

section Frozen

theorem frozen_core {p : Manifest → RepoState → Bool → Prop} :
    Frozen L fun _ hd => p hd.manifest hd.state hd.verified := by
  intro σ σ' hd hd' _ _ _ hs hp
  rwa [hs.manifest, hs.state, hs.verified]

theorem frozen_down : Frozen L (Down M) :=
  frozen_core (p := fun m _ v => m = M ∧ v = false)

theorem frozen_headOk {b : ℕ} : Frozen L fun σ hd => HeadOk σ.log hd.refs b := by
  intro σ σ' hd hd' _ _ he hs hh
  rw [hs.refs]
  exact hh.imp_right fun ht => he.touched (Nat.le_refl b) ht

theorem frozen_nearAt {p : Prop} {q b : ℕ} : Frozen L (NearAt p q b) := by
  rintro σ σ' hd hd' _ _ he hs ⟨hq, k, hk, hn, hb⟩
  refine ⟨hq.trans he.head, k, hk.trans he.head, ?_, hb⟩
  rw [hs.refs]
  exact he.near hq hn

theorem frozen_nearApplied {b : ℕ} :
    Frozen L fun σ hd => NearAt (SnapLevel L) hd.state.appliedSeq b σ hd := by
  intro σ σ' hd hd' hi hh he hs hn
  rw [hs.state]
  exact frozen_nearAt σ σ' hd hd' hi hh he hs hn

theorem frozen_ready : Frozen L (Ready L) := by
  intro σ σ' hd hd' hi hh he hs hr hX hv
  have hv : hd.verified = true := hs.verified.symm.trans hv
  exact ((hr hX hv).extends (hh.headSeq_le hi) he).of_same hs

end Frozen

theorem Ready.of_down {σ : World} {hd : Handle} (h : hd.verified = false) : Ready L σ hd := by
  intro _ hv
  rw [h] at hv
  cases hv

theorem HandleInv.of_down {σ : World} {hd hd' : Handle} (hinv : HandleInv L σ hd)
    (hmut : hd'.syncMutex = some t) (hm : hd'.manifest = hd.manifest)
    (hv : hd'.version = hd.version) (hdown : RefsLevel L → hd'.verified = false)
    (hhead : RefsLevel L → HeadOk σ.log hd'.refs σ.head) : HandleInv L σ hd' where
  pair := by
    rw [hm, hv]
    exact hinv.pair
  headOk := hhead
  near hR hver := by
    rw [hdown hR] at hver
    cases hver
  settled _ hnone := by
    rw [hmut] at hnone
    cases hnone

section Loads

/-- A snapshot whose target of `HEAD`, if it has one, is no stranger to the log. -/
def HeadKnown (snap : RefState) (σ : World) : Prop :=
  snap .head = none ∨ HeadOk σ.log snap σ.head

theorem headOk_load {σ : World} {s snap : RefState} {b : ℕ} (hs : HeadOk σ.log s b)
    (hn : snap .head = none ∨ HeadOk σ.log snap b) :
    HeadOk σ.log (loadRefSnapshot s snap) b := by
  rcases hn with hn | hn | hn
  · rcases hs with hs | hs
    · left
      change (snap .head).or (s .head) = _
      rw [hn, hs]
      rfl
    · exact .inr hs
  · left
    change (snap .head).or (s .head) = _
    rw [hn]
    rfl
  · exact .inr hn

theorem headOk_half {σ : World} {s snap : RefState} {b : ℕ} (hs : HeadOk σ.log s b) :
    HeadOk σ.log (halfLoaded s snap) b :=
  hs

/-- Loading a stored snapshot leaves the refs near its seq, whatever they were. -/
theorem near_load {σ : World} {s snap : RefState} {q : ℕ} (hs : SnapOk L σ q snap) :
    ∃ k ≤ σ.head, NearFold σ.log (loadRefSnapshot s snap) q k ∧ (SnapLevel L → k ≤ q) := by
  obtain ⟨k, hk, hn, hX⟩ : ∃ k ≤ σ.head, NearFold σ.log snap q k ∧ (SnapLevel L → k ≤ q) := by
    by_cases hX : SnapLevel L
    · refine ⟨q, hs.le, ?_, fun _ => Nat.le_refl q⟩
      rw [hs.exact hX]
      exact near_upto
    · obtain ⟨k, hk, hn⟩ := hs.near
      exact ⟨k, hk, hn, fun h => absurd h hX⟩
  refine ⟨k, hk, fun key hkey => ?_, hX⟩
  have hkey := hn key hkey
  cases key with
  | ref name => exact hkey
  | head =>
    have hsome : (foldUpto σ.log q .head).isSome := foldUpto_head
    obtain ⟨x, hx⟩ := Option.isSome_iff_exists.mp hsome
    change snap .head = foldUpto σ.log q .head at hkey
    change (snap .head).or (s .head) = foldUpto σ.log q .head
    rw [hkey, hx]
    rfl

theorem Inv.foldUpto_zero {σ : World} (hi : Inv L σ) : foldUpto σ.log 0 = RefState.init := by
  have hnil : (σ.log.filter fun e => decide (e.seq ≤ 0)) = [] := by
    refine List.filter_eq_nil_iff.mpr fun e he => ?_
    have := (hi.mem_log he).1
    simp only [decide_eq_true_eq]
    omega
  rw [foldUpto, upto, hnil]
  rfl

/-- Loading nothing leaves every ref absent and `HEAD` where the log may have put it. -/
theorem near_load_empty {σ : World} {s : RefState} {b : ℕ} (hi : Inv L σ)
    (hs : HeadOk σ.log s b) : NearFold σ.log (loadRefSnapshot s .empty) 0 b := by
  intro key hkey
  change _ = foldUpto σ.log 0 key
  rw [hi.foldUpto_zero]
  cases key with
  | ref name => rfl
  | head => exact hs.resolve_right hkey

/-- What a load of `snap` at `q` needs and will leave. -/
def Loadable (L : List Hazard) (m M : Manifest) (q : ℕ) (snap : RefState) (σ : World)
    (hd : Handle) : Prop :=
  Down M σ hd ∧ HeadKnown snap σ ∧
    NearAt (SnapLevel L) q m.headSeq σ { hd with refs := loadRefSnapshot hd.refs snap }

/-- The refs are near the applied seq, which has not passed the manifest's head. -/
def Loaded (L : List Hazard) (m M : Manifest) (σ : World) (hd : Handle) : Prop :=
  Down M σ hd ∧ hd.state.appliedSeq ≤ m.headSeq ∧
    NearAt (SnapLevel L) hd.state.appliedSeq m.headSeq σ hd

theorem frozen_loaded : Frozen L (Loaded L m M) :=
  frozen_and frozen_down (frozen_and (frozen_core (p := fun _ st _ => st.appliedSeq ≤ m.headSeq))
    frozen_nearApplied)

def resultOf {α β : Type} (ok bad : World → Handle → Prop) :
    Except α β → World → Handle → Prop
  | .ok _ => ok
  | .error _ => bad

theorem frozen_resultOf {α β : Type} {X Y : World → Handle → Prop} (hX : Frozen L X)
    (hY : Frozen L Y) (r : Except α β) : Frozen L (resultOf X Y r) := by
  cases r with
  | ok a => exact hX
  | error e => exact hY

theorem spec_loadSnapshotAt {q : ℕ} {snap : RefState} (hR : Calm L t R) (hq : q ≤ m.headSeq) :
    Spec L t (loadSnapshotAt h q snap) (Under L t h R (Loadable L m M q snap))
      fun r => Under L t h R (resultOf (Loaded L m M) (Down M) r) := by
  unfold loadSnapshotAt
  refine Spec.andThen (R := fun r => Under L t h R (resultOf (fun σ hd =>
    Down M σ hd ∧ NearAt (SnapLevel L) q m.headSeq σ hd) (Down M) r)) ?_
      (fun _ _ _ hx => hx) fun _ => ?_
  · refine Spec.held (o := .loadRefSnapshot h snap) (fun _ hm => hm)
      (fun c hd => hd.setRefs c (loadRefSnapshot hd.refs snap)
      (halfLoaded hd.refs snap)) (fun _ _ => rfl) hR
      (frozen_resultOf (frozen_and frozen_down frozen_nearAt) frozen_down) ?_
    intro σ c hd hi _ _ _ hm hinv hX
    unfold Handle.setRefs
    cases hc : c.outcome with
    | ok =>
      refine ⟨hm, Nat.le_refl _, hinv.of_down hm rfl rfl (fun hL => (hX hL).1.2) ?_, fun hL => ?_⟩
      · exact fun hL => headOk_load (hinv.headOk hL) (hX hL).2.1
      · exact ⟨(hX hL).1, (hX hL).2.2⟩
    | err => exact ⟨hm, Nat.le_refl _, hinv, fun hL => (hX hL).1⟩
    | errApplied =>
      refine ⟨hm, Nat.le_refl _, hinv.of_down hm rfl rfl (fun hL => (hX hL).1.2) ?_, ?_⟩
      · exact fun hL => headOk_half (hinv.headOk hL)
      · exact fun hL => (hX hL).1
  · refine Spec.bind (R := fun _ => Under L t h R (Loaded L m M)) ?_ fun _ =>
      Spec.ret fun _ _ hx => hx
    refine Spec.held (o := .setApplied h q) (fun _ _ => trivial)
      (fun _ hd => ((), { hd with state.appliedSeq := q }))
      (fun _ _ => rfl) hR (fun _ => frozen_loaded) ?_
    intro σ c hd hi _ _ _ hm hinv hX
    refine ⟨hm, Nat.le_refl _, hinv.of_down hm rfl rfl (fun hL => (hX hL).1.2) ?_, fun hL => ?_⟩
    · exact fun hL => hinv.headOk hL
    · exact ⟨(hX hL).1, hq, (hX hL).2.le, (hX hL).2.near⟩

end Loads

section Replay

variable {a : ℕ} {es : List LogEntry} {keys : List ℕ}

/-- What a fetch of the segments `keys` returned: their committed entries. -/
def Fetched (keys : List ℕ) (es : List LogEntry) (σ : World) : Prop :=
  ∀ E : ℕ → List LogEntry, (∀ s, σ.Committed s → E s.seq = s.entries) → es = keys.flatMap E

def AllCommitted (keys : List ℕ) (σ : World) : Prop :=
  ∀ key ∈ keys, ∃ s, σ.Committed s ∧ s.seq = key

theorem Extends.committed {σ σ' : World} (he : Extends σ σ') {s : Slot} (hs : σ.Committed s) :
    σ'.Committed s := by
  obtain ⟨c, hc, hcs⟩ := hs
  exact ⟨c, he.mem c hc, hcs⟩

theorem lasting_fetched : Lasting L (Fetched keys es) :=
  .of_extends fun _ _ _ _ he hf E hE => hf E fun s hs => hE s (he.committed hs)

theorem lasting_allCommitted : Lasting L (AllCommitted keys) :=
  .of_extends fun _ _ _ _ he hf key hk =>
    let ⟨s, hs, hq⟩ := hf key hk
    ⟨s, he.committed hs, hq⟩

theorem spec_fetchSegments {P : World → Prop} (hP : Keeping L t P) :
    Spec L t (fetchSegments keys) (fun σ => P σ ∧ AllCommitted keys σ)
      fun r σ => P σ ∧ ∀ es, r = .ok es → Fetched keys es σ := by
  induction keys generalizing P with
  | nil =>
    refine Spec.ret fun σ _ hp => ⟨hp.1, fun es he E _ => ?_⟩
    cases he
    rfl
  | cons key keys ih =>
    unfold fetchSegments
    have hall : Keeping L t fun σ => P σ ∧ AllCommitted (key :: keys) σ :=
      hP.and lasting_allCommitted.calm.stable
    refine Spec.andThen (R := fun r σ => (P σ ∧ AllCommitted (key :: keys) σ) ∧
      ∀ es, r = .ok es → Fetched [key] es σ) ?_ ?_ fun es => ?_
    · refine Spec.read rfl hall (fun r => .all fun es => lasting_fetched.imp) ?_
      rintro σ c r hi ⟨-, hc⟩ - he es rfl E hE
      obtain ⟨s, hs, rfl⟩ := hc key List.mem_cons_self
      obtain ⟨t', ho⟩ := hi.stored_of hs
      have hr := congrArg Prod.fst (Option.some.inj he)
      rw [ho] at hr
      obtain rfl : es = s.entries := Choice.get_ok hr
      rw [List.flatMap_cons, List.flatMap_nil, List.append_nil, hE s hs]
    · rintro e σ - ⟨⟨hp, -⟩, -⟩
      exact ⟨hp, fun es he => by cases he⟩
    · refine Spec.andThen ((ih (P := fun σ => P σ ∧ Fetched [key] es σ)
        (hP.and lasting_fetched.calm.stable)).pre ?_) ?_ fun rest => Spec.ret ?_
      · rintro σ - ⟨⟨hp, hc⟩, hf⟩
        exact ⟨⟨hp, hf es rfl⟩, fun k hk => hc k (List.mem_cons_of_mem key hk)⟩
      · rintro e σ - ⟨⟨hp, -⟩, -⟩
        exact ⟨hp, fun es he => by cases he⟩
      · rintro σ - ⟨⟨hp, hf⟩, hrest⟩
        refine ⟨hp, fun all he E hE => ?_⟩
        cases he
        rw [hf E hE, hrest rest rfl E hE, List.flatMap_cons, List.flatMap_nil, List.append_nil,
          List.flatMap_cons]

/-- The entries of the log past `a` up to the manifest's head. -/
def Tail (m : Manifest) (a : ℕ) (es : List LogEntry) (σ : World) : Prop :=
  Has m σ ∧ es = between LogEntry.seq σ.log a m.headSeq

theorem Has.headSeq_le {σ : World} (hm : Has m σ) (hi : Inv L σ) : m.headSeq ≤ σ.head := by
  obtain ⟨c, hc, rfl⟩ := hm
  exact hi.headSeq_le hc

theorem Extends.has {σ σ' : World} (he : Extends σ σ') (hm : Has m σ) : Has m σ' := by
  obtain ⟨c, hc, hcm⟩ := hm
  exact ⟨c, he.mem c hc, hcm⟩

theorem lasting_tail : Lasting L (Tail m a es) := by
  refine .of_extends fun σ σ' hi _ he ⟨hm, hes⟩ => ⟨he.has hm, ?_⟩
  obtain ⟨new, hlog, hnew⟩ := he.log
  have hnil : between LogEntry.seq new a m.headSeq = [] := by
    refine List.filter_eq_nil_iff.mpr fun e h => ?_
    have := hnew e h
    have := hm.headSeq_le hi
    simp only [decide_eq_true_eq]
    omega
  rw [hes, hlog, between, between, List.filter_append]
  change _ = _ ++ between LogEntry.seq new a m.headSeq
  rw [hnil, List.append_nil]

theorem replayable_from (hr : ensureReplayable m a m.headSeq = .ok ()) (ha : a < m.headSeq) :
    m.checkpointSeq ≤ a := by
  unfold ensureReplayable at hr
  rw [if_neg (by omega)] at hr
  simp only at hr
  split at hr
  · cases hr
  · rename_i hc
    unfold Manifest.checkpointSeq
    cases hcp : m.checkpoint with
    | none => exact Nat.zero_le _
    | some cp =>
      rw [hcp] at hc
      simp only [Option.elim_some] at hc ⊢
      omega

theorem sortEntries_of_sorted (hs : es.Pairwise fun a b => a.seq < b.seq) :
    sortEntries es = es :=
  (hs.imp fun h => Nat.le_of_lt h).insertionSort_eq

theorem tail_of_fetched {σ : World} (hi : Inv L σ) (hL : RefsLevel L) (hm : Has m σ)
    (hcp : m.checkpointSeq ≤ a)
    (hf : Fetched ((m.logSegments.filter fun s =>
      a < s.lastSeq ∧ s.firstSeq ≤ m.headSeq).map LogSegmentRef.key) es σ) :
    Tail m a (sortEntries (es.filter fun e => a < e.seq ∧ e.seq ≤ m.headSeq)) σ := by
  refine ⟨hm, ?_⟩
  obtain ⟨c, hc, rfl⟩ := hm
  have hfetched := hi.linked.fetched (hi.folding hL) hc
    (fun s hs => hi.entriesAt (mem_slotsOf.mp hs)) hcp
  rw [hf _ fun s hs => hi.entriesAt hs, hfetched]
  exact sortEntries_of_sorted (hi.linked.log_pairwise.filter _)

theorem headOk_foldUpto {log : List LogEntry} {q : ℕ} (h0 : ∀ e ∈ log, 0 < e.seq) :
    HeadOk log (foldUpto log q) q := by
  by_cases ht : Touched LogEntry.seq LogEntry.writes log 0 q .head
  · exact .inr ht
  · refine .inl (replay_untouched fun w hw hk => ht ?_)
    obtain ⟨e, he, hw⟩ := List.mem_flatMap.mp hw
    obtain ⟨he, hq⟩ := List.mem_filter.mp he
    exact ⟨e, he, h0 e he, of_decide_eq_true hq, w, hw, hk⟩

theorem headOk_of_near {σ : World} {s : RefState} {q k b : ℕ} (hi : Inv L σ)
    (hn : NearFold σ.log s q k) (hq : q ≤ b) (hk : k ≤ b) : HeadOk σ.log s b := by
  by_cases ht : Touched LogEntry.seq LogEntry.writes σ.log q k .head
  · obtain ⟨e, he, -, hek, hw⟩ := ht
    exact .inr ⟨e, he, (hi.mem_log he).1, hek.trans hk, hw⟩
  · have hfold := headOk_foldUpto (q := q) fun e he => (hi.mem_log he).1
    have heq := hn .head ht
    rcases hfold with hf | hf
    · exact .inl (heq.trans hf)
    · exact .inr (touched_mono hq hf)

theorem spec_noteEntryTime {X : World → Handle → Prop} {time : ℕ} (hR : Calm L t R)
    (hX : Frozen L X) :
    Spec L t (call (.noteEntryTime h time)) (Under L t h R X) fun _ => Under L t h R X := by
  refine Spec.held (o := .noteEntryTime h time) (fun _ _ => trivial) (fun _ hd =>
    ((), { hd with lastEntryTime := some (max time (hd.lastEntryTime.getD 0)) }))
    (fun _ _ => rfl) hR (fun _ => hX) ?_
  intro σ c hd hi _ _ _ hm hinv hx
  refine ⟨hm, Nat.le_refl _, hinv.of_same ⟨rfl, rfl, rfl, rfl⟩ rfl id, fun hL => ?_⟩
  exact hX σ σ hd _ hi hinv (.of_commits_eq rfl) ⟨rfl, rfl, rfl, rfl⟩ (hx hL)

theorem spec_noteLastEntry {X : World → Handle → Prop} (hR : Calm L t R) (hX : Frozen L X) :
    Spec L t (noteLastEntry h es) (Under L t h R X) fun _ => Under L t h R X := by
  unfold noteLastEntry
  split
  · exact spec_noteEntryTime hR hX
  · exact Spec.ret fun _ _ hx => hx

/-- The flag is down and the refs have reached the manifest's head. -/
def Caught (L : List Hazard) (m M : Manifest) (σ : World) (hd : Handle) : Prop :=
  Down M σ hd ∧ NearAt (SnapLevel L) m.headSeq m.headSeq σ hd

theorem frozen_caught : Frozen L (Caught L m M) := frozen_and frozen_down frozen_nearAt

theorem near_tail {σ : World} {s : RefState} {k : ℕ} (hi : Inv L σ) (ht : Tail m a es σ)
    (ha : a ≤ m.headSeq) (hn : NearFold σ.log s a k) :
    NearFold σ.log (replayEntries LogEntry.writes s es) m.headSeq k := by
  rw [ht.2]
  exact Near.replayEntries hi.linked.log_pairwise ha hn

theorem spec_applyEntries (hR : Calm L t R) (ht : ∀ σ, R σ → RefsLevel L → Tail m a es σ)
    (ha : a ≤ m.headSeq) :
    Spec L t (applyEntries h es)
      (Under L t h R fun σ hd => Down M σ hd ∧ NearAt (SnapLevel L) a m.headSeq σ hd)
      fun r => Under L t h R (resultOf (Caught L m M) (Down M) r) := by
  unfold applyEntries
  simp only
  split
  · -- no entry of the tail writes a ref
    rename_i hnone
    refine Spec.ret fun σ hi ⟨hr, hx⟩ => ⟨hr, hx.imp fun hd _ hL hX => ⟨hX.1, ?_⟩⟩
    have htail := ht σ hr hL
    obtain ⟨k, hk, hn, hb⟩ := hX.2.near
    refine ⟨htail.1.headSeq_le hi, k, hk, ?_, hb⟩
    have := near_tail hi htail ha hn
    rwa [replayEntries, ← flatMap_refTxn, List.isEmpty_iff.mp hnone] at this
  · refine Spec.held (o := .applyRefTxnsOffline h (es.filterMap LogEntry.refTxn)) (fun _ hm => hm)
      (fun c hd => hd.applyRefTxnsOffline c (es.filterMap LogEntry.refTxn)) (fun _ _ => rfl) hR
      (frozen_resultOf frozen_caught frozen_down) ?_
    intro σ c hd hi hr _ _ hm hinv hX
    unfold Handle.applyRefTxnsOffline
    cases hs : applyRefTxnsOffline hd.refs (es.filterMap LogEntry.refTxn) with
    | none => exact ⟨hm, Nat.le_refl _, hinv, fun hL => (hX hL).1⟩
    | some s =>
      obtain rfl := applyRefTxnsOffline_eq hs
      have hnear : RefsLevel L → NearAt (SnapLevel L) m.headSeq m.headSeq σ
          { hd with refs := replayEntries LogEntry.writes hd.refs es } := fun hL => by
        obtain ⟨k, hk, hn, hb⟩ := (hX hL).2.near
        exact ⟨(ht σ hr hL).1.headSeq_le hi, k, hk, near_tail hi (ht σ hr hL) ha hn, hb⟩
      simp only [Handle.setRefs]
      cases c.outcome with
      | ok =>
        refine ⟨hm, Nat.le_refl _, hinv.of_down hm rfl rfl (fun hL => (hX hL).1.2) fun hL => ?_,
          fun hL => ⟨(hX hL).1, hnear hL⟩⟩
        obtain ⟨hle, k, hk, hn, -⟩ := hnear hL
        exact headOk_of_near hi hn hle hk
      | err => exact ⟨hm, Nat.le_refl _, hinv, fun hL => (hX hL).1⟩
      | errApplied =>
        exact ⟨hm, Nat.le_refl _, hinv.of_down hm rfl rfl (fun hL => (hX hL).1.2)
          fun hL => headOk_half (hinv.headOk hL), fun hL => (hX hL).1⟩

theorem allCommitted_of_listed {σ : World} {p : LogSegmentRef → Bool} (hi : Inv L σ)
    (hm : Has m σ) : AllCommitted ((m.logSegments.filter p).map LogSegmentRef.key) σ := by
  intro key hk
  obtain ⟨seg, hseg, rfl⟩ := List.mem_map.mp hk
  obtain ⟨c, hc, rfl⟩ := hm
  obtain ⟨older, hsuf, hl, -⟩ := hi.linked.split hc
  obtain ⟨s, hs, rfl⟩ := hl.listed (List.mem_filter.mp hseg).1
  obtain ⟨b, hb, hbs⟩ := mem_slotsOf.mp hs
  exact ⟨s, ⟨b, hsuf.subset hb, hbs⟩, rfl⟩

theorem spec_replayLog (hR : Calm L t R) (hm : ∀ σ, R σ → Has m σ) (ha : a < m.headSeq) :
    Spec L t (replayLog h m a m.headSeq)
      (Under L t h R fun σ hd => Down M σ hd ∧ NearAt (SnapLevel L) a m.headSeq σ hd)
      fun r => Under L t h R (resultOf (Caught L m M) (Down M) r) := by
  have hfroz : Frozen L fun σ hd => Down M σ hd ∧ NearAt (SnapLevel L) a m.headSeq σ hd :=
    frozen_and frozen_down frozen_nearAt
  unfold replayLog
  simp only
  refine Spec.andThen (R := fun r σ => Under L t h R (fun σ hd => Down M σ hd ∧
    NearAt (SnapLevel L) a m.headSeq σ hd) σ ∧ r = ensureReplayable m a m.headSeq)
    (Spec.ret fun _ _ hx => ⟨hx, rfl⟩) ?_ fun u => ?_
  · exact fun e σ _ hx => ⟨hx.1.1, hx.1.2.imp fun _ _ _ hX => hX.1⟩
  have hunder := (stable_under (h := h) hR hfroz).and
    (Discipline.Stable.const (p := .ok u = ensureReplayable m a m.headSeq))
  refine Spec.andThen ((spec_fetchSegments hunder).pre ?_) ?_ fun fetched => ?_
  · exact fun σ hi hx => ⟨hx, allCommitted_of_listed hi (hm σ hx.1.1)⟩
  · exact fun e σ _ hx => ⟨hx.1.1.1, hx.1.1.2.imp fun _ _ _ hX => hX.1⟩
  · split
    · exact Spec.ret fun σ _ hx => ⟨hx.1.1.1, hx.1.1.2.imp fun _ _ _ hX => hX.1⟩
    · refine Spec.pre (P := Under L t h (fun σ => R σ ∧ (RefsLevel L → Tail m a (sortEntries
        (fetched.filter fun e => a < e.seq ∧ e.seq ≤ m.headSeq)) σ)) fun σ hd =>
        Down M σ hd ∧ NearAt (SnapLevel L) a m.headSeq σ hd) ?_ ?_
      · have hR' := hR.and (S := fun σ => RefsLevel L → Tail m a (sortEntries
          (fetched.filter fun e => a < e.seq ∧ e.seq ≤ m.headSeq)) σ) lasting_tail.imp.calm
        refine Spec.bind (spec_noteLastEntry hR' hfroz) fun _ => ?_
        refine (spec_applyEntries hR' (fun σ hx hL => hx.2 hL) (Nat.le_of_lt ha)).post ?_
        exact fun r σ _ hx => ⟨hx.1.1, hx.2⟩
      · rintro σ hi ⟨⟨⟨hr, hx⟩, hok⟩, hf⟩
        refine ⟨⟨hr, fun hL => ?_⟩, hx⟩
        exact tail_of_fetched hi hL (hm σ hr) (replayable_from hok.symm ha) (hf fetched rfl)

end Replay

section Apply

def Even (L : List Hazard) (_ : World) (hd : Handle) : Prop :=
  Hazard.lockUnsettled ∈ L → hd.verified = true → hd.state.appliedSeq = hd.manifest.headSeq

theorem frozen_even : Frozen L (Even L) :=
  frozen_core (p := fun m st v => Hazard.lockUnsettled ∈ L → v = true → st.appliedSeq = m.headSeq)

structure Synced (L : List Hazard) (σ : World) (hd : Handle) : Prop where
  verified : hd.verified = true
  refs : SnapLevel L → hd.refs = foldUpto σ.log hd.manifest.headSeq
  applied : Hazard.lockUnsettled ∈ L → hd.state.appliedSeq = hd.manifest.headSeq

theorem frozen_synced : Frozen L (Synced L) := by
  intro σ σ' hd hd' hi hh he hs hy
  refine ⟨hs.verified.trans hy.verified, fun hS => ?_, fun hz => ?_⟩
  · rw [hs.refs, hs.manifest, he.foldUpto (hh.headSeq_le hi)]
    exact hy.refs hS
  · rw [hs.state, hs.manifest]
    exact hy.applied hz

def Ended (L : List Hazard) {α : Type} (r : Except WalError α) (σ : World) (hd : Handle) : Prop :=
  Ready L σ hd ∧ (isOk r = true → Synced L σ hd)

theorem frozen_ended {α : Type} {r : Except WalError α} : Frozen L (Ended L r) :=
  fun σ σ' hd hd' hi hh he hs hx => ⟨frozen_ready σ σ' hd hd' hi hh he hs hx.1,
    fun hr => frozen_synced σ σ' hd hd' hi hh he hs (hx.2 hr)⟩

variable {st : RepoState} {rebuilt force : Bool} {version : ℕ}

/-- The handle as it was locked, when `m` is about to be applied. -/
structure Begin (L : List Hazard) (m M : Manifest) (force : Bool) (σ : World) (hd : Handle) :
    Prop where
  manifest : hd.manifest = M
  revision : M.revision ≤ m.revision
  head : HeadOk σ.log hd.refs m.headSeq
  proven : force = false → hd.verified = true
  near : hd.verified = true → hd.state.appliedSeq ≤ M.headSeq ∧ ∃ k ≤ m.headSeq,
    NearFold σ.log hd.refs hd.state.appliedSeq k ∧ NearFold σ.log hd.refs M.headSeq k
  even : Even L σ hd
  ready : Ready L σ hd

/-- The flag is down; the refs are where the apply found them. -/
structure Begun (L : List Hazard) (m M : Manifest) (st : RepoState) (rebuilt : Bool) (σ : World)
    (hd : Handle) : Prop where
  down : Down M σ hd
  head : HeadOk σ.log hd.refs m.headSeq
  state : hd.state = st
  near : rebuilt = false → st.appliedSeq ≤ m.headSeq ∧
    NearAt (SnapLevel L) st.appliedSeq m.headSeq σ hd

theorem frozen_begin : Frozen L (Begin L m M force) := by
  intro σ σ' hd hd' hi hh he hs hb
  refine ⟨hs.manifest.trans hb.manifest, hb.revision, ?_, ?_, fun hv => ?_,
    frozen_even σ σ' hd hd' hi hh he hs hb.even, ?_⟩
  · exact frozen_headOk σ σ' hd hd' hi hh he hs hb.head
  · rw [hs.verified]
    exact hb.proven
  · obtain ⟨hle, k, hk, hn, hn'⟩ := hb.near (hs.verified.symm.trans hv)
    have hM : M.headSeq ≤ σ.head := hb.manifest ▸ hh.headSeq_le hi
    rw [hs.state, hs.refs]
    exact ⟨hle, k, hk, he.near (hle.trans hM) hn, he.near hM hn'⟩
  · exact frozen_ready σ σ' hd hd' hi hh he hs hb.ready

theorem frozen_begun : Frozen L (Begun L m M st rebuilt) := by
  intro σ σ' hd hd' hi hh he hs hb
  refine ⟨frozen_down σ σ' hd hd' hi hh he hs hb.down, ?_, hs.state.trans hb.state, fun hr => ?_⟩
  · exact frozen_headOk σ σ' hd hd' hi hh he hs hb.head
  · exact ⟨(hb.near hr).1, frozen_nearAt σ σ' hd hd' hi hh he hs (hb.near hr).2⟩

theorem loadable_snapshot {σ : World} {hd : Handle} {q : ℕ} {snap : RefState} (hi : Inv L σ)
    (hdown : Down M σ hd) (hs : SnapOk L σ q snap) (hq : q ≤ m.headSeq) :
    Loadable L m M q snap σ hd := by
  obtain ⟨k, hk, hn⟩ := hs.near
  refine ⟨hdown, .inr (headOk_of_near hi hn hs.le hk), hs.le, ?_⟩
  obtain ⟨k, hk, hn, hb⟩ := near_load (s := hd.refs) hs
  exact ⟨k, hk, hn, fun hX => (hb hX).trans hq⟩

theorem loadable_empty {σ : World} {hd : Handle} (hi : Inv L σ) (hm : Has m σ)
    (hdown : Down M σ hd) (hhead : HeadOk σ.log hd.refs m.headSeq) :
    Loadable L m M 0 .empty σ hd :=
  ⟨hdown, .inl rfl, Nat.zero_le _, m.headSeq, hm.headSeq_le hi, near_load_empty hi hhead,
    fun _ => Nat.le_refl _⟩

theorem lasting_snapOk {q : ℕ} {snap : RefState} : Lasting L fun σ => SnapOk L σ q snap :=
  .of_extends fun _ _ _ _ he hs => hs.extends he

theorem spec_loadStart {need : Bool} (hR : Calm L t R) (hm : ∀ σ, R σ → Has m σ)
    (hcp : m.checkpointSeq ≤ m.headSeq) :
    Spec L t (loadStart h m need rebuilt) (Under L t h R (Begun L m M st rebuilt))
      fun r => Under L t h R (resultOf (Loaded L m M) (Down M) r) := by
  unfold loadStart
  split
  · refine Spec.andThen (R := fun r => Under L t h (fun σ => R σ ∧ ∀ snap, r = .ok (some snap) →
      RefsLevel L → SnapOk L σ m.checkpointSeq snap) (Down M)) ?_ ?_ fun o => ?_
    · refine Spec.learn (o := .getCheckpointRefs m.checkpointSeq) rfl hR
        (fun r => .all fun snap => lasting_snapOk.imp.imp) (fun _ => frozen_down) ?_
      intro σ c r hd hi hr he hh hinv hX
      refine ⟨?_, fun hL => (hX hL).down⟩
      rintro snap rfl hL
      have hr := Choice.get_ok (congrArg Prod.fst (Option.some.inj he))
      exact hi.snaps hL _ _ hr.symm
    · exact fun e σ _ hx => ⟨hx.1.1, hx.2⟩
    · cases o with
      | none => exact Spec.ret fun σ _ hx => ⟨hx.1.1, hx.2⟩
      | some snap =>
        refine Spec.pre (spec_loadSnapshotAt hR hcp) ?_
        intro σ hi hx
        refine ⟨hx.1.1, hx.2.imp fun hd _ hL hdown => ?_⟩
        exact loadable_snapshot hi hdown (hx.1.2 snap rfl hL) hcp
  · split
    · refine Spec.pre (spec_loadSnapshotAt hR (Nat.zero_le _)) ?_
      intro σ hi hx
      exact ⟨hx.1, hx.2.imp fun hd _ _ hb => loadable_empty hi (hm σ hx.1) hb.down hb.head⟩
    · rename_i hreb
      refine Spec.ret fun σ hi hx => ⟨hx.1, hx.2.imp fun hd _ _ hb => ?_⟩
      have hn := hb.near (by simpa using hreb)
      rw [← hb.state] at hn
      exact ⟨hb.down, hn⟩

theorem spec_applyTail (hR : Calm L t R) (hm : ∀ σ, R σ → Has m σ) :
    Spec L t (applyTail h m st.appliedSeq rebuilt) (Under L t h R (Begun L m M st rebuilt))
      fun r => Under L t h R (resultOf (Caught L m M) (Down M) r) := by
  unfold applyTail
  simp only
  have hdown : ∀ {σ : World}, Under L t h R (Begun L m M st rebuilt) σ →
      Under L t h R (Down M) σ := fun hx => ⟨hx.1, hx.2.imp fun _ _ _ hb => hb.down⟩
  split
  · exact Spec.ret fun σ _ hx => hdown hx
  rename_i hcp
  refine Spec.andThen (R := fun _ => Under L t h R (Begun L m M st rebuilt))
    (Spec.ret fun _ _ hx => hx) (fun _ _ _ hx => hdown hx) fun _ => ?_
  refine Spec.andThen (Spec.skip rfl (stable_under hR frozen_begun)) (fun _ _ _ hx => hdown hx)
    fun _ => ?_
  refine Spec.andThen (spec_loadStart hR hm (by omega)) (fun _ _ _ hx => hx) fun _ => ?_
  refine Spec.bind (R := fun st' => Under L t h R fun σ hd => Loaded L m M σ hd ∧ hd.state = st')
    ?_ fun st' => ?_
  · refine Spec.heldRead (o := .state h) (fun _ => trivial) (fun _ hd => hd.state) (fun _ _ => rfl)
      hR.stable
      (fun st' => frozen_and frozen_loaded (frozen_core (p := fun _ x _ => x = st'))) ?_
    exact fun σ c hd _ _ _ _ hX => ⟨hX, rfl⟩
  · split
    · rename_i ha
      refine (spec_replayLog hR hm ha).pre ?_
      refine fun σ _ hx => ⟨hx.1, hx.2.imp fun hd _ _ hX => ⟨hX.1.1, ?_⟩⟩
      rw [← hX.2]
      exact hX.1.2.2
    · rename_i ha
      refine Spec.ret fun σ _ hx => ⟨hx.1, hx.2.imp fun hd _ _ hX => ⟨hX.1.1, ?_⟩⟩
      have hle := hX.1.2.1
      have hn := hX.1.2.2
      rw [hX.2] at hle hn
      have heq : st'.appliedSeq = m.headSeq := by omega
      rwa [heq] at hn

/-- The apply is done and recorded; the flag is still down. -/
def Applied (L : List Hazard) (m M : Manifest) (σ : World) (hd : Handle) : Prop :=
  Caught L m M σ hd ∧ hd.state.appliedSeq = m.headSeq

theorem frozen_applied : Frozen L (Applied L m M) :=
  frozen_and frozen_caught (frozen_core (p := fun _ st _ => st.appliedSeq = m.headSeq))

theorem Begin.begun {σ : World} {hd : Handle} (hi : Inv L σ) (hinv : HandleInv L σ hd)
    (hL : RefsLevel L) (hm : Has m σ) (hb : Begin L m M force σ hd) :
    Begun L m M hd.state (force || decide (m.headSeq < hd.state.appliedSeq) ||
      decide (m.revision < hd.state.revision)) σ { hd with verified := false } := by
  refine ⟨⟨hb.manifest, rfl⟩, hb.head, rfl, fun hr => ?_⟩
  simp only [Bool.or_eq_false_iff, decide_eq_false_iff_not] at hr
  have hv := hb.proven hr.1.1
  have hle : hd.state.appliedSeq ≤ m.headSeq := by omega
  obtain ⟨-, k, hk, hn, -⟩ := hb.near hv
  exact ⟨hle, hinv.applied_le hi hL hv, k, hk.trans (hm.headSeq_le hi), hn, fun _ => hk⟩

theorem spec_applyDeltaWithRebuild (hR : Calm L t R) (hm : ∀ σ, R σ → Has m σ) :
    Spec L t (applyDeltaWithRebuild h m version force) (Under L t h R (Begin L m M force))
      fun r => Under L t h R (resultOf (Applied L m M) (Down M) r) := by
  unfold applyDeltaWithRebuild
  refine Spec.bind (R := fun st => Under L t h R fun σ hd => Begin L m M force σ hd ∧
    hd.state = st) ?_ fun st => ?_
  · refine Spec.heldRead (o := .state h) (fun _ => trivial) (fun _ hd => hd.state) (fun _ _ => rfl)
      hR.stable
      (fun st => frozen_and frozen_begin (frozen_core (p := fun _ x _ => x = st))) ?_
    exact fun σ c hd _ _ _ _ hX => ⟨hX, rfl⟩
  simp only
  generalize hreb : (force || decide (m.headSeq < st.appliedSeq) ||
    decide (m.revision < st.revision)) = rebuilt
  refine Spec.bind (R := fun _ => Under L t h R (Begun L m M st rebuilt)) ?_ fun _ => ?_
  · refine Spec.held (o := .setVerified h false) (fun _ _ => trivial)
      (fun _ hd => ((), { hd with verified := false }))
      (fun _ _ => rfl) hR (fun _ => frozen_begun) ?_
    intro σ c hd hi hr _ _ hmut hinv hX
    refine ⟨hmut, Nat.le_refl _, hinv.of_down hmut rfl rfl (fun _ => rfl) hinv.headOk, fun hL => ?_⟩
    obtain ⟨hb, rfl⟩ := hX hL
    rw [← hreb]
    exact hb.begun hi hinv hL (hm σ hr)
  refine Spec.andThen (R := fun r => Under L t h R (resultOf (Caught L m M) (Down M) r)) ?_
    (fun _ _ _ hx => hx) fun _ => ?_
  · split
    · rename_i h0
      refine Spec.andThen (Spec.skip rfl (stable_under hR frozen_begun))
        (fun _ _ _ hx => ⟨hx.1, hx.2.imp fun _ _ _ hb => hb.down⟩) fun _ => ?_
      refine ((spec_loadSnapshotAt (m := m) (M := M) hR (Nat.zero_le _)).pre ?_).post ?_
      · exact fun σ hi hx =>
          ⟨hx.1, hx.2.imp fun hd _ _ hb => loadable_empty hi (hm σ hx.1) hb.down hb.head⟩
      · rintro (e | u) σ - ⟨hr, hx⟩
        · exact ⟨hr, hx⟩
        · refine ⟨hr, hx.imp fun hd _ _ hl => ⟨hl.1, ?_⟩⟩
          have heq : hd.state.appliedSeq = m.headSeq := by
            have := hl.2.1
            omega
          have hn := hl.2.2
          rwa [heq] at hn
    · exact spec_applyTail hR hm
  · refine Spec.bind (R := fun _ => Under L t h R (Applied L m M)) ?_ fun _ => ?_
    · refine Spec.held (o := .setState h m version (some m.headSeq) true) (fun _ _ => trivial)
        (fun _ hd => ((), hd.setState m version (some m.headSeq))) (fun _ _ => rfl) hR
        (fun _ => frozen_applied) ?_
      intro σ c hd hi _ _ _ hmut hinv hX
      refine ⟨hmut, Nat.le_refl _, hinv.of_down hmut rfl rfl (fun hL => (hX hL).1.2) hinv.headOk,
        fun hL => ?_⟩
      exact ⟨⟨(hX hL).1, (hX hL).2.le, (hX hL).2.near⟩, rfl⟩
    · have hdown : ∀ {σ : World}, Under L t h R (Applied L m M) σ → Under L t h R (Down M) σ :=
        fun hx => ⟨hx.1, hx.2.imp fun _ _ _ ha => ha.1.1⟩
      refine Spec.andThen (Spec.skip rfl (stable_under hR frozen_applied))
        (fun _ _ _ hx => hdown hx) fun _ => ?_
      refine (Spec.skip rfl (stable_under hR frozen_applied)).post ?_
      rintro (e | u) σ - hx
      · exact hdown hx
      · exact hx

/-- The manifest field is `m` and the mutex may be given back. -/
def Proven (L : List Hazard) (m : Manifest) (σ : World) (hd : Handle) : Prop :=
  hd.manifest = m ∧ Ready L σ hd

theorem frozen_proven : Frozen L (Proven L m) :=
  frozen_and (frozen_core (p := fun x _ _ => x = m)) frozen_ready

theorem Down.proven {σ : World} {hd : Handle} (h : Down m σ hd) : Proven L m σ hd :=
  ⟨h.1, .of_down h.2⟩

theorem Applied.settled {σ : World} {hd : Handle} (hX : ExactLevel L) (ha : Applied L m m σ hd) :
    Settled L σ hd := by
  obtain ⟨⟨⟨rfl, -⟩, -, k, -, hn, hb⟩, happ⟩ := ha
  have hfold := Near.exact hn (hb (.inl hX))
  exact ⟨Nat.le_of_eq happ, by rw [happ]; exact hfold, hfold, fun _ => happ⟩

theorem Begin.synced {σ : World} {hd : Handle} (hb : Begin L m m false σ hd) : Synced L σ hd := by
  have hv := hb.proven rfl
  obtain ⟨-, k, hk, -, hn⟩ := hb.near hv
  refine ⟨hv, fun _ => ?_, fun hz => hb.even hz hv⟩
  rw [hb.manifest]
  exact Near.exact hn hk

theorem Applied.synced {σ : World} {hd : Handle} (ha : Applied L m m σ hd) :
    Synced L σ { hd with verified := true } := by
  obtain ⟨⟨⟨rfl, -⟩, -, k, -, hn, hb⟩, happ⟩ := ha
  exact ⟨rfl, fun hS => Near.exact hn (hb hS), fun _ => happ⟩

theorem spec_setVerified (hR : Calm L t R) :
    Spec L t (call (.setVerified h true)) (Under L t h R (Applied L m m))
      fun _ => Under L t h R fun σ hd => Proven L m σ hd ∧ Synced L σ hd := by
  refine Spec.held (o := .setVerified h true) (fun _ _ => trivial)
    (fun _ hd => ((), { hd with verified := true }))
    (fun _ _ => rfl) hR (fun _ => frozen_and frozen_proven frozen_synced) ?_
  intro σ c hd hi _ _ _ hmut hinv hX
  refine ⟨hmut, Nat.le_refl _, ⟨hinv.pair, hinv.headOk, fun hL _ => ?_, fun hE hm => ?_⟩,
    fun hL => ⟨⟨(hX hL).1.1.1, fun hE _ => ?_⟩, (hX hL).synced⟩⟩
  · obtain ⟨⟨⟨hman, -⟩, hle, k, hk, hn, -⟩, happ⟩ := hX hL
    refine ⟨?_, k, hk, ?_, ?_⟩
    · change hd.state.appliedSeq ≤ hd.manifest.headSeq
      rw [happ, hman]
    · change NearFold σ.log hd.refs hd.state.appliedSeq k
      rwa [happ]
    · change NearFold σ.log hd.refs hd.manifest.headSeq k
      rwa [hman]
  · change hd.syncMutex = none at hm
    rw [hmut] at hm
    cases hm
  · obtain ⟨h1, h2, h3, h4⟩ := (hX hL).settled hE
    exact ⟨h1, h2, h3, h4⟩

def Proved (L : List Hazard) (m : Manifest) {α : Type} (r : Except WalError α) (σ : World)
    (hd : Handle) : Prop :=
  Proven L m σ hd ∧ (isOk r = true → Synced L σ hd)

theorem spec_applyAndVerify (hR : Calm L t R) (hm : ∀ σ, R σ → Has m σ) :
    Spec L t (applyAndVerify h m version) (Under L t h R (Begin L m m true))
      fun r => Under L t h R (Proved L m r) := by
  unfold applyAndVerify
  refine Spec.andThen (spec_applyDeltaWithRebuild hR hm) ?_ fun _ => ?_
  · exact fun _ σ _ hx => ⟨hx.1, hx.2.imp fun _ _ _ hd => ⟨hd.proven, nofun⟩⟩
  · exact Spec.bind (spec_setVerified hR) fun _ => Spec.ret fun _ _ hx =>
      ⟨hx.1, hx.2.imp fun _ _ _ hy => ⟨hy.1, fun _ => hy.2⟩⟩

end Apply

end Walgit
