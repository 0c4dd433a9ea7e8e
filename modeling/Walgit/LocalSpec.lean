import Walgit.ClaimSpec

/-!
# Taking a commit over locally

The publisher applies its own transactions to the refs under the mutex and then
moves manifest, version and state. Compaction, settings, checkpoints and
annotations move the three fields without the mutex; what they committed writes
no ref.
-/

namespace Walgit

open Interleaving Replay

variable {L : List Hazard} {t h : ℕ} {m M : Manifest} {R : World → Prop} {σ σ' : World}
  {version : ℕ} {ws : List (RefKey × Option String)}

/-- Everything written is written by an entry past `m` and up to `M`. -/
def WrittenBy (m M : Manifest) (ws : List (RefKey × Option String)) (σ : World) : Prop :=
  ∀ w ∈ ws, Touched LogEntry.seq LogEntry.writes σ.log m.headSeq M.headSeq w.1

section Writing

/-- The publisher's progress under the mutex: of its writes, `ws` are in the refs of `m`. -/
structure Writing (L : List Hazard) (m : Manifest) (ws : List (RefKey × Option String))
    (σ : World) (hd : Handle) : Prop where
  manifest : hd.manifest = m
  refs : hd.verified = true → ∃ s₀, hd.refs = replay s₀ ws ∧
    NearHandle σ { hd with refs := s₀ } ∧ (ExactLevel L → Settled L σ { hd with refs := s₀ })

theorem frozen_writing : Frozen L (Writing L m ws) := by
  intro σ σ' hd hd' hi hh he hs hw
  refine ⟨hs.manifest.trans hw.manifest, fun hv => ?_⟩
  have hv : hd.verified = true := hs.verified.symm.trans hv
  obtain ⟨s₀, hrefs, hn, hset⟩ := hw.refs hv
  have hcore : SameCore { hd with refs := s₀ } { hd' with refs := s₀ } :=
    ⟨hs.manifest, hs.state, hs.verified, rfl⟩
  have hle : hd.manifest.headSeq ≤ σ.head := hh.headSeq_le hi
  refine ⟨s₀, hs.refs.trans hrefs, (hn.extends hle he).of_same hcore, fun hX => ?_⟩
  exact ((hset hX).extends hle he).of_same hcore

theorem NearHandle.write {hd : Handle} (hn : NearHandle σ hd) (hM : M.headSeq ≤ σ.head)
    (hw : WrittenBy hd.manifest M ws σ) : NearHandle σ { hd with refs := replay hd.refs ws } := by
  obtain ⟨ha, k, hk, hn, hn'⟩ := hn
  refine ⟨ha, max k M.headSeq, max_le hk hM, ?_, ?_⟩
  · refine Near.replay (hn.mono (le_max_left _ _)) fun w hmem => ?_
    obtain ⟨e, he, h1, h2, hwr⟩ := hw w hmem
    exact ⟨e, he, ha.trans_lt h1, h2.trans (le_max_right _ _), hwr⟩
  · refine Near.replay (hn'.mono (le_max_left _ _)) fun w hmem => ?_
    exact touched_mono (le_max_right _ _) (hw w hmem)

theorem headOk_replay {log : List LogEntry} {s : RefState} {q b b' : ℕ} (hs : HeadOk log s b')
    (hb : b ≤ b') (hw : ∀ w ∈ ws, Touched LogEntry.seq LogEntry.writes log q b w.1) :
    HeadOk log (replay s ws) b' := by
  by_cases hh : ∃ w ∈ ws, w.1 = .head
  · obtain ⟨w, hmem, hk⟩ := hh
    obtain ⟨e, he, h1, h2, hwr⟩ := hw w hmem
    rw [hk] at hwr
    exact .inr ⟨e, he, Nat.zero_lt_of_lt h1, h2.trans hb, hwr⟩
  · refine hs.imp_left fun hinit => (replay_untouched fun w hmem hk => hh ⟨w, hmem, hk⟩).trans hinit

/-- The invariant holds of a handle with any part of the writes in its refs. -/
theorem Writing.handleInv {hd : Handle} {new : List (RefKey × Option String)} (hi : Inv L σ)
    (hinv : HandleInv L σ hd) (hm : hd.syncMutex = some t) (hM : Has M σ)
    (hX : RefsLevel L → Writing L m ws σ hd) (hw : RefsLevel L → WrittenBy m M (ws ++ new) σ) :
    HandleInv L σ { hd with refs := replay hd.refs new } where
  pair := hinv.pair
  headOk hL := headOk_replay (hinv.headOk hL) (hM.headSeq_le hi) fun w hmem =>
    hw hL w (List.mem_append_right ws hmem)
  near hL hver := by
    obtain ⟨s₀, hrefs, hn, -⟩ := (hX hL).refs hver
    have hw := hw hL
    rw [← (hX hL).manifest] at hw
    have hnear := hn.write (hM.headSeq_le hi) hw
    rwa [replay_append, ← hrefs] at hnear
  settled _ hnone _ := by
    change hd.syncMutex = none at hnone
    rw [hm] at hnone
    cases hnone

theorem Writing.append {hd : Handle} {new : List (RefKey × Option String)}
    (hw : Writing L m ws σ hd) :
    Writing L m (ws ++ new) σ { hd with refs := replay hd.refs new } := by
  refine ⟨hw.manifest, fun hv => ?_⟩
  obtain ⟨s₀, hrefs, hn, hset⟩ := hw.refs hv
  exact ⟨s₀, by rw [replay_append, ← hrefs], hn, hset⟩

theorem Writing.proven {hd : Handle} (hw : Writing L m ws σ hd) (hnil : ExactLevel L → ws = []) :
    Proven L m σ hd := by
  refine ⟨hw.manifest, fun hX hv => ?_⟩
  obtain ⟨s₀, hrefs, -, hset⟩ := hw.refs hv
  rw [hnil hX] at hrefs
  obtain rfl : hd.refs = s₀ := hrefs
  exact hset hX

end Writing

section LocalCommit

variable {txn : RefTransaction} {done : ℕ}

theorem HandleInv.of_pair {hd hd' : Handle} (hinv : HandleInv L σ hd) (hL : ¬ RefsLevel L)
    (hm : hd'.manifest = hd.manifest) (hv : hd'.version = hd.version) : HandleInv L σ hd' where
  pair := by
    rw [hm, hv]
    exact hinv.pair
  headOk h := absurd h hL
  near h := absurd h hL
  settled h := absurd h.refs hL

theorem applyRefTxn_cases (hd : Handle) (c : Choice)
    (hh : ∀ u ∈ txn.updates, u.isSymbolic = decide (u.name = "HEAD")) :
    (hd.applyRefTxn c txn = (.ok (), { hd with refs := replay hd.refs txn.writes })) ∨
      (hd.applyRefTxn c txn = (.error .git, hd)) ∨
      (c.outcome = .errApplied ∧ ∃ ws, (∀ w ∈ ws, w ∈ txn.writes) ∧
        hd.applyRefTxn c txn = (.error .git, { hd with refs := replay hd.refs ws })) := by
  unfold Handle.applyRefTxn
  cases hs : applyRefTxn hd.refs txn with
  | none => exact .inr (.inl rfl)
  | some s =>
    obtain rfl := applyRefTxn_eq hh hs
    simp only [Handle.setRefs]
    cases hc : c.outcome with
    | ok => exact .inl rfl
    | err => exact .inr (.inl rfl)
    | errApplied =>
      refine .inr (.inr ⟨rfl, txn.writes.filter fun w => decide (w.1 ≠ .head),
        fun w hw => (List.mem_filter.mp hw).1, ?_⟩)
      rw [gitUpdateRef_eq hh]

theorem spec_applyRefTxn (hR : Calm L t R) (hM : ∀ σ, R σ → Has M σ)
    (hw : ∀ σ, R σ → RefsLevel L → WrittenBy m M (ws ++ txn.writes) σ)
    (hh : ∀ σ, Inv L σ → R σ → RefsLevel L →
      ∀ u ∈ txn.updates, u.isSymbolic = decide (u.name = "HEAD"))
    (hdone : done = 0 → ws = []) :
    Spec L t (call (.applyRefTxn h txn done)) (Under L t h R (Writing L m ws))
      fun r => Under L t h R (resultOf (Writing L m (ws ++ txn.writes)) (Proven L m) r) := by
  refine Spec.held (o := .applyRefTxn h txn done) (fun _ hm => hm)
    (fun c hd => hd.applyRefTxn c txn) (fun _ _ => rfl) hR
    (frozen_resultOf frozen_writing frozen_proven) ?_
  intro σ c hd hi hr hok hmem hmut hinv hX
  by_cases hL : RefsLevel L
  swap
  · refine ⟨?_, ?_, hinv.of_pair hL ?_ ?_, fun h => absurd h hL⟩
    all_goals
      unfold Handle.applyRefTxn Handle.setRefs
      split <;> [split; skip] <;> first | exact hmut | exact Nat.le_refl _ | rfl
  · have hfail : ExactLevel L → isOk (hd.applyRefTxn c txn).1 = false →
        ws = [] ∧ c.outcome ≠ .errApplied := by
      intro hE hbad
      have hno : ¬ (0 < done ∨ c.outcome = .errApplied) := fun hor =>
        hok .applyFailed (hE (by decide)) (.inl ⟨h, txn, done, rfl, hd, hmem, hbad, hor⟩)
      push Not at hno
      exact ⟨hdone (by omega), hno.2⟩
    rcases applyRefTxn_cases hd c (hh σ hi hr hL) with he | he | ⟨hc, new, hsub, he⟩
    · rw [he]
      exact ⟨hmut, Nat.le_refl _, Writing.handleInv hi hinv hmut (hM σ hr) hX (hw σ hr),
        fun _ => (hX hL).append⟩
    · rw [he] at hfail ⊢
      exact ⟨hmut, Nat.le_refl _, hinv, fun _ => (hX hL).proven fun hE => (hfail hE rfl).1⟩
    · rw [he] at hfail ⊢
      refine ⟨hmut, Nat.le_refl _, Writing.handleInv hi hinv hmut (hM σ hr) hX
        fun hL w hw' => hw σ hr hL w ?_, fun _ => ⟨(hX hL).manifest, fun hE => ?_⟩⟩
      · rcases List.mem_append.mp hw' with hw' | hw'
        · exact List.mem_append_left _ hw'
        · exact List.mem_append_right _ (hsub w hw')
      · exact absurd hc (hfail hE rfl).2

theorem spec_applyTxns {txns : List RefTransaction} (hR : Calm L t R) (hM : ∀ σ, R σ → Has M σ)
    (hw : ∀ σ, R σ → RefsLevel L → WrittenBy m M (ws ++ txns.flatMap RefTransaction.writes) σ)
    (hh : ∀ σ, Inv L σ → R σ → RefsLevel L →
      ∀ txn ∈ txns, ∀ u ∈ txn.updates, u.isSymbolic = decide (u.name = "HEAD"))
    (hdone : done = 0 → ws = []) :
    Spec L t (applyTxns h txns done) (Under L t h R (Writing L m ws))
      fun ok => Under L t h R (if ok then
        Writing L m (ws ++ txns.flatMap RefTransaction.writes) else Proven L m) := by
  induction txns generalizing ws done with
  | nil =>
    refine Spec.ret fun σ _ hx => ?_
    rw [List.flatMap_nil, List.append_nil]
    exact hx
  | cons txn txns ih =>
    rw [List.flatMap_cons, ← List.append_assoc]
    refine Spec.bind (spec_applyRefTxn (M := M) hR hM (fun σ hr hL w hmem => ?_)
      (fun σ hi hr hL => hh σ hi hr hL txn List.mem_cons_self) hdone) fun r => ?_
    · refine hw σ hr hL w ?_
      rw [List.flatMap_cons, ← List.append_assoc]
      exact List.mem_append_left _ hmem
    · rcases r with e | u
      · exact Spec.ret fun _ _ hx => hx
      · refine ih (fun σ hr hL => ?_) (fun σ hi hr hL x hx =>
          hh σ hi hr hL x (List.mem_cons_of_mem txn hx)) (fun h => by cases h)
        have := hw σ hr hL
        rwa [List.flatMap_cons, ← List.append_assoc] at this

theorem spec_refreshIf {ok : Bool} (hR : Calm L t R) :
    Spec L t (refreshIf h ok)
      (Under L t h R (if ok then Writing L m ws else Proven L m))
      fun ok => Under L t h R (if ok then Writing L m ws else Proven L m) := by
  unfold refreshIf
  cases ok with
  | false => exact Spec.ret fun _ _ hx => hx
  | true =>
    refine Spec.bind (R := fun r => Under L t h (fun σ => R σ) (if isOk r then Writing L m ws
      else Proven L m)) ?_ fun r => Spec.ret fun _ _ hx => hx
    refine Discipline.Triple.perform (fun r => ?_) (fun _ _ _ => trivial) ?_
    · refine stable_under hR ?_
      split
      · exact frozen_writing
      · exact frozen_proven
    · rintro σ c r σ' hi ⟨hr, hx⟩ hok hex
      have hok : Avoids L (.refresh h) c σ := hok
      obtain ⟨rfl, hd, hh, rfl⟩ := read_eq hex
      refine ⟨hi, .refl, hr, hx.imp fun hd hh hL hw => ?_⟩
      split
      · exact hw
      · rename_i hbad
        refine ⟨Writing.manifest hw, fun hE => absurd ?_ (hok .applyFailed (hE (by decide)))⟩
        refine .inr ⟨h, rfl, fun hc => hbad ?_⟩
        rw [Choice.get, hc]
        rfl

variable {op : ManifestOp} {slot : Option Slot} {s : Slot} {committed : Manifest}

/-- What a writer carries from its commit over `m` to the fields of its handle. -/
structure Carries (L : List Hazard) (t h : ℕ) (m : Manifest) (op : ManifestOp)
    (slot : Option Slot) (committed : Manifest) (version : ℕ) (σ : World) : Prop where
  landed : Landed t m op slot σ
  base : Has m σ
  pair : PairOf committed (some version) σ
  atLeast : AtLeast h m.revision σ
  same : RefsLevel L → committed = op.apply m

theorem lasting_carries : Lasting L (Carries L t h m op slot committed version) :=
  fun t' σ σ' hi hi' hg hc =>
    ⟨lasting_landed t' σ σ' hi hi' hg hc.landed, lasting_has t' σ σ' hi hi' hg hc.base,
      lasting_pairOf t' σ σ' hi hi' hg hc.pair, lasting_atLeast t' σ σ' hi hi' hg hc.atLeast,
      hc.same⟩

theorem Carries.manifest {hd : Handle} (hc : Carries L t h m op slot committed version σ)
    (hi : Inv L σ) (hinv : HandleInv L σ hd) (hh : σ.handles h = some hd) (hop : op ≠ .create)
    (hle : hd.manifest.revision ≤ m.revision + 1) :
    hd.manifest = m ∨ hd.manifest = op.apply m := by
  obtain ⟨hd₀, hh₀, hge⟩ := hc.atLeast
  rw [hh] at hh₀
  cases hh₀
  obtain ⟨a, ha, hman, -⟩ := hinv.pair
  rw [← hman] at hle hge ⊢
  rcases Nat.eq_or_lt_of_le hge with heq | hlt
  · obtain ⟨b, hb, rfl⟩ := hc.base
    exact .inl (by rw [hi.linked.eq_of_revision ha hb heq.symm])
  · obtain ⟨v, hb⟩ := hc.landed.commit
    have heq : a.manifest.revision = (op.apply m).revision := by
      rw [apply_revision hop]
      omega
    exact .inr (by rw [hi.linked.eq_of_revision ha hb heq])

theorem spec_lockForCommit (hR : Calm L t R) (hop : op ≠ .create)
    (hc : ∀ σ, R σ → Carries L t h m op slot committed version σ) :
    Spec L t (call (.lockForCommit h committed)) R
      fun _ => Under L t h R (Writing L m []) := by
  refine (Spec.quiet (o := .lockForCommit h committed) (fun _ _ => trivial) hR (P := fun _ => True)
    (fun _ => stable_held frozen_writing) ?_).pre fun σ _ hr => ⟨hr, trivial⟩
  intro σ c r σ' hi hr _ hok hex
  obtain ⟨hd, hh, hfree, rfl⟩ := updateIf_eq hex
  have hinv := hi.handles h hd hh
  refine quiet_acquire frozen_writing hi hh hfree fun hnone hL => ⟨?_, fun hv => ?_⟩
  · have hlt : hd.manifest.revision < committed.revision := Nat.lt_of_not_le fun hle =>
      hok .staleCommit (hL (by decide)) ⟨h, committed, rfl, hd, hh, hle⟩
    rw [(hc σ hr).same hL, apply_revision hop] at hlt
    refine ((hc σ hr).manifest hi hinv hh hop (by omega)).resolve_right fun heq => ?_
    rw [heq, apply_revision hop] at hlt
    omega
  · exact ⟨hd.refs, rfl, hinv.near hL hv, fun hE => hinv.settled hE hnone (.inl hv)⟩

theorem writtenBy_of_tail {es : List LogEntry} (ht : Tail M m.headSeq es σ) :
    WrittenBy m M (es.flatMap LogEntry.writes) σ := by
  intro w hw
  obtain ⟨e, he, hwe⟩ := List.mem_flatMap.mp hw
  rw [ht.2] at he
  obtain ⟨hlog, hq⟩ := List.mem_filter.mp he
  exact ⟨e, hlog, (of_decide_eq_true hq).1, (of_decide_eq_true hq).2, w, hwe, rfl⟩

theorem plain_of_tail {es : List LogEntry} {a : ℕ} (hi : Inv L σ) (hL : RefsLevel L)
    (ht : Tail M a es σ) {txn : RefTransaction} (hx : txn ∈ es.filterMap LogEntry.refTxn) :
    ∀ u ∈ txn.updates, u.isSymbolic = decide (u.name = "HEAD") := by
  intro u hu
  obtain ⟨e, he, hxe⟩ := List.mem_filterMap.mp hx
  rw [ht.2] at he
  by_contra hne
  refine hi.plain hL e (List.mem_filter.mp he).1 ⟨u, ?_, hne⟩
  rw [LogEntry.updates, hxe]
  exact hu

/-- The manifest field is `M` and proven refs have reached its head. -/
def Written (L : List Hazard) (M : Manifest) (σ : World) (hd : Handle) : Prop :=
  hd.manifest = M ∧ (hd.verified = true → NearAt (ExactLevel L) M.headSeq M.headSeq σ hd)

theorem frozen_written : Frozen L (Written L M) := by
  intro σ σ' hd hd' hi hh he hs hw
  refine ⟨hs.manifest.trans hw.1, fun hv => ?_⟩
  exact frozen_nearAt σ σ' hd hd' hi hh he hs (hw.2 (hs.verified.symm.trans hv))

theorem Writing.written {hd : Handle} {es : List LogEntry} (hi : Inv L σ)
    (hle : m.headSeq ≤ M.headSeq) (ht : Tail M m.headSeq es σ)
    (hw : Writing L m (es.flatMap LogEntry.writes) σ hd) :
    (hd.verified = true → NearHandle σ { hd with manifest := M }) ∧
      Written L M σ { hd with manifest := M } := by
  have hM := ht.1.headSeq_le hi
  refine ⟨fun hv => ?_, rfl, fun hv => ⟨hM, ?_⟩⟩
  · obtain ⟨s₀, hrefs, hn, -⟩ := hw.refs hv
    have hwr := writtenBy_of_tail ht
    rw [← hw.manifest] at hwr
    have hpart := hn.write hM hwr
    rw [← hrefs] at hpart
    obtain ⟨ha, k₁, hk₁, hn₁, -⟩ := hpart
    obtain ⟨-, k₂, hk₂, -, hn₂⟩ := hn
    have hn₂ : NearFold σ.log s₀ m.headSeq k₂ := by rwa [← hw.manifest]
    have hn₃ := near_tail hi ht hle hn₂
    rw [replayEntries, ← hrefs] at hn₃
    refine ⟨?_, max k₁ k₂, max_le hk₁ hk₂, hn₁.mono (le_max_left _ _), hn₃.mono (le_max_right _ _)⟩
    change hd.state.appliedSeq ≤ hd.manifest.headSeq at ha
    rw [hw.manifest] at ha
    exact ha.trans hle
  · obtain ⟨s₀, hrefs, hn, hset⟩ := hw.refs hv
    obtain ⟨k, hk, hn, hb⟩ : ∃ k ≤ σ.head, NearFold σ.log s₀ m.headSeq k ∧
        (ExactLevel L → k ≤ M.headSeq) := by
      by_cases hX : ExactLevel L
      · refine ⟨m.headSeq, hle.trans hM, ?_, fun _ => hle⟩
        have hs := (hset hX).manifest
        change s₀ = foldUpto σ.log hd.manifest.headSeq at hs
        rw [hs, hw.manifest]
        exact near_upto
      · obtain ⟨-, k, hk, -, hn⟩ := hn
        refine ⟨k, hk, ?_, fun h => absurd h hX⟩
        rwa [← hw.manifest]
    have hn' := near_tail hi ht hle hn
    rw [replayEntries, ← hrefs] at hn'
    exact ⟨k, hk, hn', hb⟩

theorem spec_setState {last : ℕ} (hR : Calm L t R)
    (hlast : ∀ σ, R σ → RefsLevel L → last = M.headSeq) :
    Spec L t (call (.setState h M version (some last) true)) (Under L t h R (Written L M))
      fun _ => Under L t h R (Proven L M) := by
  refine Spec.held (o := .setState h M version (some last) true) (fun _ _ => trivial)
    (fun _ hd => ((), hd.setState M version (some last))) (fun _ _ => rfl) hR
    (fun _ => frozen_proven) ?_
  intro σ c hd hi hr _ _ hmut hinv hX
  refine ⟨hmut, Nat.le_refl _, ⟨hinv.pair, hinv.headOk, fun hL hv => ?_, fun _ hnone => ?_⟩,
    fun hL => ⟨(hX hL).1, fun hE hv => ?_⟩⟩
  · obtain ⟨hle, k, hk, hn, -⟩ := (hX hL).2 hv
    obtain rfl := hlast σ hr hL
    refine ⟨?_, k, hk, hn, ?_⟩
    · change M.headSeq ≤ hd.manifest.headSeq
      rw [(hX hL).1]
    · change NearFold σ.log hd.refs hd.manifest.headSeq k
      rwa [(hX hL).1]
  · change hd.syncMutex = none at hnone
    rw [hmut] at hnone
    cases hnone
  · obtain ⟨-, k, -, hn, hb⟩ := (hX hL).2 hv
    obtain rfl := hlast σ hr hL
    have hfold := Near.exact hn (hb hE)
    have hman : M.headSeq = hd.manifest.headSeq := by rw [(hX hL).1]
    refine ⟨Nat.le_of_eq hman, hfold, ?_, fun _ => hman⟩
    change hd.refs = foldUpto σ.log hd.manifest.headSeq
    rw [← hman]
    exact hfold

theorem spec_takeVersion {X : World → Handle → Prop} (hR : Calm L t R) (hX : Frozen L X) :
    Spec L t (call (.takeVersion h)) (Under L t h R X) fun _ => Under L t h R X := by
  refine Spec.held (o := .takeVersion h) (fun _ _ => trivial)
    (fun _ hd => ((), { hd with version := none }))
    (fun _ _ => rfl) hR (fun _ => hX) ?_
  intro σ c hd hi _ _ _ hm hinv hx
  refine ⟨hm, Nat.le_refl _, hinv.of_core ⟨rfl, rfl, rfl, rfl⟩ ?_ id,
    fun hL => hX σ σ hd _ hi hinv (.of_commits_eq rfl) ⟨rfl, rfl, rfl, rfl⟩ (hx hL)⟩
  obtain ⟨a, ha, hman, -⟩ := hinv.pair
  exact ⟨a, ha, hman, nofun⟩

theorem spec_localCommit {last : ℕ} (hp : PairLevel L) (hR : Calm L t R)
    (hc : ∀ σ, R σ → Carries L t h m op (some s) committed version σ) (hop : op ≠ .create)
    (hle : m.headSeq ≤ (op.apply m).headSeq) 
    (hlast : ∀ σ, R σ → RefsLevel L → last = committed.headSeq) :
    Spec L t (localCommit h committed version last (s.entries.filterMap LogEntry.refTxn)) R
      fun _ => R := by
  have htail : ∀ σ, R σ → Tail (op.apply m) m.headSeq s.entries σ :=
    fun σ hr => (hc σ hr).landed.tail s rfl
  unfold localCommit
  refine Spec.bind (spec_lockForCommit hR hop hc) fun _ => ?_
  refine Spec.bind (spec_applyTxns (M := op.apply m) hR (fun σ hr => (htail σ hr).1)
    (fun σ hr _ => ?_) (fun σ hi hr hL txn hx => plain_of_tail hi hL (htail σ hr) hx)
    fun _ => rfl) fun applied => ?_
  · rw [List.nil_append, flatMap_refTxn]
    exact writtenBy_of_tail (htail σ hr)
  rw [List.nil_append, flatMap_refTxn]
  refine Spec.bind (spec_refreshIf hR) fun ok => ?_
  cases ok with
  | false =>
    refine Spec.bind (spec_takeVersion hR frozen_proven) fun _ => ?_
    exact (spec_unlock hR).pre fun σ _ hx => ⟨hx.1, hx.2.imp fun _ _ _ hp => hp.2⟩
  | true =>
    refine spec_setPair (Y := Written L committed) hp hR (fun σ hr => (hc σ hr).pair)
      frozen_written ?_ ?_
    · intro σ hd hi hr hL _ hw
      rw [(hc σ hr).same hL]
      refine ⟨?_, Writing.written hi hle (htail σ hr) hw⟩
      rw [hw.manifest, apply_revision hop]
      exact Nat.le_succ _
    · refine Spec.bind (spec_setState hR hlast) fun _ => ?_
      refine Spec.bind (Spec.skip rfl (stable_under hR frozen_proven)) fun _ => ?_
      exact (spec_unlock hR).pre fun σ _ hx => ⟨hx.1, hx.2.imp fun _ _ _ hp => hp.2⟩

end LocalCommit

section Adopt

variable {op : ManifestOp} {slot : Option Slot} {committed : Manifest}

def Silent (m M : Manifest) (σ : World) : Prop :=
  ∀ s k, NearFold σ.log s m.headSeq k → NearFold σ.log s M.headSeq k

theorem Silent.foldUpto (hs : Silent m M σ) (hle : m.headSeq ≤ M.headSeq) :
    foldUpto σ.log m.headSeq = foldUpto σ.log M.headSeq :=
  Near.exact (hs _ m.headSeq near_upto) hle

theorem silent_of_tail {es : List LogEntry} (hi : Inv L σ) (ht : Tail M m.headSeq es σ)
    (hle : m.headSeq ≤ M.headSeq) (hes : es.flatMap LogEntry.writes = []) : Silent m M σ := by
  intro s k hn
  have := near_tail hi ht hle hn
  rwa [replayEntries, hes] at this

theorem adopt_manifest {hd : Handle} {c : Choice} (hp : PairLevel L) (hi : Inv L σ)
    (hinv : HandleInv L σ hd) (hh : σ.handles h = some hd)
    (hc : Carries L t h m op slot committed version σ) (hop : op ≠ .create)
    (hle : m.headSeq ≤ (op.apply m).headSeq) (hsil : RefsLevel L → Silent m (op.apply m) σ)
    (hok : Avoids L (.setManifest h committed false) c σ) :
    HandleInv L σ { hd with manifest := committed } ∧
      HandleGuar L t hd { hd with manifest := committed } := by
  have hrev := forward_setManifest hp hok hh nofun
  have hpair := pair_setManifest hi hinv hc.pair.has hrev
  have hat : RefsLevel L → hd.manifest = m ∨ hd.manifest = committed := fun hL => by
    rw [hc.same hL] at hrev ⊢
    refine hc.manifest hi hinv hh hop ?_
    rwa [apply_revision hop] at hrev
  have hheld : RefsLevel L → hd.syncMutex = none := fun hL => by
    by_contra hne
    exact hok .unlockedUpdate (hL (by decide)) (.inl ⟨h, committed, rfl, hd, hh, hne⟩)
  refine ⟨⟨hpair, hinv.headOk, fun hL hv => ?_, fun hE hnone hv => ?_⟩,
    hrev, fun _ _ hm => hm, fun hL t' _ hm => ?_⟩
  · obtain ⟨ha, k, hk, hn, hn'⟩ := hinv.near hL hv
    rcases hat hL with hm | hm
    · rw [hm] at ha hn'
      have hcomm := hc.same hL
      refine ⟨?_, k, hk, hn, ?_⟩
      · change hd.state.appliedSeq ≤ committed.headSeq
        rw [hcomm]
        exact ha.trans hle
      · change NearFold σ.log hd.refs committed.headSeq k
        rw [hcomm]
        exact hsil hL _ _ hn'
    · rw [hm] at ha hn'
      exact ⟨ha, k, hk, hn, hn'⟩
  · obtain ⟨h0, h1, h2, h3⟩ := hinv.settled hE hnone hv
    have hhead : hd.manifest.headSeq ≤ committed.headSeq := by
      rcases hat hE.refs with hm | hm
      · rw [hm, hc.same hE.refs]
        exact hle
      · rw [hm]
    refine ⟨h0.trans hhead, h1, ?_, fun hL => (h3 hL).trans ?_⟩
    · change hd.refs = foldUpto σ.log committed.headSeq
      rcases hat hE.refs with hm | hm
      · rw [h2, hm, hc.same hE.refs]
        exact (hsil hE.refs).foldUpto hle
      · rw [h2, hm]
    · by_contra hne
      exact hok _ hL ⟨h, committed, rfl, hd, hh, hne⟩
  · rw [hheld hL] at hm
    cases hm

theorem adopt_state {hd : Handle} {c : Choice} {applied : Option ℕ} (hinv : HandleInv L σ hd)
    (hh : σ.handles h = some hd)
    (happ : RefsLevel L → ∀ q, applied = some q → q = committed.headSeq)
    (hok : Avoids L (.setState h committed version applied false) c σ) :
    HandleInv L σ (hd.setState committed version applied) ∧
      HandleGuar L t hd (hd.setState committed version applied) := by
  have hfree : RefsLevel L → hd.syncMutex = none ∧ hd.manifest = committed := fun hL => by
    by_contra hne
    refine hok .unlockedUpdate (hL (by decide))
      (.inr ⟨h, committed, version, applied, rfl, hd, hh, ?_⟩)
    tauto
  refine ⟨⟨hinv.pair, hinv.headOk, fun hL hv => ?_, fun hE hnone hv => ?_⟩,
    Nat.le_refl _, fun _ _ hm => hm, fun hL t' _ hm => ?_⟩
  · obtain ⟨ha, k, hk, hn, hn'⟩ := hinv.near hL hv
    cases applied with
    | none => exact ⟨ha, k, hk, hn, hn'⟩
    | some q =>
      obtain rfl : q = hd.manifest.headSeq := by rw [happ hL q rfl, (hfree hL).2]
      exact ⟨Nat.le_refl _, k, hk, hn', hn'⟩
  · obtain ⟨h0, h1, h2, h3⟩ := hinv.settled hE hnone hv
    cases applied with
    | none => exact ⟨h0, h1, h2, h3⟩
    | some q =>
      obtain rfl : q = hd.manifest.headSeq := by rw [happ hE.refs q rfl, (hfree hE.refs).2]
      exact ⟨Nat.le_refl _, h2, h2, fun _ => rfl⟩
  · rw [(hfree hL).1] at hm
    cases hm

variable (hp : PairLevel L) (hR : Calm L t R)
  (hc : ∀ σ, R σ → Carries L t h m op slot committed version σ)
include hp hR hc

theorem spec_adoptPair (hop : op ≠ .create) (hle : m.headSeq ≤ (op.apply m).headSeq)
    (hsil : ∀ σ, Inv L σ → R σ → RefsLevel L → Silent m (op.apply m) σ) {β : Type} {f : Task β}
    {Q : β → World → Prop} (hf : Spec L t f R Q) :
    Spec L t (do call (.setManifest h committed false); call (.setVersion h committed version); f)
      R Q := by
  refine Spec.bind (Spec.free (o := .setManifest h committed false) (fun _ => trivial)
    (fun _ hd => ((), { hd with manifest := committed })) (fun _ _ => rfl) hR ?_) fun _ => ?_
  · intro σ c hd hi hr hok hh hinv
    exact adopt_manifest hp hi hinv hh (hc σ hr) hop hle (hsil σ hi hr) hok
  refine Spec.bind (Spec.free (o := .setVersion h committed version) (fun _ => trivial)
    (fun _ hd => ((), { hd with version := some version })) (fun _ _ => rfl) hR ?_) fun _ => hf
  intro σ c hd hi hr hok hh hinv
  exact ⟨hinv.setVersion (manifest_of_setVersion hp hok hh) (hc σ hr).pair,
    .of_same ⟨rfl, rfl, rfl, rfl⟩ rfl⟩

omit hp hc in
theorem spec_adoptState {applied : Option ℕ}
    (happ : ∀ σ, R σ → RefsLevel L → ∀ q, applied = some q → q = committed.headSeq) :
    Spec L t (call (.setState h committed version applied false)) R fun _ => R := by
  refine Spec.free (o := .setState h committed version applied false) (fun _ => trivial)
    (fun _ hd => ((), hd.setState committed version applied)) (fun _ _ => rfl) hR ?_
  intro σ c hd hi hr hok hh hinv
  exact adopt_state hinv hh (happ σ hr) hok

omit hp hc in
theorem spec_noteTime {time : ℕ} : Spec L t (call (.noteEntryTime h time)) R fun _ => R := by
  refine Spec.free (o := .noteEntryTime h time) (fun _ => trivial) (fun _ hd =>
    ((), { hd with lastEntryTime := some (max time (hd.lastEntryTime.getD 0)) }))
    (fun _ _ => rfl) hR ?_
  intro σ c hd hi hr hok hh hinv
  exact ⟨hinv.of_same ⟨rfl, rfl, rfl, rfl⟩ rfl id, .of_same ⟨rfl, rfl, rfl, rfl⟩ rfl⟩

theorem spec_adopt {applied : Option ℕ} (hop : op ≠ .create)
    (hhead : (op.apply m).headSeq = m.headSeq)
    (happ : ∀ q, applied = some q → q = (op.apply m).headSeq) :
    Spec L t (adopt h committed version applied) R fun _ => R := by
  refine spec_adoptPair hp hR hc hop (Nat.le_of_eq hhead.symm) (fun σ _ _ _ s k hn => ?_) ?_
  · rwa [hhead]
  · refine Spec.bind (spec_adoptState hR fun σ hr hL q hq => ?_) fun _ => Spec.skip rfl hR.stable
    rw [(hc σ hr).same hL]
    exact happ q hq

theorem spec_adoptSlot {s : LogSlot} {time result : ℕ} (hs : slot = some s.slot)
    (hop : op ≠ .create) (hle : m.headSeq ≤ (op.apply m).headSeq)
    (hwrites : s.slot.entries.flatMap LogEntry.writes = [])
    (hlast : s.slot.seq = (op.apply m).headSeq)
    (hburned : ∀ b ∈ s.burned, m.headSeq < b.1 ∧ b.1 < s.slot.seq) :
    Spec L t (adoptSlot h s time committed version result) R fun _ => R := by
  refine spec_adoptPair hp hR hc hop hle (fun σ hi hr _ => ?_) ?_
  · exact silent_of_tail hi ((hc σ hr).landed.tail s.slot hs) hle hwrites
  refine Spec.bind (spec_noteTime hR) fun _ => Spec.bind (spec_adoptState hR ?_) fun _ => ?_
  · rintro σ hr hL q hq
    cases hq
    rw [(hc σ hr).same hL]
    exact hlast
  refine Spec.andThen (Spec.skip rfl hR.stable) (fun _ _ _ hx => hx) fun _ => ?_
  refine Spec.bind (spec_sweepBurned hR fun σ hr b hb => ?_) fun _ => Spec.ret fun _ _ hx => hx
  exact (hc σ hr).landed.dead s.slot hs b (hburned b hb).1 (hburned b hb).2

end Adopt

end Walgit
