import Mathlib.Data.List.TakeWhile
import Walgit.Bridge
import Walgit.Times

/-!
# Historical reads

`refs_at_seq` and `refs_as_of` start from the checkpoint of the manifest at
hand, or from nothing, and replay what `read_log` returns up to the cut. The
start is the fold up to its seq; the entries read are the log from there on
unless the manifest that `read_log` used has lost a segment of the range; so
the answer is a fold.
-/

namespace Walgit

open Interleaving Replay

variable {L : List Hazard} {Z : List ConsumerHazard} {sinks t h : ℕ} {σ σ' : World}
  {x x' : Consumers} {m : Manifest} {cut : Cut} {b n : ℕ}

section Folds

/-- A snapshot that, loaded into a new repository, is the fold up to a seq. -/
def IsFold (σ : World) (snap : RefState) (n : ℕ) : Prop :=
  n ≤ σ.head ∧ loadRefSnapshot .init snap = foldUpto σ.log n

theorem lasting_head : Lasting L fun σ => b ≤ σ.head :=
  .of_extends fun _ _ _ _ he h => h.trans he.head

theorem IsFold.extends {snap : RefState} (h : IsFold σ snap n) (he : Extends σ σ') :
    IsFold σ' snap n :=
  ⟨h.1.trans he.head, by rw [he.foldUpto h.1]; exact h.2⟩

theorem isFold_empty (hi : Inv L σ) : IsFold σ .empty 0 := by
  refine ⟨Nat.zero_le _, ?_⟩
  rw [hi.foldUpto_zero]
  funext key
  cases key <;> rfl

theorem isFold_snapshot {snap : RefState} (hX : ExactLevel L) (hs : SnapOk L σ n snap) :
    IsFold σ snap n := by
  refine ⟨hs.le, ?_⟩
  rw [hs.exact (.inl hX)]
  funext key
  cases key with
  | ref name => rfl
  | head =>
    obtain ⟨y, hy⟩ := Option.isSome_iff_exists.mp (@foldUpto_head σ.log n)
    change (foldUpto σ.log n .head).or _ = foldUpto σ.log n .head
    rw [hy]
    rfl

theorem load_replay {snap s : RefState} {ws : List (RefKey × Option String)}
    (hs : loadRefSnapshot .init snap = s) (hw : ∀ w ∈ ws, w.1 = .head → w.2.isSome) :
    loadRefSnapshot .init (replay snap ws) = replay s ws := by
  subst hs
  funext key
  cases key with
  | ref name => exact replay_congr fun _ => rfl
  | head =>
    change (replay snap ws .head).or _ = replay _ ws .head
    by_cases ht : ∃ w ∈ ws, w.1 = RefKey.head
    · have hsome := replay_head_isSome (s := .init) rfl hw
      rw [replay_touched ht] at hsome
      obtain ⟨y, hy⟩ := Option.isSome_iff_exists.mp hsome
      have hsame : replay (loadRefSnapshot .init snap) ws .head = replay snap ws .head :=
        replay_touched ht
      rw [hsame, hy]
      rfl
    · push Not at ht
      rw [replay_untouched ht, replay_untouched ht]
      rfl

theorem Inv.refTxn (hi : Inv L σ) {e : LogEntry} (he : e ∈ σ.log) : e.refTxn = e.txn := by
  obtain ⟨c, hc, hec⟩ := mem_logOf.mp he
  unfold Commit.entries at hec
  cases hs : c.slot with
  | none =>
    rw [hs] at hec
    cases hec
  | some s =>
    rw [hs] at hec
    rcases hi.linked.follows hc with rfl | ⟨p, older, -, hf⟩
    · cases hs
    · exact hf.orderly.txn s hs e hec

theorem txnWrites_eq (hi : Inv L σ) {es : List LogEntry} (hes : ∀ e ∈ es, e ∈ σ.log) :
    es.flatMap LogEntry.txnWrites = es.flatMap LogEntry.writes := by
  refine List.flatMap_congr fun e he => ?_
  unfold LogEntry.txnWrites LogEntry.writes
  rw [hi.refTxn (hes e he)]

theorem isFold_replay {snap : RefState} {after last : ℕ} (hi : Inv L σ) (hs : IsFold σ snap after)
    (hle : after ≤ last) (hto : last ≤ σ.head) :
    IsFold σ (replay snap ((between LogEntry.seq σ.log after last).flatMap LogEntry.txnWrites))
      last := by
  refine ⟨hto, ?_⟩
  rw [txnWrites_eq hi fun e he => (mem_between.mp he).1,
    load_replay hs.2 fun w hw hk => entries_write_head hw hk]
  exact (upto_split hi.linked.log_pairwise hle).symm

theorem prefix_between {log kept : List LogEntry} {after last : ℕ}
    (hlog : log.Pairwise fun a b => a.seq < b.seq)
    (hpre : kept <+: between LogEntry.seq log after last) :
    kept = between LogEntry.seq log after ((kept.getLast?.map LogEntry.seq).getD after) := by
  obtain ⟨rest, hsplit⟩ := hpre
  have hsorted : (kept ++ rest).Pairwise fun a b => a.seq < b.seq := hsplit ▸ hlog.filter _
  obtain ⟨hkept, -, hcross⟩ := List.pairwise_append.mp hsorted
  have hmem : ∀ e ∈ kept ++ rest, after < e.seq ∧ e.seq ≤ last := fun e he =>
    (mem_between.mp (hsplit ▸ he)).2
  have hfil : ∀ n ≤ last, between LogEntry.seq log after n =
      (kept ++ rest).filter fun e => decide (e.seq ≤ n) := by
    intro n hn
    rw [hsplit, between, between, List.filter_filter]
    refine List.filter_congr fun e _ => ?_
    by_cases he : e.seq ≤ n
    · simp [he, he.trans hn]
    · simp [he]
  cases hlast : kept.getLast? with
  | none =>
    rw [List.getLast?_eq_none_iff.mp hlast]
    refine (List.filter_eq_nil_iff.mpr fun e _ => ?_).symm
    simp
  | some e₀ =>
    obtain ⟨init, hinit⟩ := List.getLast?_eq_some_iff.mp hlast
    have hin : e₀ ∈ kept := by simp [hinit]
    have hle : ∀ e ∈ kept, e.seq ≤ e₀.seq := by
      intro e he
      rw [hinit] at hkept he
      rcases List.mem_append.mp he with he | he
      · exact Nat.le_of_lt ((List.pairwise_append.mp hkept).2.2 e he e₀ List.mem_cons_self)
      · rw [List.mem_singleton.mp he]
    change kept = between LogEntry.seq log after e₀.seq
    rw [hfil e₀.seq (hmem e₀ (List.mem_append_left _ hin)).2, List.filter_append,
      List.filter_eq_self.mpr fun e he => decide_eq_true (hle e he)]
    rw [List.filter_eq_nil_iff.mpr fun e he => ?_, List.append_nil]
    have := hcross e₀ hin e he
    simp only [decide_eq_true_eq]
    omega

end Folds

section Start

variable {N : World × Consumers → Prop}

/-- The point a replay starts from: a fold, at most at the cut. -/
structure StartOk (L : List Hazard) (cut : Cut) (start : RefState × ℕ) (σ : World) : Prop where
  le : start.2 ≤ σ.head
  cut : ∀ q, cut = .seq q → start.2 ≤ q
  fold : ExactLevel L → IsFold σ start.1 start.2

theorem lasting_startOk {start : RefState × ℕ} : Lasting L (StartOk L cut start) :=
  .of_extends fun _ _ _ _ he h => ⟨h.le.trans he.head, h.cut, fun hX => (h.fold hX).extends he⟩

theorem StartOk.empty (hi : Inv L σ) : StartOk L cut (.empty, 0) σ :=
  ⟨Nat.zero_le _, fun _ _ => Nat.zero_le _, fun _ => isFold_empty hi⟩

theorem Has.checkpoint_le {cp : CheckpointRef} (hi : Inv L σ) (hm : Has m σ)
    (hcp : m.checkpoint = some cp) : cp.seq ≤ σ.head := by
  have hhead := hm.headSeq_le hi
  obtain ⟨c, hc, rfl⟩ := hm
  obtain ⟨older, -, hl, -⟩ := hi.linked.split hc
  have hle := hl.checkpointSeq_le
  rw [Manifest.checkpointSeq, hcp] at hle
  exact hle.trans hhead

theorem spec_checkpointUsable {cp : CheckpointRef} (hN : Steady L Z sinks t N) :
    ConsumerSpec L Z sinks t (checkpointUsable h cut cp) N fun r σ => N σ ∧
      (r = .ok true → ∀ q, cut = .seq q → cp.seq ≤ q) := by
  unfold checkpointUsable
  cases cut with
  | seq q =>
    refine ConsumerSpec.ret fun σ x _ _ hn => ⟨hn, fun hr q' hq => ?_⟩
    cases hq
    exact of_decide_eq_true (Except.ok.inj hr)
  | time stamp =>
    refine ConsumerSpec.andThen (ConsumerSpec.look (o := .checkpointTimes h)
      (F := fun _ _ => True) hN (fun _ => .const) ?_ fun _ _ _ _ _ _ _ _ _ => trivial) ?_
      fun times => ConsumerSpec.ret fun σ x _ _ hn => ⟨hn.1, fun _ q hq => by cases hq⟩
    · intro c σ x r x' he
      cases he
      rfl
    · exact fun e σ hn => ⟨hn.1, nofun⟩

theorem spec_getCheckpoint {seq : ℕ} (hN : Steady L Z sinks t N) :
    ConsumerSpec L Z sinks t (consumerCall (.getCheckpoint seq)) N fun r σ => N σ ∧
      ∀ cpo, r = .ok (some cpo) → cpo.seq = seq := by
  refine ConsumerSpec.look (o := .getCheckpoint seq) (F := fun r _ =>
    ∀ cpo, r = .ok (some cpo) → cpo.seq = seq) hN (fun _ => .const) ?_ ?_
  · intro c σ x r x' he
    cases he
    rfl
  · intro σ x c r hi _ _ _ he cpo hr
    cases he
    obtain ⟨a, -, -, rfl⟩ := hi.cps seq cpo (Choice.get_ok hr).symm
    rfl

theorem spec_getCheckpointRefs {seq : ℕ} (hN : Steady L Z sinks t N) :
    ConsumerSpec L Z sinks t (Task.lift (call (.getCheckpointRefs seq))) N fun r σ => N σ ∧
      ∀ snap, r = .ok (some snap) → RefsLevel L → SnapOk L σ.1 seq snap := by
  refine ((ConsumerSpec.lift hN (Spec.read (o := .getCheckpointRefs seq) (P := fun _ => True)
    (F := fun r σ => ∀ snap, r = .ok (some snap) → RefsLevel L → SnapOk L σ seq snap) rfl
    Discipline.Stable.const (fun _ => .all fun _ => Lasting.imp (Lasting.imp lasting_snapOk))
    ?_)).pre fun _ _ _ _ hn => ⟨trivial, hn⟩).post fun _ _ _ _ _ hx => ⟨hx.2, hx.1.2⟩
  intro σ c r hi _ _ hex snap hr hL
  cases hex
  exact hi.snaps hL seq snap (Choice.get_ok hr).symm

theorem spec_startPoint (hN : Steady L Z sinks t N) (hm : ∀ σ, N σ → Has m σ.1) :
    ConsumerSpec L Z sinks t (startPoint h cut m) N fun r σ => N σ ∧
      ∀ start, r = .ok start → StartOk L cut start σ.1 := by
  have hempty : ∀ {σ : World} {x : Consumers}, Inv L σ → N (σ, x) → N (σ, x) ∧
      ∀ start, (.ok (.empty, 0) : Except WalError (RefState × ℕ)) = .ok start →
        StartOk L cut start σ := by
    intro σ x hi hn
    refine ⟨hn, fun start hs => ?_⟩
    cases hs
    exact .empty hi
  unfold startPoint
  cases hcp : m.checkpoint with
  | none => exact ConsumerSpec.ret fun σ x hi _ hn => hempty hi hn
  | some cp =>
    refine ConsumerSpec.andThen (spec_checkpointUsable hN) (fun e σ hn => ⟨hn.1, nofun⟩)
      fun usable => ?_
    split
    · rename_i hus
      subst hus
      refine ConsumerSpec.pre (P := fun σ => N σ ∧ ∀ q, cut = .seq q → cp.seq ≤ q)
        (ConsumerSpec.knowing fun hcut => ?_) fun σ x _ _ hn => ⟨hn.1, hn.2 rfl⟩
      refine ConsumerSpec.andThen (spec_getCheckpoint hN) (fun e σ hn => ⟨hn.1, nofun⟩)
        fun cpo => ?_
      rcases cpo with _ | cpo
      · exact ConsumerSpec.ret fun σ x hi _ hn => hempty hi hn.1
      refine ConsumerSpec.pre (P := fun σ => N σ ∧ cpo.seq = cp.seq)
        (ConsumerSpec.knowing fun hseq => ?_) fun σ x _ _ hn => ⟨hn.1, hn.2 cpo rfl⟩
      refine ConsumerSpec.andThen (spec_getCheckpointRefs hN) (fun e σ hn => ⟨hn.1, nofun⟩)
        fun snap => ?_
      rcases snap with _ | snap
      · exact ConsumerSpec.ret fun σ x hi _ hn => hempty hi hn.1
      refine ConsumerSpec.ret fun σ x hi _ hn => ⟨hn.1, fun start hs => ?_⟩
      cases hs
      refine ⟨(hm _ hn.1).checkpoint_le hi hcp, hcut, fun hX => ?_⟩
      exact isFold_snapshot hX (hseq ▸ hn.2 snap rfl hX.refs)
    · exact ConsumerSpec.ret fun σ x hi _ hn => hempty hi hn.1

end Start

section Answers

variable {N : World × Consumers → Prop}

theorem exact_answer {start : RefState × ℕ} {es : List LogEntry} (hi : Inv L σ)
    (hX : ExactLevel L) (hZ : ConsumerHazard.trimmed ∈ Z) (hs : StartOk L cut start σ)
    (hr : LogRead Z (max b start.2) (cut.range start.2) es σ) :
    Answer.Exact σ ⟨cut, b, (replayEntriesTo cut start.1 start.2 es).1,
      (replayEntriesTo cut start.1 start.2 es).2⟩ := by
  have hfold := hs.fold hX
  obtain ⟨M, hM, hb, hes⟩ := hr
  have hhead := hM.headSeq_le hi
  cases cut with
  | seq q =>
    rcases hes hZ with hes | ⟨stamp, hst, -⟩
    swap
    · cases hst
    have hlast : LogRange.last (Cut.range (.seq q) start.2) M = min q M.headSeq := rfl
    rw [hlast] at hes
    change es = between LogEntry.seq σ.log start.2 (min q M.headSeq) at hes
    have hkept : es.takeWhile (Cut.seq q).keeps = es := by
      refine List.takeWhile_eq_self_iff.mpr fun e he => ?_
      have hle := (mem_between.mp (hes ▸ he)).2.2
      exact decide_eq_true (hle.trans (Nat.min_le_left _ _))
    have hq := hs.cut q rfl
    refine ⟨min q M.headSeq, Nat.min_le_left _ _, (Nat.min_le_right _ _).trans hhead, ?_, ?_⟩
    · change min q M.headSeq = q ∨ b ≤ min q M.headSeq
      omega
    · change loadRefSnapshot .init (replay start.1
        ((es.takeWhile (Cut.seq q).keeps).flatMap LogEntry.txnWrites)) = _
      rw [hkept, hes]
      exact (isFold_replay hi hfold (by omega) ((Nat.min_le_right _ _).trans hhead)).2
  | time stamp =>
    have hpre : es.takeWhile (Cut.time stamp).keeps <+:
        between LogEntry.seq σ.log start.2 M.headSeq := by
      rcases hes hZ with hes | ⟨stamp', hst, hfirst⟩
      · have hlast : LogRange.last (Cut.range (.time stamp) start.2) M = M.headSeq :=
          Nat.min_self _
        rw [hlast] at hes
        rw [← show es = between LogEntry.seq σ.log start.2 M.headSeq from hes]
        exact List.takeWhile_prefix _
      · -- the first entry listed is already past the time
        cases hst
        cases es with
        | nil => exact List.nil_prefix
        | cons e es =>
          have hlt := hfirst e rfl
          rw [List.takeWhile_cons_of_neg]
          · exact List.nil_prefix
          · change ¬ decide (e.createdAt ≤ stamp) = true
            simpa using hlt
    have hkept := prefix_between hi.linked.log_pairwise hpre
    obtain ⟨hle, hto⟩ : start.2 ≤ (replayEntriesTo (.time stamp) start.1 start.2 es).2 ∧
        (replayEntriesTo (.time stamp) start.1 start.2 es).2 ≤ σ.head := by
      unfold replayEntriesTo
      cases hl : (es.takeWhile (Cut.time stamp).keeps).getLast? with
      | none =>
        simp only [hl, Option.map_none, Option.getD_none]
        exact ⟨Nat.le_refl _, hs.le⟩
      | some e =>
        have hin := (mem_between.mp (hpre.subset (List.mem_of_getLast? hl))).2
        simp only [hl, Option.map_some, Option.getD_some]
        omega
    have hres := isFold_replay hi hfold hle hto
    refine ⟨hto, ?_⟩
    rw [← hres.2]
    change loadRefSnapshot .init (replay start.1 ((es.takeWhile _).flatMap _)) = _
    rw [hkept]
    rfl

theorem spec_readHeld : ConsumerSpec L Z sinks t (Task.lift (call (.manifest h)))
    (fun σ => b ≤ σ.1.head) fun m σ => b ≤ σ.1.head ∧ Has m σ.1 := by
  refine ((ConsumerSpec.lift (N := fun _ => True) .const (Spec.read (o := .manifest h)
    (P := fun σ => b ≤ σ.head) (F := fun m => Has m) rfl (lasting_head).calm.stable
    (fun _ => lasting_has) ?_)).pre fun _ _ _ _ hn => ⟨hn, trivial⟩).post fun _ _ _ _ _ hx => hx.1
  intro σ c m hi _ _ hex
  obtain ⟨-, hd, hh, rfl⟩ := read_eq hex
  obtain ⟨a, ha, hman, -⟩ := (hi.handles h hd hh).pair
  exact ⟨a, ha, hman⟩

theorem spec_replayRefs : ConsumerSpec L Z sinks t (replayRefs h cut) (fun σ => b ≤ σ.1.head)
    fun r σ => ∀ p, r = .ok p → ExactLevel L → ConsumerHazard.trimmed ∈ Z →
      Answer.Exact σ.1 ⟨cut, b, p.1, p.2⟩ := by
  unfold replayRefs
  refine ConsumerSpec.bind spec_readHeld fun m => ?_
  have hN : Steady L Z sinks t fun σ => b ≤ σ.1.head ∧ Has m σ.1 :=
    lasting_head.steady.and lasting_has.steady
  refine ConsumerSpec.andThen (spec_startPoint hN fun σ hn => hn.2) (fun e σ hn => nofun)
    fun start => ?_
  have hN' : Steady L Z sinks t fun σ => (b ≤ σ.1.head ∧ Has m σ.1) ∧ StartOk L cut start σ.1 :=
    hN.and lasting_startOk.steady
  refine ConsumerSpec.andThen ((spec_readLog (b := max b start.2) hN' ?_ ?_).pre
    fun σ x _ _ hn => ⟨hn.1, hn.2 start rfl⟩) (fun e σ hn => nofun) fun es =>
    ConsumerSpec.ret fun σ x hi _ hn p hp hX hZ => ?_
  · exact fun σ _ hn => Nat.max_le.mpr ⟨hn.1.1, hn.2.le⟩
  · cases cut with
    | seq q => nofun
    | time stamp => exact fun _ => rfl
  · cases hp
    exact exact_answer hi hX hZ hn.1.2 (hn.2 es rfl)

theorem spec_refsAtSeq {q : ℕ} : ConsumerSpec L Z sinks t (refsAtSeq h q)
    (fun σ => b ≤ σ.1.head) fun r σ => ∀ p, r = .ok p → ExactLevel L →
      ConsumerHazard.trimmed ∈ Z → Answer.Exact σ.1 ⟨.seq q, b, p.1, p.2⟩ := by
  unfold refsAtSeq
  refine ConsumerSpec.bind spec_readHeld fun m => ?_
  simp only
  split
  · exact ConsumerSpec.ret fun σ x _ _ _ => nofun
  · exact spec_replayRefs.pre fun σ x _ _ hn => hn.1

theorem spec_noteAnswer {a : Answer} : ConsumerSpec L Z sinks t (consumerCall (.answer a))
    (fun σ => ExactLevel L → ConsumerHazard.trimmed ∈ Z → a.Exact σ.1) fun _ _ => True := by
  refine ConsumerSpec.step (fun _ => .const) ?_
  intro σ x c r x' hi hx hn _ he
  cases he
  have hgrows : Grows x { x with answers := a :: x.answers } :=
    ⟨rfl, rfl, fun _ h => h, fun _ h => h, fun _ h => h⟩
  refine ⟨hx.grows hgrows (fun _ d hd => .inl hd) fun hX hZ a' ha' => ?_, hgrows.guar, trivial⟩
  rcases List.mem_cons.mp ha' with rfl | ha'
  · exact .inr (hn hX hZ)
  · exact .inl ha'

theorem spec_historical : ConsumerSpec L Z sinks t (historical h cut) (fun _ => True)
    fun _ _ => True := by
  unfold historical
  refine ConsumerSpec.bind spec_enterConsumer fun _ => ?_
  refine ConsumerSpec.bind (R := fun b σ => b ≤ σ.1.head) ?_ fun b => ?_
  · refine (ConsumerSpec.look (o := .began) (N := fun _ => True) (F := fun b σ => b ≤ σ.1.head)
      .const (fun _ => lasting_head.steady) ?_ ?_).post fun _ _ _ _ _ hx => hx.2
    · intro c σ x r x' he
      cases he
      rfl
    · intro σ x c r _ _ _ _ he
      cases he
      exact Nat.le_refl _
  · cases cut with
    | seq q =>
      refine ConsumerSpec.bind spec_refsAtSeq fun r => ?_
      rcases r with e | ⟨snap, seq⟩
      · exact ConsumerSpec.ret fun _ _ _ _ _ => trivial
      · exact spec_noteAnswer.pre fun σ x _ _ hn => hn (snap, seq) rfl
    | time stamp =>
      refine ConsumerSpec.bind spec_replayRefs fun r => ?_
      rcases r with e | ⟨snap, seq⟩
      · exact ConsumerSpec.ret fun _ _ _ _ _ => trivial
      · exact spec_noteAnswer.pre fun σ x _ _ hn => hn (snap, seq) rfl

end Answers

end Walgit
