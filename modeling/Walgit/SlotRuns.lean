import Walgit.Slots
import Mathlib.Data.List.Induction

/-!
# Runs of the slot builders

Pushes, checkpoints and builds in any order. A build asks for the state of its
slot, cuts and uploads a bundle, and lists it. The law is about the entry and
about the file; it is an invariant of the bundles ever listed. The list itself
only loses entries to retention.
-/

namespace Walgit.Bundles

open Appliers SortedTable

/-- An entry and the file under its key, which carries the file's checksum. -/
structure Bundle where
  entry : BundleEntry
  file : BundleFile
  deriving DecidableEq, Repr

/-- A build in progress: its strategy, engine and cut, and the bundle once it is uploaded. -/
structure Job where
  strat : BundleStrategy
  engine : BundleEngine
  cut : Cut
  built : Option Bundle

/-- The repository, the list, every bundle listed so far (newest first), and the builds. -/
structure SlotWorld where
  repo : Repo
  bundles : List BundleEntry
  made : List Bundle
  jobs : ℕ → Option Job

def SlotWorld.init : SlotWorld := ⟨⟨[], none⟩, [], [], fun _ => none⟩

def SlotWorld.setJob (w : SlotWorld) (i : ℕ) (job : Option Job) : SlotWorld :=
  { w with jobs := fun j => if j = i then job else w.jobs j }

/-- The local copy's refs when it has applied the log up to a seq. -/
def Repo.localRefs (repo : Repo) (applied : ℕ) : RefTable :=
  foldRefs initRefs (repo.log.filter fun e => e.seq ≤ applied)

inductive SlotAct
  | push (e : LogRecord)
  | checkpoint (seq stamp : ℕ)
  | cut (i : ℕ) (builder : Builder) (source : Source) (strat : BundleStrategy)
      (engine : BundleEngine) (headSeq slot : ℕ)
  | upload (i applied : ℕ) (resolved : String → ℕ) (objects : List String) (key : String)
  | list (i : ℕ)
  | prune (ids : List String)
  | drop (i : ℕ)

/-- The tips of the cut's snapshot, or of the local copy's refs. -/
def Job.tips (job : Job) (repo : Repo) (applied : ℕ) (objects : List String) :
    List (String × String) :=
  cutTips job.strat.refs objects (job.cut.snapshot.getD (repo.localRefs applied))

/-- `build_and_upload`. The local copy goes on while the file is written: `resolved` is how far it
is when git comes to a name. -/
def Job.upload (git : Git) (cfg : BundlesConfig) (w : SlotWorld) (job : Job) (applied : ℕ)
    (resolved : String → ℕ) (objects : List String) (key : String) : Option Job :=
  let tips := job.tips w.repo applied objects
  if tips = [] then none
  else do
    let (base, prerequisites) ← basis cfg w.bundles job.strat job.cut.slot
    let file ← createBundle git job.engine (fun name => w.repo.localRefs (resolved name))
      (tips.map Prod.fst) tips prerequisites
    some { job with built := some ⟨⟨job.strat.name ++ "-" ++ toString job.cut.slot, key,
      job.strat.name, job.cut.slot, job.cut.slot, job.cut.seq, base, tips⟩, file⟩ }

/-- One step. `drop` is a build that its gates, an error or a crash ends. -/
def slotStep (git : Git) (cfg : BundlesConfig) (w : SlotWorld) : SlotAct → Option SlotWorld
  | .push e =>
    if e.seq = w.repo.log.length + 1 then
      some { w with repo := { w.repo with log := w.repo.log ++ [e] } }
    else none
  | .checkpoint seq stamp =>
    if seq ∈ w.repo.log.map LogRecord.seq then
      some { w with repo := { w.repo with checkpoint := some (seq, stamp) } }
    else none
  | .cut i builder source strat engine headSeq slot =>
    -- neither builder cuts a full with the gix engine
    if strat ∈ cfg ∧ (w.jobs i).isNone ∧ (strat.kind = .full → engine = .git) then
      (builder.cut source w.repo strat.kind headSeq slot).map fun cut =>
        w.setJob i (some ⟨strat, engine, cut, none⟩)
    else none
  | .upload i applied resolved objects key =>
    match w.jobs i with
    | some job =>
      if job.built.isNone then
        (job.upload git cfg w applied resolved objects key).map fun job => w.setJob i (some job)
      else none
    | none => none
  | .list i =>
    match (w.jobs i).bind Job.built with
    | some bundle =>
      some ({ w with bundles := retain cfg (withBuilt bundle.entry w.bundles),
                     made := bundle :: w.made }.setJob i none)
    | none => none
  | .prune ids => some { w with bundles := w.bundles.filter fun b => b.id ∉ ids }
  | .drop i => some (w.setJob i none)

inductive SlotRun (git : Git) (cfg : BundlesConfig) : SlotWorld → Prop
  | init : SlotRun git cfg .init
  | step {w w' : SlotWorld} {a : SlotAct} : SlotRun git cfg w → slotStep git cfg w a = some w' →
      SlotRun git cfg w'

/-! ## The law -/

/-- The tips of the entry, and the refs in the file, are those of a snapshot that stands for
`state`. -/
def CutFrom (strat : BundleStrategy) (state : RefTable) (b : Bundle) : Prop :=
  ∃ snap objects, Appliers.loadRefSnapshot initRefs snap = state ∧
    b.entry.tips = cutTips strat.refs objects snap ∧ b.file.refs = cutTips strat.refs objects snap

/-- No bundle of the strategy was listed before this one. -/
def First (made : List Bundle) (b : Bundle) : Prop :=
  ∃ newer older, made = newer ++ b :: older ∧
    ∀ o ∈ older, o.entry.strategy ≠ b.entry.strategy

def Lawful (cfg : BundlesConfig) (log : List LogRecord) (made : List Bundle) (b : Bundle) : Prop :=
  ∃ strat ∈ cfg, strat.name = b.entry.strategy ∧
    (CutFrom strat (asOf log b.entry.slot) b ∨
      strat.kind = .full ∧ First made b ∧ CutFrom strat (earliest log) b)

/-- The law of a listed entry: it was made, and every bundle made under it is lawful. -/
def SlotWorld.Keeps (cfg : BundlesConfig) (w : SlotWorld) (b : BundleEntry) : Prop :=
  (∃ m ∈ w.made, m.entry = b) ∧ ∀ m ∈ w.made, m.entry = b → Lawful cfg w.repo.log w.made m

/-! ## The condition on the steps -/

/-- In the local copy, as far as it is at every name, the tips are where the cut found them. -/
def SlotWorld.Unmoved (w : SlotWorld) (resolved : String → ℕ) (tips : List (String × String)) :
    Prop :=
  ∀ t ∈ tips, pointsTo (w.repo.localRefs (resolved t.1)) t.1 = some t.2

def SlotSound (w : SlotWorld) : SlotAct → Prop
  | .push e =>
    (∀ x ∈ w.repo.log, x.createdAt ≤ e.createdAt) ∧
    (∀ i job, w.jobs i = some job → job.cut.slot < e.createdAt) ∧
    ∀ b ∈ w.made, b.entry.slot < e.createdAt
  | .checkpoint seq stamp => ∃ e ∈ w.repo.log, e.seq = seq ∧ e.createdAt = stamp
  | .cut _ _ source strat _ _ slot => source.refsAsOf w.repo slot = none → strat.kind = .full
  | .upload i applied resolved objects _ => ∀ job, w.jobs i = some job →
      (job.cut.snapshot = none → w.repo.localRefs applied = earliest w.repo.log) ∧
      (job.engine = .git → w.Unmoved resolved (job.tips w.repo applied objects))
  | .list i => ∀ job, w.jobs i = some job → job.cut.snapshot = none →
      ∀ b ∈ w.made, b.entry.strategy ≠ job.strat.name
  | _ => True

theorem load_fold (t : RefTable) (log : List LogRecord) :
    Appliers.loadRefSnapshot initRefs (foldRefs t log) =
      foldRefs (Appliers.loadRefSnapshot initRefs t) log := by
  obtain ⟨hf, hh⟩ := merge_spec rawEntry_name t (log.map LogRecord.updates).flatten
  obtain ⟨hf', hh'⟩ := merge_spec rawEntry_name (Appliers.loadRefSnapshot initRefs t)
    (log.map LogRecord.updates).flatten
  refine RefTable.ext_find (fun name => ?_) ?_
  · rw [find_loadRefSnapshot, foldRefs, replayRefs, hf, foldRefs, replayRefs, hf',
      find_loadRefSnapshot]
  · rw [foldRefs, replayRefs, foldRefs, replayRefs, hh']
    cases hl : lastTarget (log.map LogRecord.updates).flatten with
    | none =>
      rw [hl, Option.getD_none] at hh
      rw [Option.getD_none, loadRefSnapshot_head, loadRefSnapshot_head, hh]
    | some target =>
      rw [hl, Option.getD_some] at hh
      rw [Option.getD_some, loadRefSnapshot_head, hh, if_neg (lastTarget_ne_empty hl)]

theorem foldRefs_append (t : RefTable) (l l' : List LogRecord) :
    foldRefs t (l ++ l') = foldRefs (foldRefs t l) l' := by
  simp [foldRefs, replayRefs]

/-- A log as it is appended: seqs rise from one, stamps do not fall. -/
def Ordered (log : List LogRecord) : Prop :=
  log.Pairwise fun a b => a.seq < b.seq ∧ a.createdAt ≤ b.createdAt

variable {log : List LogRecord} {x y : LogRecord} {time : ℕ}

theorem Ordered.stamps (h : Ordered log) (hx : x ∈ log) (hy : y ∈ log) (hlt : x.seq < y.seq) :
    x.createdAt ≤ y.createdAt := by
  induction log with
  | nil => cases hx
  | cons a l ih =>
    obtain ⟨ha, hl⟩ := List.pairwise_cons.mp h
    rcases List.mem_cons.mp hx with rfl | hx'
    · rcases List.mem_cons.mp hy with rfl | hy'
      · exact absurd hlt (lt_irrefl _)
      · exact (ha y hy').2
    · rcases List.mem_cons.mp hy with rfl | hy'
      · exact absurd hlt (not_lt_of_gt (ha x hx').1)
      · exact ih hl hx' hy'

theorem Ordered.eq_of_seq (h : Ordered log) (hx : x ∈ log) (hy : y ∈ log) (he : x.seq = y.seq) :
    x = y := by
  have hnodup : (log.map LogRecord.seq).Nodup :=
    List.pairwise_map.mpr (h.imp fun hab => ne_of_lt hab.1)
  exact List.inj_on_of_nodup_map hnodup hx hy he

theorem Ordered.takeWhile_eq (h : Ordered log) :
    (log.takeWhile fun e => e.createdAt ≤ time) = log.filter fun e => e.createdAt ≤ time := by
  induction log with
  | nil => rfl
  | cons a l ih =>
    obtain ⟨ha, hl⟩ := List.pairwise_cons.mp h
    by_cases hle : a.createdAt ≤ time
    · rw [List.takeWhile_cons_of_pos (by simpa using hle),
        List.filter_cons_of_pos (by simpa using hle), ih hl]
    · rw [List.takeWhile_cons_of_neg (by simpa using hle),
        List.filter_cons_of_neg (by simpa using hle)]
      refine (List.filter_eq_nil_iff.mpr fun e he => ?_).symm
      have := (ha e he).2
      simp only [decide_eq_true_eq]
      omega

theorem Ordered.split (h : Ordered log) (seq : ℕ) :
    log = (log.filter fun e => e.seq ≤ seq) ++ log.filter fun e => seq < e.seq := by
  induction log with
  | nil => rfl
  | cons a l ih =>
    obtain ⟨ha, hl⟩ := List.pairwise_cons.mp h
    by_cases hle : a.seq ≤ seq
    · rw [List.filter_cons_of_pos (by simpa using hle),
        List.filter_cons_of_neg (by simpa using hle), List.cons_append, ← ih hl]
    · have hnone : (l.filter fun e => e.seq ≤ seq) = [] := by
        refine List.filter_eq_nil_iff.mpr fun e he => ?_
        have := (ha e he).1
        simp only [decide_eq_true_eq]
        omega
      have hall : (l.filter fun e => seq < e.seq) = l := by
        refine List.filter_eq_self.mpr fun e he => ?_
        have := (ha e he).1
        simp only [decide_eq_true_eq]
        omega
      rw [List.filter_cons_of_neg (by simpa using hle), hnone, List.nil_append,
        List.filter_cons_of_pos (by simpa using hle), hall]

/-- A repository as a sound run leaves it. -/
structure Repo.Orderly (repo : Repo) : Prop where
  ordered : Ordered repo.log
  positive : ∀ e ∈ repo.log, 0 < e.seq
  stamped : ∀ seq stamp, repo.checkpoint = some (seq, stamp) →
    ∃ e ∈ repo.log, e.seq = seq ∧ e.createdAt = stamp

/-- The server's source answers with the state as of the time, if it answers. -/
theorem Repo.Orderly.replayAsOf {repo : Repo} (h : repo.Orderly)
    (hseq : (repo.replayAsOf time).2 ≠ 0) :
    Appliers.loadRefSnapshot initRefs (repo.replayAsOf time).1 = asOf repo.log time := by
  unfold Repo.replayAsOf at hseq ⊢
  cases hcp : repo.checkpoint with
  | none =>
    have hstart : repo.start time = (emptyRefs, 0) := by rw [Repo.start, hcp]
    have hread : repo.readLog 0 = repo.log := by
      refine List.filter_eq_self.mpr fun e he => ?_
      simpa [hcp] using h.positive e he
    simp only [hstart, hread, h.ordered.takeWhile_eq]
    exact load_fold _ _
  | some cp =>
    obtain ⟨seq, stamp⟩ := cp
    obtain ⟨e, he, rfl, rfl⟩ := h.stamped seq stamp hcp
    have hread : repo.readLog e.seq = repo.log.filter fun x => e.seq < x.seq := by
      simp [Repo.readLog, hcp]
    by_cases hle : e.createdAt ≤ time
    · have hstart : repo.start time = (repo.checkpointRefs e.seq, e.seq) := by
        rw [Repo.start, hcp]
        exact if_pos hle
      have hpast : Ordered (repo.log.filter fun x => e.seq < x.seq) := h.ordered.filter _
      have hfolded : ((repo.log.filter fun x => x.seq ≤ e.seq).filter fun x => x.createdAt ≤ time) =
          repo.log.filter fun x => x.seq ≤ e.seq := by
        refine List.filter_eq_self.mpr fun x hx => ?_
        obtain ⟨hx, hxs⟩ := List.mem_filter.mp hx
        have hstamp : x.createdAt ≤ e.createdAt := by
          rcases Nat.lt_or_eq_of_le (by simpa using hxs) with hlt | heq
          · exact h.ordered.stamps hx he hlt
          · rw [h.ordered.eq_of_seq hx he heq]
        simpa using hstamp.trans hle
      have hsplit : (repo.log.filter fun x => x.createdAt ≤ time) =
          (repo.log.filter fun x => x.seq ≤ e.seq) ++
            (repo.log.filter fun x => e.seq < x.seq).filter fun x => x.createdAt ≤ time := by
        conv_lhs => rw [h.ordered.split e.seq]
        rw [List.filter_append, hfolded]
      simp only [hstart, hread, hpast.takeWhile_eq]
      rw [Repo.checkpointRefs, ← foldRefs_append, ← hsplit, load_fold]
      rfl
    · -- entries past the checkpoint are stamped after the cut: nothing is replayed
      have hstart : repo.start time = (emptyRefs, 0) := by
        rw [Repo.start, hcp]
        exact if_neg hle
      have hnone : ((repo.readLog 0).takeWhile fun x => x.createdAt ≤ time) = [] := by
        rw [(show Ordered (repo.readLog 0) from h.ordered.filter _).takeWhile_eq]
        refine List.filter_eq_nil_iff.mpr fun x hx => ?_
        obtain ⟨hx, hxs⟩ := List.mem_filter.mp hx
        have hlt : e.seq < x.seq := by simpa [hcp] using (of_decide_eq_true hxs).2
        have := h.ordered.stamps he hx hlt
        simp only [decide_eq_true_eq]
        omega
      simp [hstart, hnone] at hseq

/-! ## The invariant -/

section Invariant

variable (cfg : BundlesConfig) (log : List LogRecord)

/-- What a build in progress holds: the state as of its slot, or nothing for a full. -/
structure JobOk (job : Job) : Prop where
  strat : job.strat ∈ cfg
  snapshot : ∀ snap, job.cut.snapshot = some snap →
    Appliers.loadRefSnapshot initRefs snap = asOf log job.cut.slot
  full : job.cut.snapshot = none → job.strat.kind = .full
  named : ∀ b, job.built = some b →
    job.strat.name = b.entry.strategy ∧ b.entry.slot = job.cut.slot
  content : ∀ b, job.built = some b → job.cut.snapshot ≠ none →
    CutFrom job.strat (asOf log b.entry.slot) b
  fallback : ∀ b, job.built = some b → job.cut.snapshot = none →
    log ≠ [] ∧ CutFrom job.strat (earliest log) b

/-- The law, with a log that has begun where the earliest state is used. -/
def Kept (made : List Bundle) (b : Bundle) : Prop :=
  ∃ strat ∈ cfg, strat.name = b.entry.strategy ∧
    (CutFrom strat (asOf log b.entry.slot) b ∨
      strat.kind = .full ∧ First made b ∧ log ≠ [] ∧ CutFrom strat (earliest log) b)

end Invariant

structure SlotInv (cfg : BundlesConfig) (w : SlotWorld) : Prop where
  orderly : w.repo.Orderly
  counted : ∀ e ∈ w.repo.log, e.seq ≤ w.repo.log.length
  jobs : ∀ i job, w.jobs i = some job → JobOk cfg w.repo.log job
  made : ∀ b ∈ w.made, Kept cfg w.repo.log w.made b
  listed : ∀ b ∈ w.bundles, ∃ m ∈ w.made, m.entry = b

variable {git : Git} {cfg : BundlesConfig} {w w' : SlotWorld} {i : ℕ} {job : Job}

theorem SlotInv.keeps (h : SlotInv cfg w) : ∀ b ∈ w.bundles, w.Keeps cfg b := by
  intro b hb
  refine ⟨h.listed b hb, fun m hm _ => ?_⟩
  obtain ⟨strat, hs, hn, hlaw⟩ := h.made m hm
  exact ⟨strat, hs, hn, hlaw.imp_right fun hfull => ⟨hfull.1, hfull.2.1, hfull.2.2.2⟩⟩

theorem SlotInv.setJob (h : SlotInv cfg w) {j : Option Job}
    (hj : ∀ job, j = some job → JobOk cfg w.repo.log job) : SlotInv cfg (w.setJob i j) := by
  refine ⟨h.orderly, h.counted, fun k job hk => ?_, h.made, h.listed⟩
  by_cases hki : k = i
  · exact hj job (by simpa [SlotWorld.setJob, hki] using hk)
  · exact h.jobs k job (by simpa [SlotWorld.setJob, hki] using hk)

theorem asOf_append {e : LogRecord} (h : time < e.createdAt) :
    asOf (log ++ [e]) time = asOf log time := by
  have hnot : ¬ e.createdAt ≤ time := not_le_of_gt h
  simp [asOf, List.filter_append, hnot]

theorem earliest_append {e : LogRecord} (h : log ≠ []) : earliest (log ++ [e]) = earliest log := by
  cases log with
  | nil => exact absurd rfl h
  | cons a l => rfl

theorem JobOk.append {e : LogRecord} (h : JobOk cfg log job) (he : job.cut.slot < e.createdAt) :
    JobOk cfg (log ++ [e]) job where
  strat := h.strat
  snapshot snap hs := by rw [asOf_append he, h.snapshot snap hs]
  full := h.full
  named := h.named
  content b hb hs := by
    rw [asOf_append ((h.named b hb).2 ▸ he)]
    exact h.content b hb hs
  fallback b hb hs := by
    obtain ⟨hne, hc⟩ := h.fallback b hb hs
    exact ⟨by simp, by rwa [earliest_append hne]⟩

theorem Kept.append {made : List Bundle} {b : Bundle} {e : LogRecord}
    (h : Kept cfg log made b) (he : b.entry.slot < e.createdAt) : Kept cfg (log ++ [e]) made b := by
  obtain ⟨strat, hs, hn, hc | ⟨hf, h1, hne, hc⟩⟩ := h
  · exact ⟨strat, hs, hn, .inl (by rwa [asOf_append he])⟩
  · exact ⟨strat, hs, hn, .inr ⟨hf, h1, by simp, by rwa [earliest_append hne]⟩⟩

theorem Kept.cons {made : List Bundle} {b new : Bundle} (h : Kept cfg log made b) :
    Kept cfg log (new :: made) b := by
  obtain ⟨strat, hs, hn, hc | ⟨hf, ⟨newer, older, rfl, ho⟩, hne, hc⟩⟩ := h
  · exact ⟨strat, hs, hn, .inl hc⟩
  · exact ⟨strat, hs, hn, .inr ⟨hf, ⟨new :: newer, older, rfl, ho⟩, hne, hc⟩⟩

theorem SlotInv.push (h : SlotInv cfg w) {e : LogRecord} (hseq : e.seq = w.repo.log.length + 1)
    (hs : SlotSound w (.push e)) :
    SlotInv cfg { w with repo := { w.repo with log := w.repo.log ++ [e] } } := by
  obtain ⟨hstamp, hjobs, hmade⟩ := hs
  refine ⟨⟨?_, ?_, ?_⟩, ?_, ?_, ?_, h.listed⟩
  · refine List.pairwise_append.mpr ⟨h.orderly.ordered, List.pairwise_singleton _ _, ?_⟩
    intro x hx y hy
    rw [List.mem_singleton.mp hy]
    exact ⟨hseq ▸ Nat.lt_succ_of_le (h.counted x hx), hstamp x hx⟩
  · intro x hx
    rcases List.mem_append.mp hx with hx | hx
    · exact h.orderly.positive x hx
    · rw [List.mem_singleton.mp hx, hseq]
      exact Nat.succ_pos _
  · intro seq stamp hcp
    obtain ⟨x, hx, hxs⟩ := h.orderly.stamped seq stamp hcp
    exact ⟨x, List.mem_append_left _ hx, hxs⟩
  · intro x hx
    change x.seq ≤ (w.repo.log ++ [e]).length
    rw [List.length_append, List.length_singleton]
    rcases List.mem_append.mp hx with hx | hx
    · exact (h.counted x hx).trans (Nat.le_succ _)
    · rw [List.mem_singleton.mp hx, hseq]
  · exact fun j job hj => (h.jobs j job hj).append (hjobs j job hj)
  · exact fun b hb => (h.made b hb).append (hmade b hb)

theorem cut_spec {builder : Builder} {source : Source} {repo : Repo} {kind : BundleKind}
    {headSeq slot : ℕ} {cut : Cut} (h : builder.cut source repo kind headSeq slot = some cut) :
    cut.slot = slot ∧
      ((∃ snap seq, source.refsAsOf repo slot = some (snap, seq) ∧ cut.snapshot = some snap) ∨
        source.refsAsOf repo slot = none ∧ cut.snapshot = none) := by
  unfold Builder.cut at h
  cases hsource : source.refsAsOf repo slot with
  | some answer =>
    obtain ⟨snap, seq⟩ := answer
    simp only [hsource] at h
    cases h
    exact ⟨rfl, .inl ⟨snap, seq, rfl, rfl⟩⟩
  | none =>
    simp only [hsource] at h
    cases builder <;> cases kind <;> cases h
    all_goals exact ⟨rfl, .inr ⟨rfl, rfl⟩⟩

theorem refsAsOf_spec {source : Source} {repo : Repo} {slot seq : ℕ} {snap : RefTable}
    (hr : repo.Orderly) (h : source.refsAsOf repo slot = some (snap, seq)) :
    Appliers.loadRefSnapshot initRefs snap = asOf repo.log slot := by
  cases source with
  | registry => cases h
  | server =>
    simp only [Source.refsAsOf] at h
    split_ifs at h with hseq
    rw [← hr.replayAsOf hseq, Option.some.inj h]

theorem SlotInv.cut (h : SlotInv cfg w) {builder : Builder} {source : Source}
    {strat : BundleStrategy} {engine : BundleEngine} {headSeq slot : ℕ} {cut : Cut}
    (hstrat : strat ∈ cfg) (hs : SlotSound w (.cut i builder source strat engine headSeq slot))
    (hcut : builder.cut source w.repo strat.kind headSeq slot = some cut) :
    SlotInv cfg (w.setJob i (some ⟨strat, engine, cut, none⟩)) := by
  obtain ⟨hslot, hsnap⟩ := cut_spec hcut
  refine h.setJob fun job hj => ?_
  obtain rfl := Option.some.inj hj
  refine ⟨hstrat, fun snap hsome => ?_, fun hnone => ?_, fun e he => (by cases he),
    fun e he => (by cases he), fun e he => (by cases he)⟩
  · obtain ⟨snap', seq, hsource, hcs⟩ | ⟨-, hcs⟩ := hsnap
    · obtain rfl : snap' = snap := Option.some.inj (hcs.symm.trans hsome)
      change _ = asOf _ cut.slot
      rw [hslot]
      exact refsAsOf_spec h.orderly hsource
    · rw [hcs] at hsome
      cases hsome
  · obtain ⟨snap, seq, -, hcs⟩ | ⟨hsource, -⟩ := hsnap
    · rw [hcs] at hnone
      cases hnone
    · exact hs hsource

theorem filterRefs_nodup {patterns : List String} {snap : RefTable} :
    ((filterRefs patterns snap).map Prod.fst).Nodup := by
  have hnamed : (((snap.refs.filter fun r => (effective patterns).any (matchesPattern r.name)).map
      fun r => (r.name, r.oid)).map Prod.fst).Nodup := by
    rw [List.map_map]
    exact List.pairwise_map.mpr ((List.Pairwise.filter _ snap.sorted).imp fun h => ne_of_lt h)
  simp only [filterRefs]
  split_ifs with hhead
  · cases hfind : snap.find snap.headTarget with
    | none => simpa using hnamed
    | some r =>
      rw [List.map_append]
      refine hnamed.append (List.nodup_singleton "HEAD") fun name hname hr => hhead.2 ?_
      obtain rfl : name = "HEAD" := List.mem_singleton.mp hr
      exact hname
  · exact hnamed

theorem cutTips_nodup {patterns objects : List String} {snap : RefTable} :
    ((cutTips patterns objects snap).map Prod.fst).Nodup :=
  filterRefs_nodup.sublist (List.filter_sublist.map Prod.fst)

/-- The file holds the tips: always with gix, with git where the names still stand for them. -/
theorem createBundle_refs {engine : BundleEngine} {copy : String → RefTable}
    {tips : List (String × String)} {prerequisites : List String} {file : BundleFile}
    (hgit : git.Lawful) (hnodup : (tips.map Prod.fst).Nodup)
    (hmoved : engine = .git → ∀ t ∈ tips, pointsTo (copy t.1) t.1 = some t.2)
    (h : createBundle git engine copy (tips.map Prod.fst) tips prerequisites = some file) :
    file.refs = tips := by
  cases engine with
  | gix =>
    obtain rfl := Option.some.inj h
    rw [List.filterMap_map]
    refine (List.filterMap_congr fun t ht => ?_).trans List.filterMap_some
    obtain ⟨u, hu⟩ := Option.isSome_iff_exists.mp
      ((List.find?_isSome (p := fun u => decide (u.1 = t.1))).mpr ⟨t, ht, decide_eq_true rfl⟩)
    have hname : u.1 = t.1 := by simpa using List.find?_some hu
    rw [Function.comp_apply, hu,
      List.inj_on_of_nodup_map hnodup (List.mem_of_find?_eq_some hu) ht hname]
  | git =>
    simp only [createBundle] at h
    split_ifs at h
    obtain rfl := Option.some.inj h
    rw [List.filterMap_map]
    refine (List.filterMap_congr fun t ht => ?_).trans List.filterMap_some
    rw [Function.comp_apply, hgit _ _ _ (hmoved rfl t ht)]
    rfl

theorem upload_spec {applied : ℕ} {resolved : String → ℕ} {objects : List String} {key : String}
    {job' : Job} (hgit : git.Lawful)
    (hmoved : job.engine = .git → w.Unmoved resolved (job.tips w.repo applied objects))
    (h : job.upload git cfg w applied resolved objects key = some job') :
    job'.strat = job.strat ∧ job'.cut = job.cut ∧ job.tips w.repo applied objects ≠ [] ∧
      ∃ b, job'.built = some b ∧ b.entry.strategy = job.strat.name ∧ b.entry.slot = job.cut.slot ∧
        b.entry.tips = job.tips w.repo applied objects ∧
        b.file.refs = job.tips w.repo applied objects := by
  simp only [Job.upload] at h
  split_ifs at h with htips
  obtain ⟨⟨base, prerequisites⟩, -, h⟩ := Option.bind_eq_some_iff.mp h
  obtain ⟨file, hfile, h⟩ := Option.bind_eq_some_iff.mp h
  obtain rfl := Option.some.inj h
  exact ⟨rfl, rfl, htips, _, rfl, rfl, rfl, rfl,
    createBundle_refs hgit cutTips_nodup hmoved hfile⟩

theorem cutTips_nil {patterns objects : List String} {snap : RefTable} (h : snap.refs = []) :
    cutTips patterns objects snap = [] := by
  have hnone : filterRefs patterns snap = [] := by
    simp [filterRefs, RefTable.find, h]
  rw [cutTips, hnone, List.filter_nil]

theorem SlotInv.upload (h : SlotInv cfg w) {applied : ℕ} {resolved : String → ℕ}
    {objects : List String} {key : String} {job' : Job} (hgit : git.Lawful)
    (hs : SlotSound w (.upload i applied resolved objects key)) (hj : w.jobs i = some job)
    (hup : job.upload git cfg w applied resolved objects key = some job') :
    SlotInv cfg (w.setJob i (some job')) := by
  obtain ⟨hearliest, hmoved⟩ := hs job hj
  obtain ⟨hstrat, hcut, hne, b, hb, hname, hslot, htips, hrefs⟩ := upload_spec hgit hmoved hup
  have hok := h.jobs i job hj
  have hbuilt : ∀ b', job'.built = some b' → b' = b := fun b' hb' =>
    Option.some.inj (hb'.symm.trans hb)
  refine h.setJob fun j hj' => ?_
  obtain rfl := Option.some.inj hj'
  refine ⟨hstrat ▸ hok.strat, hcut ▸ hok.snapshot, hstrat ▸ hcut ▸ hok.full, fun b' hb' => ?_,
    fun b' hb' hsome => ?_, fun b' hb' hnone => ?_⟩
  · rw [hbuilt b' hb', hstrat, hcut]
    exact ⟨hname.symm, hslot⟩
  · rw [hcut] at hsome
    obtain ⟨snap, hsnap⟩ := Option.ne_none_iff_exists'.mp hsome
    rw [Job.tips, hsnap, Option.getD_some] at htips hrefs
    rw [hbuilt b' hb', hstrat, hslot]
    exact ⟨snap, objects, hok.snapshot snap hsnap, htips, hrefs⟩
  · rw [hcut] at hnone
    rw [Job.tips, hnone, Option.getD_none, hearliest hnone] at htips hrefs hne
    rw [hbuilt b' hb', hstrat]
    refine ⟨fun hempty => hne ?_, earliest w.repo.log, objects, ?_, htips, hrefs⟩
    · -- from an empty log the local copy has no refs to cut
      rw [hempty]
      exact cutTips_nil rfl
    · exact load_fold initRefs _

theorem SlotInv.list (h : SlotInv cfg w) {b : Bundle} (hs : SlotSound w (.list i))
    (hj : w.jobs i = some job) (hb : job.built = some b) :
    SlotInv cfg ({ w with bundles := retain cfg (withBuilt b.entry w.bundles),
                          made := b :: w.made }.setJob i none) := by
  have hok := h.jobs i job hj
  have hnamed := hok.named b hb
  have hkept : Kept cfg w.repo.log (b :: w.made) b := by
    refine ⟨job.strat, hok.strat, hnamed.1, ?_⟩
    by_cases hnone : job.cut.snapshot = none
    · obtain ⟨hne, hc⟩ := hok.fallback b hb hnone
      refine .inr ⟨hok.full hnone, ⟨[], w.made, rfl, fun o ho => ?_⟩, hne, hc⟩
      exact hnamed.1 ▸ hs job hj hnone o ho
    · exact .inl (hok.content b hb hnone)
  have hworld : SlotInv cfg { w with bundles := retain cfg (withBuilt b.entry w.bundles),
                                     made := b :: w.made } := by
    refine ⟨h.orderly, h.counted, h.jobs, fun m hm => ?_, fun e he => ?_⟩
    · rcases List.mem_cons.mp hm with rfl | hm
      · exact hkept
      · exact (h.made m hm).cons
    · rcases mem_withBuilt (mem_retain.mp he).1 with he | rfl
      · obtain ⟨m, hm, hme⟩ := h.listed e he
        exact ⟨m, List.mem_cons_of_mem b hm, hme⟩
      · exact ⟨b, List.mem_cons_self, rfl⟩
  exact hworld.setJob fun _ hj => (by cases hj)

def slotExec (git : Git) (cfg : BundlesConfig) (w : SlotWorld) : List SlotAct → Option SlotWorld
  | [] => some w
  | a :: as => (slotStep git cfg w a).bind fun w => slotExec git cfg w as

theorem SlotRun.exec {acts : List SlotAct} (h : SlotRun git cfg w)
    (he : slotExec git cfg w acts = some w') : SlotRun git cfg w' := by
  induction acts generalizing w with
  | nil =>
    cases he
    exact h
  | cons a as ih =>
    obtain ⟨mid, hmid, he⟩ := Option.bind_eq_some_iff.mp he
    exact ih (h.step hmid) he

theorem Lawful.file_eq {made : List Bundle} {b : Bundle} (h : Lawful cfg log made b) :
    b.file.refs = b.entry.tips := by
  obtain ⟨strat, -, -, ⟨snap, objects, -, htips, hrefs⟩ |
    ⟨-, -, snap, objects, -, htips, hrefs⟩⟩ := h
  · exact hrefs.trans htips.symm
  · exact hrefs.trans htips.symm

end Walgit.Bundles
