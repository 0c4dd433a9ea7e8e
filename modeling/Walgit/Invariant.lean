import Walgit.Fold
import Walgit.Hazard

/-!
# The invariant and what tasks promise each other

The invariant has three strata. Whatever the races avoided, as long as the
handles' pairs are not torn, the history is linked and committed segments are
in the store. When the races on local refs are avoided too, the refs of a
handle that holds its proof, and every stored snapshot, are near the fold of
the log. When nothing leaves refs half way, they are the fold itself whenever
the mutex is free.
-/

namespace Walgit

open Interleaving Replay

variable (L : List Hazard)

def RefsLevel : Prop := refsHazards ⊆ L

def ExactLevel : Prop := exactHazards ⊆ L

def CasLevel : Prop := refsHazards ⊆ L ∧ Hazard.staleView ∈ L ∧ Hazard.repeatedRef ∈ L

def SnapLevel : Prop := ExactLevel L ∨ (refsHazards ⊆ L ∧ Hazard.inexactSnapshot ∈ L)

/-- The pair of manifest and version is not torn and its manifest field does not go back. Where
the races on local refs are avoided, writers that hold the mutex see to the latter. -/
structure PairLevel : Prop where
  tornRead : Hazard.tornRead ∈ L
  tornWrite : Hazard.tornWrite ∈ L
  landedTorn : Hazard.landedTorn ∈ L
  forward : Hazard.backwards ∈ L ∨ (Hazard.unlockedBackwards ∈ L ∧ RefsLevel L)

theorem PairLevel.of_subset {L : List Hazard} (h : pairHazards ⊆ L) : PairLevel L :=
  ⟨h (by decide), h (by decide), h (by decide), .inl (h (by decide))⟩

theorem PairLevel.refl : PairLevel pairHazards := .of_subset fun _ hz => hz

theorem ExactLevel.refs {L : List Hazard} (h : ExactLevel L) : RefsLevel L :=
  fun _ hz => h (List.mem_append_left _ hz)

/-- `HEAD` is where `init` put it unless some entry up to `b` moved it. -/
def HeadOk (log : List LogEntry) (refs : RefState) (b : ℕ) : Prop :=
  refs .head = RefState.init .head ∨ Touched LogEntry.seq LogEntry.writes log 0 b .head

structure NearHandle (σ : World) (hd : Handle) : Prop where
  applied : hd.state.appliedSeq ≤ hd.manifest.headSeq
  near : ∃ k ≤ σ.head, NearFold σ.log hd.refs hd.state.appliedSeq k ∧
    NearFold σ.log hd.refs hd.manifest.headSeq k

/-- The refs are those of the manifest and of the applied seq, which are one where no writer
moves the head without the mutex. -/
structure Settled (σ : World) (hd : Handle) : Prop where
  le : hd.state.appliedSeq ≤ hd.manifest.headSeq
  applied : hd.refs = foldUpto σ.log hd.state.appliedSeq
  manifest : hd.refs = foldUpto σ.log hd.manifest.headSeq
  same : Hazard.unlockedHead ∈ L → hd.state.appliedSeq = hd.manifest.headSeq

structure HandleInv (σ : World) (hd : Handle) : Prop where
  pair : ∃ c ∈ σ.commits, c.manifest = hd.manifest ∧ ∀ v, hd.version = some v → v ≤ c.version
  headOk : RefsLevel L → HeadOk σ.log hd.refs σ.head
  near : RefsLevel L → hd.verified = true → NearHandle σ hd
  settled : ExactLevel L → hd.syncMutex = none →
    hd.verified = true ∨ Hazard.unlockUnproven ∈ L → Settled L σ hd

structure SnapOk (σ : World) (seq : ℕ) (snap : RefState) : Prop where
  le : seq ≤ σ.head
  near : ∃ k ≤ σ.head, NearFold σ.log snap seq k
  exact : SnapLevel L → snap = foldUpto σ.log seq

/-- An answered verdict says whether the slot was committed, and the slot is its task's. -/
structure VerdictOk (σ : World) (v : Verdict) : Prop where
  fresh : v.slot.version < σ.next
  own : ∀ q o, σ.segs q = some o → o.version = v.slot.version → o.task = v.task
  exact : Hazard.landedTrimmed ∈ L → (v.found = true ↔ σ.Committed v.slot)

def FailCause.uncommitted : FailCause → Prop
  | .notLanded => True
  | .retry _ => True
  | _ => False

def ReplyLevel : Prop :=
  Hazard.landedTrimmed ∈ L ∧ Hazard.landedUnread ∈ L ∧ Hazard.mixedVerdict ∈ L

/-- What a batch was told is committed: the seq and the transaction of each such request. -/
def acknowledged (answers : List (PublishRequest × Reply)) : List (ℕ × Option RefTransaction) :=
  answers.filterMap fun a => match a.2 with
    | .done seq _ => if seq = 0 then none else some (seq, some a.1.txn)
    | .failed _ => none

def World.committedBy (σ : World) (t : ℕ) : List (ℕ × Option RefTransaction) :=
  (σ.commits.filter fun c => c.task = some t).flatMap fun c =>
    c.entries.map fun e => (e.seq, e.txn)

/-- Every ref of an answered request is reported with its transaction's verdict. -/
def Reply.Uniform (txn : RefTransaction) : Reply → Prop
  | .done seq perRef => perRef.map Prod.fst = txn.updates.map RefUpdate.name ∧
      ∀ r ∈ perRef, isOk r.2 = decide (seq ≠ 0)
  | .failed _ => True

structure ReplyOk (σ : World) (r : Replies) : Prop where
  exact : ReplyLevel L → acknowledged r.answers = σ.committedBy r.task
  uniform : ReplyLevel L → ∀ a ∈ r.answers, a.2.Uniform a.1.txn
  uncommitted : Hazard.landedTrimmed ∈ L → ∀ a ∈ r.answers, ∀ cause, a.2 = .failed cause →
    cause.uncommitted → ∀ c ∈ σ.commits, c.task ≠ some r.task

structure Inv (σ : World) : Prop where
  linked : Linked σ.commits
  commitVersion : ∀ c ∈ σ.commits, c.version < σ.next
  segVersion : ∀ q o, σ.segs q = some o → o.version < σ.next
  stored : ∀ c ∈ σ.commits, ∀ s, c.slot = some s →
    ∃ t, c.task = some t ∧ σ.segs s.seq = some ⟨s.version, s.entries, t⟩
  once : σ.commits.Pairwise fun a b => a.task ≠ b.task
  snapStored : ∀ c ∈ σ.commits, ∀ cp, c.manifest.checkpoint = some cp → (σ.cpRefs cp.seq).isSome
  folding : RefsLevel L → Folding σ.commits
  plain : RefsLevel L → ∀ e ∈ σ.log, ¬ e.setsHead
  snaps : RefsLevel L → ∀ seq snap, σ.cpRefs seq = some snap → SnapOk L σ seq snap
  cas : CasLevel L → CasOk RefState.init σ.log
  cps : ∀ seq cp, σ.cps seq = some cp →
    ∃ c ∈ σ.commits, c.manifest.headSeq = seq ∧ cp = ⟨seq, c.manifest.packs⟩
  verdicts : ∀ v ∈ σ.verdicts, VerdictOk L σ v
  replies : ∀ r ∈ σ.replies, ReplyOk L σ r
  handles : ∀ h hd, σ.handles h = some hd → HandleInv L σ hd

structure HandleGuar (t : ℕ) (hd hd' : Handle) : Prop where
  revision : hd.manifest.revision ≤ hd'.manifest.revision
  mutex : ∀ t', t' ≠ t → hd.syncMutex = some t' → hd'.syncMutex = some t'
  held : RefsLevel L → ∀ t', t' ≠ t → hd.syncMutex = some t' →
    hd'.manifest = hd.manifest ∧ hd'.state = hd.state ∧ hd'.verified = hd.verified ∧
      hd'.refs = hd.refs

structure Guar (t : ℕ) (σ σ' : World) : Prop where
  commits : σ'.commits = σ.commits ∨ ∃ c, σ'.commits = c :: σ.commits ∧ c.task = some t ∧
    ∀ s, c.slot = some s → σ.head < s.seq ∧ σ.segs s.seq = some ⟨s.version, s.entries, t⟩
  next : σ.next ≤ σ'.next
  segs : ∀ q o, σ.segs q = some o → σ'.segs q = some o ∨ o.task = t ∨ q ≤ σ.head
  newSegs : ∀ q o, σ'.segs q = some o → σ.segs q = some o ∨ σ.next ≤ o.version
  cpRefs : ∀ seq, (σ.cpRefs seq).isSome → (σ'.cpRefs seq).isSome
  verdicts : ∀ v ∈ σ'.verdicts, v ∈ σ.verdicts ∨ v.task = t
  replies : ∀ r ∈ σ'.replies, r ∈ σ.replies ∨ r.task = t
  handles : ∀ h hd, σ.handles h = some hd →
    ∃ hd', σ'.handles h = some hd' ∧ HandleGuar L t hd hd'

/-- Task `t` has committed nothing, judged nothing and answered nothing. -/
structure Fresh (t : ℕ) (σ : World) : Prop where
  commits : ∀ c ∈ σ.commits, c.task ≠ some t
  verdicts : ∀ v ∈ σ.verdicts, v.task ≠ t
  replies : ∀ r ∈ σ.replies, r.task ≠ t

/-- Local refs are rewritten under the mutex of their handle. -/
def Op.needs (t : ℕ) (σ : World) : Op → Prop
  | .loadRefSnapshot h _ => σ.on h fun hd => hd.syncMutex = some t
  | .applyRefTxn h _ _ => σ.on h fun hd => hd.syncMutex = some t
  | .applyRefTxnsOffline h _ => σ.on h fun hd => hd.syncMutex = some t
  | _ => True

def discipline : Discipline Op Op.Res World Choice where
  exec := exec
  ok := fun _ => Avoids L
  needs := fun t o σ => o.needs t σ
  inv := Inv L
  guar := Guar L
  fresh := Fresh

section Basics

variable {L} {t : ℕ} {σ σ' : World}

theorem HandleGuar.refl {hd : Handle} : HandleGuar L t hd hd :=
  ⟨Nat.le_refl _, fun _ _ h => h, fun _ _ _ _ => ⟨rfl, rfl, rfl, rfl⟩⟩

theorem Guar.refl : Guar L t σ σ where
  commits := .inl rfl
  next := Nat.le_refl _
  segs := fun _ _ h => .inl h
  newSegs := fun _ _ h => .inl h
  cpRefs := fun _ h => h
  verdicts := fun _ h => .inl h
  replies := fun _ h => .inl h
  handles := fun _ hd h => ⟨hd, h, .refl⟩

theorem Inv.current_mem (hi : Inv L σ) : σ.current ∈ σ.commits := hi.linked.head_mem

theorem Inv.commits_eq (hi : Inv L σ) : ∃ older, σ.commits = σ.current :: older := by
  unfold World.current
  cases hc : σ.commits with
  | nil => exact (hi.linked.ne_nil hc).elim
  | cons c cs => exact ⟨cs, rfl⟩

theorem Inv.headSeq_le (hi : Inv L σ) {c : Commit} (hc : c ∈ σ.commits) :
    c.manifest.headSeq ≤ σ.head := by
  obtain ⟨older, he⟩ := hi.commits_eq
  have hl := hi.linked
  rw [he] at hc hl
  exact (hl.le_head hc).1

theorem Inv.mem_log (hi : Inv L σ) {e : LogEntry} (he : e ∈ σ.log) :
    0 < e.seq ∧ e.seq ≤ σ.head := by
  obtain ⟨older, hc⟩ := hi.commits_eq
  have hl := hi.linked
  unfold World.log at he
  rw [hc] at hl he
  exact hl.mem_log he

def World.entriesAt (σ : World) (seq : ℕ) : List LogEntry := (σ.segs seq).elim [] Segment.entries

theorem Inv.stored_of (hi : Inv L σ) {s : Slot} (hs : σ.Committed s) :
    ∃ t, σ.segs s.seq = some ⟨s.version, s.entries, t⟩ := by
  obtain ⟨c, hc, hcs⟩ := hs
  obtain ⟨t, -, ho⟩ := hi.stored c hc s hcs
  exact ⟨t, ho⟩

theorem Inv.entriesAt (hi : Inv L σ) {s : Slot} (hs : σ.Committed s) :
    σ.entriesAt s.seq = s.entries := by
  obtain ⟨t, ho⟩ := hi.stored_of hs
  rw [World.entriesAt, ho]
  rfl

/-- The log of a later state is the log of an earlier one and entries past its head. -/
structure Extends (σ σ' : World) : Prop where
  mem : ∀ c ∈ σ.commits, c ∈ σ'.commits
  log : ∃ new, σ'.log = σ.log ++ new ∧ ∀ e ∈ new, σ.head < e.seq
  head : σ.head ≤ σ'.head

theorem Extends.of_commits_eq (h : σ'.commits = σ.commits) : Extends σ σ' := by
  refine ⟨fun c hc => h ▸ hc, ⟨[], ?_, fun e he => by cases he⟩, ?_⟩
  · rw [World.log, World.log, h, List.append_nil]
  · rw [World.head, World.head, World.current, World.current, h]

theorem Extends.of_commit {c : Commit} {older : List Commit}
    (h : σ'.commits = c :: σ.commits) (hf : Follows c σ.current older) : Extends σ σ' := by
  have hhead : σ'.head = c.manifest.headSeq := by
    rw [World.head, World.current, h]
    rfl
  refine ⟨fun a ha => ?_, ⟨c.entries, ?_, fun e he => (hf.entries he).1⟩, ?_⟩
  · rw [h]
    exact List.mem_cons_of_mem c ha
  · rw [World.log, World.log, h]
    rfl
  · rw [hhead]
    exact hf.headSeq_le

theorem Guar.extends (hi : Inv L σ) (hi' : Inv L σ') (hg : Guar L t σ σ') : Extends σ σ' := by
  rcases hg.commits with h | ⟨c, h, -, -⟩
  · exact .of_commits_eq h
  · obtain ⟨older, hs⟩ := hi.commits_eq
    have hl := hi'.linked
    rw [h, hs] at hl
    exact .of_commit h hl.1

variable {s : RefState} {q k : ℕ}

theorem Extends.touched (h : Extends σ σ') {b b' : ℕ} {key : RefKey} (hb : b ≤ b')
    (ht : Touched LogEntry.seq LogEntry.writes σ.log q b key) :
    Touched LogEntry.seq LogEntry.writes σ'.log q b' key := by
  obtain ⟨new, hlog, -⟩ := h.log
  rw [hlog]
  exact touched_mono hb (touched_append ht)

theorem Extends.near (h : Extends σ σ') (hq : q ≤ σ.head) (hn : NearFold σ.log s q k) :
    NearFold σ'.log s q k := by
  obtain ⟨new, hlog, hnew⟩ := h.log
  rw [hlog]
  exact Near.append hn fun e he => Nat.lt_of_le_of_lt hq (hnew e he)

theorem Extends.foldUpto (h : Extends σ σ') (hq : q ≤ σ.head) :
    foldUpto σ'.log q = foldUpto σ.log q := by
  obtain ⟨new, hlog, hnew⟩ := h.log
  rw [hlog]
  exact upto_append fun e he => Nat.lt_of_le_of_lt hq (hnew e he)

theorem Extends.headOk (h : Extends σ σ') (hh : HeadOk σ.log s σ.head) :
    HeadOk σ'.log s σ'.head :=
  hh.imp_right fun ht => h.touched h.head ht

theorem HandleInv.headSeq_le {hd : Handle} (hi : Inv L σ) (hh : HandleInv L σ hd) :
    hd.manifest.headSeq ≤ σ.head := by
  obtain ⟨c, hc, hm, -⟩ := hh.pair
  rw [← hm]
  exact hi.headSeq_le hc

theorem NearHandle.extends {hd : Handle} (hn : NearHandle σ hd)
    (hle : hd.manifest.headSeq ≤ σ.head) (h : Extends σ σ') : NearHandle σ' hd := by
  obtain ⟨ha, k, hk, hn, hn'⟩ := hn
  exact ⟨ha, k, hk.trans h.head, h.near (ha.trans hle) hn, h.near hle hn'⟩

theorem Settled.extends {hd : Handle} (hs : Settled L σ hd) (hle : hd.manifest.headSeq ≤ σ.head)
    (h : Extends σ σ') : Settled L σ' hd := by
  refine ⟨hs.le, ?_, ?_, hs.same⟩
  · rw [h.foldUpto (hs.le.trans hle)]
    exact hs.applied
  · rw [h.foldUpto hle]
    exact hs.manifest

theorem HandleInv.applied_le {hd : Handle} (hi : Inv L σ) (hh : HandleInv L σ hd)
    (hR : RefsLevel L) (hv : hd.verified = true) : hd.state.appliedSeq ≤ σ.head :=
  (hh.near hR hv).applied.trans (hh.headSeq_le hi)

theorem HandleInv.extends {hd : Handle} (hi : Inv L σ) (hh : HandleInv L σ hd)
    (h : Extends σ σ') : HandleInv L σ' hd where
  pair := by
    obtain ⟨c, hc, hm, hv⟩ := hh.pair
    exact ⟨c, h.mem c hc, hm, hv⟩
  headOk hR := h.headOk (hh.headOk hR)
  near hR hver := (hh.near hR hver).extends (hh.headSeq_le hi) h
  settled hX hm hver :=
    (hh.settled hX hm hver).extends (hh.headSeq_le hi) h

theorem SnapOk.extends {snap : RefState} (hs : SnapOk L σ q snap) (h : Extends σ σ') :
    SnapOk L σ' q snap := by
  obtain ⟨hle, ⟨k, hk, hn⟩, hex⟩ := hs
  refine ⟨hle.trans h.head, ⟨k, hk.trans h.head, h.near hle hn⟩, fun hX => ?_⟩
  rw [h.foldUpto hle]
  exact hex hX

end Basics

end Walgit
