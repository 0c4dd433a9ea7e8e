import Walgit.Invariant

/-!
# What each change of the world keeps

One lemma for the invariant and one for the guarantee of each kind of write:
a handle, a segment, a checkpoint object, a verdict, a reply, and the commit.
-/

namespace Walgit

open Interleaving Replay

variable {L : List Hazard} {t : ℕ} {σ σ' : World}

/-- A step without a commit: what is new in each part of the world is in order. -/
structure Keeps (L : List Hazard) (σ σ' : World) : Prop where
  commits : σ'.commits = σ.commits
  next : σ.next ≤ σ'.next
  newSegs : ∀ q o, σ'.segs q = some o →
    σ.segs q = some o ∨ (σ.next ≤ o.version ∧ o.version < σ'.next)
  stored : ∀ c ∈ σ.commits, ∀ s, c.slot = some s → σ'.segs s.seq = σ.segs s.seq
  cpRefs : ∀ q, (σ.cpRefs q).isSome → (σ'.cpRefs q).isSome
  newSnaps : RefsLevel L → ∀ q snap, σ'.cpRefs q = some snap →
    σ.cpRefs q = some snap ∨ SnapOk L σ q snap
  newCps : ∀ q cp, σ'.cps q = some cp → σ.cps q = some cp ∨
    ∃ c ∈ σ.commits, c.manifest.headSeq = q ∧ cp = ⟨q, c.manifest.packs⟩
  newVerdicts : ∀ v ∈ σ'.verdicts, v ∈ σ.verdicts ∨ (σ'.segs = σ.segs ∧ VerdictOk L σ v)
  newReplies : ∀ r ∈ σ'.replies, r ∈ σ.replies ∨ ReplyOk L σ r
  newHandles : ∀ h hd, σ'.handles h = some hd → σ.handles h = some hd ∨ HandleInv L σ hd

theorem Keeps.refl : Keeps L σ σ where
  commits := rfl
  next := Nat.le_refl _
  newSegs _ _ h := .inl h
  stored _ _ _ _ := rfl
  cpRefs _ h := h
  newSnaps _ _ _ h := .inl h
  newCps _ _ h := .inl h
  newVerdicts _ h := .inl h
  newReplies _ h := .inl h
  newHandles _ _ h := .inl h

theorem Keeps.inv (hk : Keeps L σ σ') (hi : Inv L σ) : Inv L σ' := by
  have hext : Extends σ σ' := .of_commits_eq hk.commits
  have hlog : σ'.log = σ.log := by rw [World.log, World.log, hk.commits]
  have hcomm : ∀ s, σ'.Committed s ↔ σ.Committed s := fun s => by
    rw [World.Committed, World.Committed, hk.commits]
  have hby : ∀ r, σ'.committedBy r = σ.committedBy r := fun r => by
    rw [World.committedBy, World.committedBy, hk.commits]
  constructor
  case linked => rw [hk.commits]; exact hi.linked
  case commitVersion =>
    intro c hc
    rw [hk.commits] at hc
    exact (hi.commitVersion c hc).trans_le hk.next
  case segVersion =>
    intro q o ho
    rcases hk.newSegs q o ho with h | h
    · exact (hi.segVersion q o h).trans_le hk.next
    · exact h.2
  case stored =>
    intro c hc s hs
    rw [hk.commits] at hc
    rw [hk.stored c hc s hs]
    exact hi.stored c hc s hs
  case once => rw [hk.commits]; exact hi.once
  case snapStored =>
    intro c hc cp hcp
    rw [hk.commits] at hc
    exact hk.cpRefs _ (hi.snapStored c hc cp hcp)
  case folding => rw [hk.commits]; exact hi.folding
  case plain => rw [hlog]; exact hi.plain
  case snaps =>
    intro hR q snap hs
    rcases hk.newSnaps hR q snap hs with h | h
    · exact (hi.snaps hR q snap h).extends hext
    · exact h.extends hext
  case cas => rw [hlog]; exact hi.cas
  case cps =>
    intro q cp hcp
    rw [hk.commits]
    rcases hk.newCps q cp hcp with h | h
    · exact hi.cps q cp h
    · exact h
  case verdicts =>
    intro v hv
    rcases hk.newVerdicts v hv with h | ⟨hsegs, h⟩
    · have hv := hi.verdicts v h
      refine ⟨hv.fresh.trans_le hk.next, fun q o ho hver => ?_, fun hL => ?_⟩
      · rcases hk.newSegs q o ho with h | h
        · exact hv.own q o h hver
        · have := hv.fresh
          omega
      · rw [hcomm]
        exact hv.exact hL
    · refine ⟨h.fresh.trans_le hk.next, by rw [hsegs]; exact h.own, fun hL => ?_⟩
      rw [hcomm]
      exact h.exact hL
  case replies =>
    intro r hr
    have hr : ReplyOk L σ r := (hk.newReplies r hr).elim (hi.replies r) id
    refine ⟨fun hL => ?_, hr.uniform, fun hL => ?_⟩
    · rw [hby]
      exact hr.exact hL
    · rw [hk.commits]
      exact hr.uncommitted hL
  case handles =>
    intro h hd hh
    exact ((hk.newHandles h hd hh).elim (hi.handles h hd) id).extends hi hext

section Handles

variable {j : ℕ} {hd : Handle}

@[simp] theorem setHandle_self : (σ.setHandle j hd).handles j = some hd := if_pos rfl

theorem setHandle_of_ne {i : ℕ} (h : i ≠ j) : (σ.setHandle j hd).handles i = σ.handles i :=
  if_neg h

theorem Keeps.setHandle (h : HandleInv L σ hd) : Keeps L σ (σ.setHandle j hd) :=
  { @Keeps.refl L σ with
    newHandles := fun i x hx => by
      by_cases hij : i = j
      · subst hij
        rw [setHandle_self] at hx
        cases hx
        exact .inr h
      · rw [setHandle_of_ne hij] at hx
        exact .inl hx }

theorem Guar.setHandle (h : ∀ x, σ.handles j = some x → HandleGuar L t x hd) :
    Guar L t σ (σ.setHandle j hd) :=
  { @Guar.refl L t σ with
    handles := fun i x hx => by
      by_cases hij : i = j
      · subst hij
        exact ⟨hd, setHandle_self, h x hx⟩
      · exact ⟨x, by rwa [setHandle_of_ne hij], .refl⟩ }

end Handles

section Segments

variable {q : ℕ} {es : List LogEntry}

@[simp] theorem setSegment_self {o : Option Segment} : (σ.setSegment q o).segs q = o := if_pos rfl

theorem setSegment_of_ne {i : ℕ} {o : Option Segment} (h : i ≠ q) :
    (σ.setSegment q o).segs i = σ.segs i :=
  if_neg h

theorem writeSegment_of_ne {i : ℕ} (h : i ≠ q) : (σ.writeSegment t q es).segs i = σ.segs i :=
  setSegment_of_ne h

@[simp] theorem writeSegment_self :
    (σ.writeSegment t q es).segs q = some ⟨σ.next, es, t⟩ :=
  setSegment_self

theorem Keeps.writeSegment (hi : Inv L σ) (hq : σ.segs q = none) :
    Keeps L σ (σ.writeSegment t q es) :=
  { @Keeps.refl L σ with
    next := Nat.le_succ _
    newSegs := fun i o ho => by
      by_cases hiq : i = q
      · subst hiq
        rw [writeSegment_self] at ho
        cases ho
        exact .inr ⟨Nat.le_refl _, Nat.lt_succ_self _⟩
      · rw [writeSegment_of_ne hiq] at ho
        exact .inl ho
    stored := fun c hc s hs => by
      refine writeSegment_of_ne fun he => ?_
      obtain ⟨t', -, ho⟩ := hi.stored c hc s hs
      rw [he, hq] at ho
      cases ho
    newVerdicts := fun _ hv => .inl hv }

theorem Guar.writeSegment (hq : σ.segs q = none) : Guar L t σ (σ.writeSegment t q es) :=
  { @Guar.refl L t σ with
    next := Nat.le_succ _
    segs := fun i o ho => by
      refine .inl ?_
      rw [writeSegment_of_ne]
      · exact ho
      · rintro rfl
        rw [hq] at ho
        cases ho
    newSegs := fun i o ho => by
      by_cases hiq : i = q
      · subst hiq
        rw [writeSegment_self] at ho
        cases ho
        exact .inr (Nat.le_refl _)
      · rw [writeSegment_of_ne hiq] at ho
        exact .inl ho }

theorem Keeps.removeSegment {o : Segment} (hi : Inv L σ) (ho : σ.segs q = some o)
    (hn : ∀ s, σ.Committed s → s.seq = q → s.version ≠ o.version) :
    Keeps L σ (σ.setSegment q none) :=
  { @Keeps.refl L σ with
    newSegs := fun i x hx => by
      by_cases hiq : i = q
      · subst hiq
        simp at hx
      · rw [setSegment_of_ne hiq] at hx
        exact .inl hx
    stored := fun c hc s hs => by
      refine setSegment_of_ne fun he => ?_
      obtain ⟨t', -, ho'⟩ := hi.stored c hc s hs
      rw [he, ho] at ho'
      cases ho'
      exact hn s ⟨c, hc, hs⟩ he rfl
    newVerdicts := fun _ hv => .inl hv }

theorem Guar.removeSegment {o : Segment} (ho : σ.segs q = some o)
    (hown : o.task = t ∨ q ≤ σ.head) : Guar L t σ (σ.setSegment q none) :=
  { @Guar.refl L t σ with
    segs := fun i x hx => by
      by_cases hiq : i = q
      · subst hiq
        rw [ho] at hx
        cases hx
        exact .inr hown
      · exact .inl (by rwa [setSegment_of_ne hiq])
    newSegs := fun i x hx => by
      by_cases hiq : i = q
      · subst hiq
        simp at hx
      · rw [setSegment_of_ne hiq] at hx
        exact .inl hx }

end Segments

section Records

theorem Keeps.verdict {v : Verdict} (hv : VerdictOk L σ v) :
    Keeps L σ { σ with verdicts := v :: σ.verdicts } :=
  { @Keeps.refl L σ with
    newVerdicts := fun x hx => by
      rcases List.mem_cons.mp hx with rfl | hx
      · exact .inr ⟨rfl, hv⟩
      · exact .inl hx }

theorem Guar.verdict {v : Verdict} (hv : v.task = t) :
    Guar L t σ { σ with verdicts := v :: σ.verdicts } :=
  { @Guar.refl L t σ with
    verdicts := fun x hx => by
      rcases List.mem_cons.mp hx with rfl | hx
      · exact .inr hv
      · exact .inl hx }

theorem Keeps.reply {r : Replies} (hr : ReplyOk L σ r) :
    Keeps L σ { σ with replies := r :: σ.replies } :=
  { @Keeps.refl L σ with
    newReplies := fun x hx => by
      rcases List.mem_cons.mp hx with rfl | hx
      · exact .inr hr
      · exact .inl hx }

theorem Guar.reply {r : Replies} (hr : r.task = t) :
    Guar L t σ { σ with replies := r :: σ.replies } :=
  { @Guar.refl L t σ with
    replies := fun x hx => by
      rcases List.mem_cons.mp hx with rfl | hx
      · exact .inr hr
      · exact .inl hx }

variable {q : ℕ}

theorem Keeps.snapshot {snap : RefState} (hs : RefsLevel L → SnapOk L σ q snap) :
    Keeps L σ { σ with cpRefs := fun j => if j = q then some snap else σ.cpRefs j } :=
  { @Keeps.refl L σ with
    cpRefs := fun j hj => by
      simp only
      split
      · rfl
      · exact hj
    newSnaps := fun hR j x hx => by
      simp only at hx
      split at hx
      · subst j
        cases hx
        exact .inr (hs hR)
      · exact .inl hx
    newVerdicts := fun _ hv => .inl hv }

theorem Guar.snapshot {snap : RefState} :
    Guar L t σ { σ with cpRefs := fun j => if j = q then some snap else σ.cpRefs j } :=
  { @Guar.refl L t σ with
    cpRefs := fun j hj => by
      simp only
      split
      · rfl
      · exact hj }

theorem Keeps.checkpoint {cp : Checkpoint}
    (hc : ∃ c ∈ σ.commits, c.manifest.headSeq = q ∧ cp = ⟨q, c.manifest.packs⟩) :
    Keeps L σ { σ with cps := fun j => if j = q then some cp else σ.cps j } :=
  { @Keeps.refl L σ with
    newCps := fun j x hx => by
      simp only at hx
      split at hx
      · subst j
        cases hx
        exact .inr hc
      · exact .inl hx
    newVerdicts := fun _ hv => .inl hv }

theorem Guar.checkpoint {cp : Checkpoint} :
    Guar L t σ { σ with cps := fun j => if j = q then some cp else σ.cps j } :=
  { @Guar.refl L t σ with }

end Records

/-- What a writer knows when its conditional put succeeds. -/
structure CommitOk (L : List Hazard) (t : ℕ) (σ : World) (base : Manifest) (op : ManifestOp)
    (slot : Option Slot) : Prop where
  onTop : base = σ.current.manifest
  fresh : Fresh t σ
  notCreate : op ≠ .create
  segment : op.segment = slot.map Slot.ref
  logs : op.Logs (slot.elim [] Slot.entries)
  claimed : ∀ s, slot = some s → σ.head < s.seq ∧ s.Dense ∧
    σ.segs s.seq = some ⟨s.version, s.entries, t⟩
  checkpoint : ∀ cp, op = .checkpoint cp →
    (∃ a ∈ σ.commits, a.manifest.headSeq = cp.seq) ∧ (σ.cpRefs cp.seq).isSome
  ahead : RefsLevel L → ∀ cp, op = .checkpoint cp → base.checkpointSeq ≤ cp.seq
  plain : RefsLevel L → ∀ s, slot = some s → ∀ e ∈ s.entries, ¬ e.setsHead
  cas : CasLevel L → ∀ s, slot = some s → CasOk (foldUpto σ.log σ.head) s.entries
  orderly : Orderly (some σ.current.version) base op slot

section Commit

variable {base : Manifest} {op : ManifestOp} {slot : Option Slot}

theorem CommitOk.follows (hi : Inv L σ) (hc : CommitOk L t σ base op slot) {older : List Commit}
    (ho : σ.commits = σ.current :: older) :
    Follows ⟨σ.next, base, op.apply base, op, slot, some t⟩ σ.current older where
  base := hc.onTop
  manifest := by rw [← hc.onTop]
  notCreate := hc.notCreate
  version := hi.commitVersion _ hi.current_mem
  segment := hc.segment
  logs := hc.logs
  slot s hs := ⟨(hc.claimed s hs).1, (hc.claimed s hs).2.1⟩
  checkpoint cp hcp := by
    obtain ⟨a, ha, hh⟩ := (hc.checkpoint cp hcp).1
    exact ⟨a, ho ▸ ha, hh⟩
  orderly := by
    rw [← hc.onTop]
    exact hc.orderly

theorem Inv.foldUpto_head (hi : Inv L σ) :
    foldUpto σ.log σ.head = replayEntries LogEntry.writes RefState.init σ.log := by
  unfold foldUpto upto
  congr 1
  exact List.filter_eq_self.mpr fun e he => by simpa using (hi.mem_log he).2

theorem Inv.commit (hi : Inv L σ) (hc : CommitOk L t σ base op slot) :
    Inv L (σ.commit t base op slot) := by
  obtain ⟨older, ho⟩ := hi.commits_eq
  have hf := hc.follows hi ho
  have hext : Extends σ (σ.commit t base op slot) := .of_commit rfl hf
  have hmem : ∀ {c}, c ∈ (σ.commit t base op slot).commits →
      c = ⟨σ.next, base, op.apply base, op, slot, some t⟩ ∨ c ∈ σ.commits := fun h =>
        List.mem_cons.mp h
  have hlog : (σ.commit t base op slot).log = σ.log ++ slot.elim [] Slot.entries := rfl
  constructor
  case linked =>
    change Linked (_ :: σ.commits)
    have hl := hi.linked
    rw [ho] at hl ⊢
    exact ⟨hf, hl⟩
  case commitVersion =>
    intro c h
    rcases hmem h with rfl | h
    · exact Nat.lt_succ_self _
    · exact Nat.lt_succ_of_lt (hi.commitVersion c h)
  case segVersion => exact fun q o h => Nat.lt_succ_of_lt (hi.segVersion q o h)
  case stored =>
    intro c h s hs
    rcases hmem h with rfl | h
    · exact ⟨t, rfl, (hc.claimed s hs).2.2⟩
    · exact hi.stored c h s hs
  case once =>
    refine List.pairwise_cons.mpr ⟨fun c h he => ?_, hi.once⟩
    exact hc.fresh.commits c h he.symm
  case snapStored =>
    intro c h cp hcp
    rcases hmem h with rfl | h
    · by_cases hop : ∃ cp', op = .checkpoint cp'
      · obtain ⟨cp', rfl⟩ := hop
        cases hcp
        exact (hc.checkpoint cp rfl).2
      · push Not at hop
        change (op.apply base).checkpoint = some cp at hcp
        rw [(apply_checkpointSeq hc.notCreate hop).1, hc.onTop] at hcp
        exact hi.snapStored _ hi.current_mem cp hcp
    · exact hi.snapStored c h cp hcp
  case folding =>
    intro hR
    have hold := hi.folding hR
    have hle : ∀ a ∈ σ.commits, a.manifest.checkpointSeq ≤ base.checkpointSeq := by
      rw [hc.onTop]
      intro a ha
      rw [ho] at ha hold
      obtain rfl | ha := List.mem_cons.mp ha
      · exact Nat.le_refl _
      · exact (List.pairwise_cons.mp hold).1 a ha
    refine List.pairwise_cons.mpr ⟨fun a ha => (hle a ha).trans ?_, hold⟩
    change base.checkpointSeq ≤ (op.apply base).checkpointSeq
    by_cases hop : ∃ cp', op = .checkpoint cp'
    · obtain ⟨cp', rfl⟩ := hop
      exact hc.ahead hR cp' rfl
    · push Not at hop
      rw [Manifest.checkpointSeq, Manifest.checkpointSeq,
        (apply_checkpointSeq hc.notCreate hop).1]
  case plain =>
    intro hR e he
    rw [hlog] at he
    rcases List.mem_append.mp he with he | he
    · exact hi.plain hR e he
    · cases hs : slot with
      | none => simp [hs] at he
      | some s =>
        rw [hs] at he
        exact hc.plain hR s hs e he
  case snaps => exact fun hR q snap hs => (hi.snaps hR q snap hs).extends hext
  case cas =>
    intro hL
    rw [hlog, casOk_append, ← hi.foldUpto_head]
    refine ⟨hi.cas hL, ?_⟩
    cases hs : slot with
    | none => trivial
    | some s => exact hc.cas hL s hs
  case cps =>
    intro q cp hcp
    obtain ⟨c, h, hh⟩ := hi.cps q cp hcp
    exact ⟨c, List.mem_cons_of_mem _ h, hh⟩
  case verdicts =>
    intro v hv
    have hok := hi.verdicts v hv
    refine ⟨Nat.lt_succ_of_lt hok.fresh, hok.own, fun hL => (hok.exact hL).trans ?_⟩
    constructor
    · rintro ⟨c, h, hs⟩
      exact ⟨c, List.mem_cons_of_mem _ h, hs⟩
    · rintro ⟨c, h, hs⟩
      rcases hmem h with rfl | h
      · -- the slot judged is in the store under its judge's name, not this task's
        have := hok.own _ _ (hc.claimed v.slot hs).2.2 rfl
        exact absurd this.symm (hc.fresh.verdicts v hv)
      · exact ⟨c, h, hs⟩
  case replies =>
    intro r hr
    have hok := hi.replies r hr
    have hne : some t ≠ some r.task := fun he => hc.fresh.replies r hr (Option.some.inj he).symm
    refine ⟨fun hL => ?_, hok.uniform, fun hL a ha cause hcause hu c h => ?_⟩
    · rw [hok.exact hL]
      unfold World.committedBy
      change _ = (List.filter _ (_ :: σ.commits)).flatMap _
      rw [List.filter_cons_of_neg (by simpa using hne)]
    · rcases hmem h with rfl | h
      · exact hne
      · exact hok.uncommitted hL a ha cause hcause hu c h
  case handles => exact fun h hd hh => (hi.handles h hd hh).extends hi hext

theorem Guar.commit (hc : CommitOk L t σ base op slot) :
    Guar L t σ (σ.commit t base op slot) :=
  { @Guar.refl L t σ with
    commits := .inr ⟨_, rfl, rfl, fun s hs => ⟨(hc.claimed s hs).1, (hc.claimed s hs).2.2⟩⟩
    next := Nat.le_succ _ }

end Commit

end Walgit
