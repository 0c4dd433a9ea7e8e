import Walgit.CollabQuiet

/-!
# Runs of gcs and pushes

An entry that is visible stays visible, unless a push moves its ref, in every
run in which no folded ref is moved between its reading and the advertisement
the deletions are leased on.
-/

namespace Walgit.Collab

section Visibility

variable {git : Objects} {oid : String} {records : List SnapshotRecord}

def Visible (git : Objects) (remote : CollabRefs) (oid : String) : Prop :=
  oid ∈ (remote.load git).entries.map EntryRef.oid

theorem holds_iff (h : Distinct records) : Holds git records oid ↔
    oid ∈ (records.filterMap (SnapshotRecord.entryRef git)).map EntryRef.oid := by
  have hcopies : (records.filterMap (SnapshotRecord.entryRef git)).filter (fun r => r.oid = oid) =
      (shownCopy git records oid).toList := copies_of_records h
  constructor
  · intro hholds
    obtain ⟨r, hr⟩ := Option.isSome_iff_exists.mp hholds
    rw [hr, Option.toList_some] at hcopies
    have hmem : r ∈ (records.filterMap (SnapshotRecord.entryRef git)).filter fun r => r.oid = oid :=
      hcopies ▸ List.mem_singleton_self r
    obtain ⟨hmem, hoid⟩ := List.mem_filter.mp hmem
    exact List.mem_map.mpr ⟨r, hmem, of_decide_eq_true hoid⟩
  · intro hmem
    obtain ⟨r, hr, hoid⟩ := List.mem_map.mp hmem
    have hr : r ∈ (shownCopy git records oid).toList :=
      hcopies ▸ List.mem_filter.mpr ⟨hr, decide_eq_true hoid⟩
    exact Option.isSome_iff_exists.mpr ⟨r, Option.mem_toList.mp hr⟩

theorem visible_iff (remote : CollabRefs) (h : Distinct remote.records) : Visible git remote oid ↔
    Holds git remote.records oid ∨
      ∃ name, (name, oid) ∈ remote.inbox.refs ∧ (inboxEntry git (name, oid)).isSome = true := by
  rw [Visible, CollabRefs.load, mem_ofOccurrences_oids, CollabRefs.occurrences, List.map_append,
    List.mem_append, holds_iff h]
  refine or_congr_right ?_
  constructor
  · intro hmem
    obtain ⟨r, hr, hoid⟩ := List.mem_map.mp hmem
    obtain ⟨⟨name, o⟩, href, hentry⟩ := List.mem_filterMap.mp hr
    have ho : o = oid := (inboxEntry_oid hentry).symm.trans hoid
    subst ho
    exact ⟨name, href, Option.isSome_iff_exists.mpr ⟨r, hentry⟩⟩
  · rintro ⟨name, href, hsome⟩
    obtain ⟨r, hentry⟩ := Option.isSome_iff_exists.mp hsome
    exact List.mem_map.mpr ⟨r, List.mem_filterMap.mpr ⟨_, href, hentry⟩, inboxEntry_oid hentry⟩

end Visibility

section Steps

variable {git : Objects} {sign : Snapshot → String} {remote remote' view : CollabRefs} {gc : Gc}
  {actor : String} {ts : ℤ} {target : Snapshot} {folded : List String}

/-- What a gc in progress knows: its snapshot holds what it read, and what it deletes is held. -/
def GcOk (git : Objects) (remote : CollabRefs) : Gc → Prop
  | .idle => True
  | .ready view target folded => Folded git view target folded
  | .pushed view folded =>
    ∀ name ∈ folded, ∃ oid, (name, oid) ∈ view.inbox.refs ∧ Holds git remote.records oid
  | .deleting _ chunk rest => ∀ ref ∈ chunk ++ rest, Holds git remote.records ref.2
  | .done => True

/-- At its advertisement a gc finds the refs it folded where it read them, or gone. -/
def Unmoved (remote : CollabRefs) : Gc → Prop
  | .pushed view folded => ∀ name ∈ folded, ∀ oid live, (name, oid) ∈ view.inbox.refs →
    (name, live) ∈ remote.inbox.refs → live = oid
  | _ => True

theorem GcOk.mono (hheld : ∀ oid, Holds git remote.records oid → Holds git remote'.records oid)
    (h : GcOk git remote gc) : GcOk git remote' gc := by
  cases gc with
  | idle => trivial
  | ready view target folded => exact h
  | pushed view folded =>
    intro name hname
    obtain ⟨oid, hread, hholds⟩ := h name hname
    exact ⟨oid, hread, hheld oid hholds⟩
  | deleting failed chunk rest => exact fun ref href => hheld _ (h ref href)
  | done => trivial

theorem startGc_ok (hblobs : ∀ ref ∈ view.inbox.refs, IsBlob git ref.2) :
    GcOk git remote (startGc git sign actor ts view) := by
  rcases startGc_spec sign actor ts hblobs with
    hdone | ⟨target, folded, hready, hfolded⟩
  · rw [hdone]
    trivial
  · rw [hready]
    exact hfolded

structure StepOk (git : Objects) (remote remote' : CollabRefs) : Prop where
  distinct : Distinct remote'.records
  held : ∀ oid, Holds git remote.records oid → Holds git remote'.records oid
  visible : ∀ oid, Visible git remote oid → Visible git remote' oid

theorem StepOk.refl (hd : Distinct remote.records) : StepOk git remote remote :=
  ⟨hd, fun _ => id, fun _ => id⟩

theorem snapshot_pushed (hd : Distinct remote.records) (hf : Folded git view target folded)
    (hlease : remote.snapshot = view.snapshot ∨ remote.snapshot = some target) :
    StepOk git remote { remote with snapshot := some target } := by
  rcases hlease with heq | heq
  · have hrecords : remote.records = view.records := by
      rw [CollabRefs.records, heq, ← CollabRefs.records]
    have hd' : Distinct target.entries := hf.distinct (hrecords ▸ hd)
    refine ⟨hd', fun oid h => hf.held (hrecords ▸ h), fun oid h => ?_⟩
    rw [visible_iff remote hd] at h
    rw [visible_iff { remote with snapshot := some target } hd']
    exact h.imp_left fun h => hf.held (hrecords ▸ h)
  · rw [← heq]
    exact .refl hd

theorem ref_deleted {name oid : String} (hd : Distinct remote.records)
    (hheld : Holds git remote.records oid) (hget : remote.inbox.get name = some oid) :
    StepOk git remote { remote with inbox := remote.inbox.erase name } := by
  refine ⟨hd, fun _ => id, fun o h => ?_⟩
  rw [visible_iff remote hd] at h
  rw [visible_iff { remote with inbox := remote.inbox.erase name } hd]
  rcases h with h | ⟨n, href, hsome⟩
  · exact .inl h
  · by_cases hn : n = name
    · subst hn
      rw [Inbox.get_eq_some.mpr href] at hget
      cases hget
      exact .inl hheld
    · exact .inr ⟨n, Inbox.mem_erase.mpr ⟨href, hn⟩, hsome⟩

theorem stepGc_ok (hd : Distinct remote.records) (hok : GcOk git remote gc)
    (hunmoved : Unmoved remote gc) : StepOk git remote (stepGc remote gc).1 ∧
      GcOk git (stepGc remote gc).1 (stepGc remote gc).2 := by
  cases gc with
  | idle => exact ⟨.refl hd, trivial⟩
  | ready view target folded =>
    simp only [stepGc]
    split
    · rename_i hlease
      exact ⟨snapshot_pushed hd hok hlease, hok.names_held⟩
    · exact ⟨.refl hd, trivial⟩
  | pushed view folded =>
    refine ⟨.refl hd, fun ref href => ?_⟩
    obtain ⟨name, hname, hget⟩ := List.mem_filterMap.mp (List.nil_append _ ▸ href)
    obtain ⟨live, hlive, rfl⟩ := Option.map_eq_some_iff.mp hget
    obtain ⟨oid, hread, hholds⟩ := hok name hname
    rw [hunmoved name hname oid live hread (Inbox.get_eq_some.mp hlive)]
    exact hholds
  | deleting failed chunk rest =>
    cases chunk with
    | nil =>
      simp only [stepGc]
      split
      · exact ⟨.refl hd, trivial⟩
      · refine ⟨.refl hd, fun ref href => hok ref ?_⟩
        rwa [List.take_append_drop] at href
    | cons ref chunk =>
      obtain ⟨name, oid⟩ := ref
      have hrest : ∀ ref ∈ chunk ++ rest, Holds git remote.records ref.2 :=
        fun ref href => hok ref (List.mem_cons_of_mem _ href)
      simp only [stepGc]
      split
      · rename_i hget
        exact ⟨ref_deleted hd (hok _ List.mem_cons_self) hget, hrest⟩
      · exact ⟨.refl hd, hrest⟩
  | done => exact ⟨.refl hd, trivial⟩

end Steps

section Runs

variable {git : Objects} {sign : Snapshot → String} {w : World} {a : Act} {acts : List Act}

/-- The refs a gc reads are refs to blobs, and those it folded have not moved when it takes the
leases of its deletions. -/
def Act.Meets (git : Objects) (w : World) : Act → Prop
  | .start _ _ _ view => ∀ ref ∈ view.inbox.refs, IsBlob git ref.2
  | .step i => Unmoved w.remote (w.gcs i)
  | _ => True

def MeetsAll (git : Objects) (sign : Snapshot → String) : World → List Act → Prop
  | _, [] => True
  | w, a :: acts => a.Meets git w ∧ MeetsAll git sign (w.step git sign a) acts

/-- What was visible is visible, or a push has moved its ref. -/
def Kept (git : Objects) (w w' : World) : Prop :=
  ∀ oid, Visible git w.remote oid → Visible git w'.remote oid ∨ oid ∈ w'.replaced

structure WorldInv (git : Objects) (w : World) : Prop where
  distinct : Distinct w.remote.records
  gcs : ∀ i, GcOk git w.remote (w.gcs i)

structure WorldStep (git : Objects) (w w' : World) : Prop where
  inv : WorldInv git w'
  kept : Kept git w w'
  replaced : ∀ oid ∈ w.replaced, oid ∈ w'.replaced

theorem WorldInv.update {remote' : CollabRefs} {gc : Gc} {i : ℕ} (h : WorldInv git w)
    (hstep : StepOk git w.remote remote') (hgc : GcOk git remote' gc) :
    WorldStep git w { w with remote := remote', gcs := Function.update w.gcs i gc } := by
  refine ⟨⟨hstep.distinct, fun j => ?_⟩, fun oid hv => .inl (hstep.visible oid hv), fun _ => id⟩
  change GcOk git remote' (Function.update w.gcs i gc j)
  by_cases hj : j = i
  · rwa [hj, Function.update_self]
  · rw [Function.update_of_ne hj]
    exact (h.gcs j).mono hstep.held

theorem push_step {name oid : String} (h : WorldInv git w) :
    WorldStep git w (w.step git sign (.push name oid)) := by
  refine ⟨⟨h.distinct, h.gcs⟩, fun o hv => ?_, fun _ ho => List.mem_append_left _ ho⟩
  rw [visible_iff w.remote h.distinct] at hv
  rw [visible_iff (w.step git sign (.push name oid)).remote h.distinct]
  rcases hv with hv | ⟨n, href, hsome⟩
  · exact .inl (.inl hv)
  · by_cases hn : n = name
    · subst hn
      by_cases ho : o = oid
      · subst ho
        exact .inl (.inr ⟨n, self_mem_setRef, hsome⟩)
      · refine .inr (List.mem_append_right _ ?_)
        rw [Inbox.get_eq_some.mpr href]
        simp [ho]
    · exact .inl (.inr ⟨n, mem_setRef_of_mem href hn, hsome⟩)

theorem world_step (sign : Snapshot → String) (h : WorldInv git w) (hmeets : a.Meets git w) :
    WorldStep git w (w.step git sign a) := by
  cases a with
  | push name oid => exact push_step h
  | start i actor ts view => exact h.update (.refl h.distinct) (startGc_ok hmeets)
  | step i =>
    obtain ⟨hstep, hgc⟩ := stepGc_ok h.distinct (h.gcs i) hmeets
    exact h.update hstep hgc
  | crash i => exact h.update (.refl h.distinct) trivial

theorem WorldStep.trans {w' w'' : World} (h : WorldStep git w w') (h' : WorldStep git w' w'') :
    WorldStep git w w'' where
  inv := h'.inv
  kept oid hv := by
    rcases h.kept oid hv with hv | ho
    · exact h'.kept oid hv
    · exact .inr (h'.replaced oid ho)
  replaced oid ho := h'.replaced oid (h.replaced oid ho)

theorem world_run (h : WorldInv git w) (hmeets : MeetsAll git sign w acts) :
    WorldStep git w (w.run git sign acts) := by
  induction acts generalizing w with
  | nil => exact ⟨h, fun _ => .inl, fun _ => id⟩
  | cons a acts ih =>
    have hstep := world_step sign h hmeets.1
    exact hstep.trans (ih hstep.inv hmeets.2)

theorem meetsAll_append {acts' : List Act} : MeetsAll git sign w (acts ++ acts') ↔
    MeetsAll git sign w acts ∧ MeetsAll git sign (w.run git sign acts) acts' := by
  induction acts generalizing w with
  | nil => simp [MeetsAll, World.run]
  | cons a acts ih =>
    rw [List.cons_append, MeetsAll, MeetsAll, ih, and_assoc]
    rfl

end Runs

/-- In every run, and the gc that has the remote for itself: the entries are the same ones, with
their inboxes. -/
theorem gc_loses_nothing (git : Objects) (sign : Snapshot → String) :
    (∀ (w : World) (acts acts' : List Act), (∀ i, w.gcs i = .idle) → Distinct w.remote.records →
      MeetsAll git sign w (acts ++ acts') →
      Kept git (w.run git sign acts) (w.run git sign (acts ++ acts'))) ∧
    ∀ (remote : CollabRefs) (actor : String) (ts : ℤ), Distinct remote.records →
      (∀ ref ∈ remote.inbox.refs, IsBlob git ref.2) →
      (∀ n r, r ∈ ((gcAlone git sign actor ts remote n).1.load git).entries ↔
        r ∈ (remote.load git).entries) ∧
      ∃ n, (gcAlone git sign actor ts remote n).2 = .done := by
  constructor
  · intro w acts acts' hidle hd hmeets
    obtain ⟨hfirst, hthen⟩ := meetsAll_append.mp hmeets
    have hinv : WorldInv git w := ⟨hd, fun i => by rw [hidle i]; trivial⟩
    have hrun := world_run (world_run hinv hfirst).inv hthen
    have happend : w.run git sign (acts ++ acts') = (w.run git sign acts).run git sign acts' :=
      List.foldl_append
    rw [happend]
    exact hrun.kept
  · intro remote actor ts hd hblobs
    exact ⟨fun n r => (gcAlone_quiet hblobs n).load hd, gcAlone_ends hblobs⟩

section Examples

/-- Texts that name themselves, each a comment of one actor. -/
def noteObjects : Objects where
  catFile oid := some (.text oid)
  fromSlice
    | .text json => some ⟨1, "comment", "issue-1", "ann", 0, "", none, .string json, ""⟩
    | .bytes _ => none
  blobOid json := json
  blobOid_inj _ _ h := h

def noteRef : String := "refs/collab/inbox/ann/1"

def oneNote : CollabRefs where
  snapshot := none
  inbox := ⟨[(noteRef, "o1")], List.pairwise_singleton _ _⟩

def oneNoteWorld : World := ⟨oneNote, fun _ => .idle, []⟩

/-- The snapshot, the advertisement, and the deletion. -/
def pushSteps : List Act := [.step 0, .step 0, .step 0, .step 0]

theorem gc_keeps_one_note :
    Kept noteObjects (oneNoteWorld.run noteObjects (fun _ => "") [.start 0 "ann" 0 oneNote])
      (oneNoteWorld.run noteObjects (fun _ => "") ([.start 0 "ann" 0 oneNote] ++ pushSteps)) ∧
    (∀ n r, r ∈ ((gcAlone noteObjects (fun _ => "") "ann" 0 oneNote n).1.load noteObjects).entries ↔
      r ∈ (oneNote.load noteObjects).entries) ∧
    ∃ n, (gcAlone noteObjects (fun _ => "") "ann" 0 oneNote n).2 = .done := by
  have hblobs : ∀ ref ∈ oneNote.inbox.refs, IsBlob noteObjects ref.2 := by
    intro ref _ json hcat
    cases hcat
    rfl
  obtain ⟨hruns, hquiet⟩ := gc_loses_nothing noteObjects fun _ => ""
  refine ⟨hruns oneNoteWorld _ _ (fun _ => rfl) List.nodup_nil ?_,
    hquiet oneNote "ann" 0 List.nodup_nil hblobs⟩
  refine ⟨hblobs, trivial, ?_, trivial, trivial, trivial⟩
  intro name hname oid live hread hlive
  have hread : (name, oid) ∈ [(noteRef, "o1")] := hread
  have hlive : (name, live) ∈ [(noteRef, "o1")] := hlive
  simp_all

/-- The ref moves after it is read; the deletion is leased on where it is now. -/
theorem gc_loses_moved_note :
    Visible noteObjects (oneNoteWorld.run noteObjects (fun _ => "")
      [.start 0 "ann" 0 oneNote, .push noteRef "o2"]).remote "o2" ∧
    ¬ Visible noteObjects (oneNoteWorld.run noteObjects (fun _ => "")
      ([.start 0 "ann" 0 oneNote, .push noteRef "o2"] ++ pushSteps)).remote "o2" ∧
    "o2" ∉ (oneNoteWorld.run noteObjects (fun _ => "")
      ([.start 0 "ann" 0 oneNote, .push noteRef "o2"] ++ pushSteps)).replaced := by
  unfold Visible
  decide +kernel

end Examples

end Walgit.Collab
