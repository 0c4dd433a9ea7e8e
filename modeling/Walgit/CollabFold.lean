import Walgit.CollabGc
import Walgit.Threads

/-!
# What a fold keeps

For each oid the folded records show the copy that the aggregation keeps of
the records and the inbox; sorting and removing duplicates leaves the first
record of each oid.
-/

namespace Walgit.Collab

section Records

variable {git : Objects} {records : List SnapshotRecord} {record : SnapshotRecord} {oid : String}

def recordOf (records : List SnapshotRecord) (oid : String) : Option SnapshotRecord :=
  records.find? fun r => r.oid = oid

def shownCopy (git : Objects) (records : List SnapshotRecord) (oid : String) : Option EntryRef :=
  (recordOf records oid).bind (SnapshotRecord.entryRef git)

def Distinct (records : List SnapshotRecord) : Prop := (records.map SnapshotRecord.oid).Nodup

theorem entryRef_oid {r : EntryRef} (h : record.entryRef git = some r) : r.oid = record.oid := by
  unfold SnapshotRecord.entryRef at h
  split at h
  · obtain ⟨entry, -, rfl⟩ := Option.map_eq_some_iff.mp h
    rfl
  · cases h

theorem recordOf_oid (h : recordOf records oid = some record) : record.oid = oid := by
  have hoid := List.find?_some h
  exact of_decide_eq_true hoid

theorem copies_of_records (h : Distinct records) :
    (records.filterMap (SnapshotRecord.entryRef git)).filter (fun r => r.oid = oid) =
      (shownCopy git records oid).toList := by
  induction records with
  | nil => rfl
  | cons cur records ih =>
    obtain ⟨hcur, hrecords⟩ := List.nodup_cons.mp h
    rw [List.filterMap_cons]
    by_cases hoid : cur.oid = oid
    · have hrest : shownCopy git records oid = none := by
        have hnone : recordOf records oid = none := by
          refine List.find?_eq_none.mpr fun r hr => ?_
          have hne : r.oid ≠ oid := by
            rintro rfl
            exact hcur (hoid ▸ List.mem_map_of_mem hr)
          simpa using hne
        rw [shownCopy, hnone, Option.bind_none]
      have hfirst : shownCopy git (cur :: records) oid = cur.entryRef git := by
        simp [shownCopy, recordOf, hoid]
      rw [hfirst]
      cases hshown : cur.entryRef git with
      | none => rw [ih hrecords, hrest]
      | some r =>
        have hr : r.oid = oid := (entryRef_oid hshown).trans hoid
        simp [hr, ih hrecords, hrest]
    · have hfirst : shownCopy git (cur :: records) oid = shownCopy git records oid := by
        simp [shownCopy, recordOf, hoid]
      rw [hfirst, ← ih hrecords]
      cases hshown : cur.entryRef git with
      | none => rfl
      | some r =>
        have hr : r.oid ≠ oid := (entryRef_oid hshown).trans_ne hoid
        simp [hr]

end Records

section Building

variable {records : List SnapshotRecord} {oid : String} {sign : Snapshot → String}
  {actor : String} {ts : ℤ}

theorem filter_sortRecords : (sortRecords records).filter (fun r => r.oid = oid) =
    records.filter fun r => r.oid = oid := by
  have : Std.Total fun a b : SnapshotRecord => a.oid ≤ b.oid := ⟨fun a b => le_total _ _⟩
  have : IsTrans SnapshotRecord fun a b => a.oid ≤ b.oid := ⟨fun _ _ _ => le_trans⟩
  have hperm : (sortRecords records).Perm records := List.perm_insertionSort _ _
  have hle : (records.filter fun r => r.oid = oid).Pairwise fun a b => a.oid ≤ b.oid := by
    refine List.Pairwise.imp_of_mem (R := fun _ _ => True) (fun {a b} ha hb _ => ?_)
      (List.pairwise_of_forall fun _ _ => trivial)
    rw [of_decide_eq_true (List.mem_filter.mp ha).2, of_decide_eq_true (List.mem_filter.mp hb).2]
  have hsub := (List.sublist_insertionSort hle List.filter_sublist).filter
    (p := fun r : SnapshotRecord => decide (r.oid = oid))
  rw [List.filter_filter] at hsub
  simp only [Bool.and_self] at hsub
  exact (hsub.eq_of_length (hperm.filter _).length_eq.symm).symm

theorem recordOf_sortRecords : recordOf (sortRecords records) oid = recordOf records oid := by
  unfold recordOf
  rw [← List.head?_filter, filter_sortRecords, List.head?_filter]

theorem recordOf_destutter {cur : SnapshotRecord} :
    recordOf (records.destutter' (fun a b => a.oid ≠ b.oid) cur) oid =
      recordOf (cur :: records) oid := by
  induction records generalizing cur with
  | nil => rfl
  | cons r records ih =>
    by_cases hne : cur.oid ≠ r.oid
    · rw [List.destutter'_cons_pos (R := fun a b : SnapshotRecord => a.oid ≠ b.oid) _ hne]
      unfold recordOf at ih ⊢
      rw [List.find?_cons, List.find?_cons, ih]
    · rw [List.destutter'_cons_neg (R := fun a b : SnapshotRecord => a.oid ≠ b.oid) _ hne, ih]
      have heq : cur.oid = r.oid := not_not.mp hne
      unfold recordOf
      by_cases hoid : cur.oid = oid
      · simp [hoid]
      · simp [hoid, heq ▸ hoid]

theorem recordOf_dedupRecords : recordOf (dedupRecords records) oid = recordOf records oid := by
  cases records with
  | nil => rfl
  | cons cur records => exact recordOf_destutter

theorem recordOf_buildSnapshot :
    recordOf (buildSnapshot sign actor ts records).entries oid = recordOf records oid := by
  change recordOf (dedupRecords (sortRecords records)) oid = _
  rw [recordOf_dedupRecords, recordOf_sortRecords]

theorem buildSnapshot_distinct : Distinct (buildSnapshot sign actor ts records).entries := by
  have : Std.Total fun a b : SnapshotRecord => a.oid ≤ b.oid := ⟨fun a b => le_total _ _⟩
  have : IsTrans SnapshotRecord fun a b => a.oid ≤ b.oid := ⟨fun _ _ _ => le_trans⟩
  have hle : (dedupRecords (sortRecords records)).Pairwise fun a b => a.oid ≤ b.oid :=
    (List.pairwise_insertionSort _ records).sublist (List.destutter_sublist _ _)
  have hchain : (dedupRecords (sortRecords records)).IsChain fun a b => a.oid ≠ b.oid :=
    List.isChain_destutter _ _
  have hlt : (dedupRecords (sortRecords records)).IsChain fun a b => a.oid < b.oid := by
    generalize dedupRecords (sortRecords records) = l at hle hchain
    induction l with
    | nil => exact .nil
    | cons a l ih =>
      cases l with
      | nil => exact .singleton _
      | cons b l =>
        obtain ⟨hab, hl⟩ := List.pairwise_cons.mp hle
        obtain ⟨hne, hl'⟩ := List.isChain_cons_cons.mp hchain
        exact List.isChain_cons_cons.mpr
          ⟨lt_of_le_of_ne (hab b List.mem_cons_self) hne, ih hl hl'⟩
  have : IsTrans SnapshotRecord fun a b => a.oid < b.oid := ⟨fun _ _ _ => lt_trans⟩
  exact List.pairwise_map.mpr (hlt.pairwise.imp fun hab => ne_of_lt hab)

end Building

section Keeping

variable {git : Objects} {records : List SnapshotRecord} {record : SnapshotRecord}
  {oid entryActor : String} {entry : Entry}

/-- The record that stands after `cur` and `record` have met. -/
def betterRecord (git : Objects) (record : SnapshotRecord) (entryActor : String)
    (cur : Option SnapshotRecord) : SnapshotRecord :=
  match cur with
  | none => record
  | some cur =>
    if (cur.entryRef git).isNone = true ∨
        (cur.principal ≠ entryActor ∧ record.principal = entryActor) then record
    else cur

theorem recordOf_keepFoldRecord :
    recordOf (keepFoldRecord git record entryActor records).1 oid =
      if record.oid = oid then some (betterRecord git record entryActor (recordOf records oid))
      else recordOf records oid := by
  induction records with
  | nil =>
    by_cases h : record.oid = oid <;> simp [keepFoldRecord, recordOf, betterRecord, h]
  | cons cur records ih =>
    unfold keepFoldRecord
    by_cases hcur : cur.oid = record.oid
    · rw [if_pos hcur]
      by_cases h : record.oid = oid
      · have hfirst : recordOf (cur :: records) oid = some cur := by
          simp [recordOf, hcur.trans h]
        rw [if_pos h, hfirst]
        dsimp only [betterRecord]
        split
        · simp [recordOf, h]
        · exact hfirst
      · have hne : cur.oid ≠ oid := hcur ▸ h
        rw [if_neg h]
        split <;> simp [recordOf, h, hne]
    · rw [if_neg hcur]
      by_cases hoid : cur.oid = oid
      · have h : record.oid ≠ oid := fun heq => hcur (hoid.trans heq.symm)
        simp [recordOf, hoid, h]
      · have hrest : ∀ l : List SnapshotRecord, recordOf (cur :: l) oid = recordOf l oid :=
          fun l => by simp [recordOf, hoid]
        dsimp only
        rw [hrest, hrest, ih]

theorem keepFoldRecord_unchanged (h : (keepFoldRecord git record entryActor records).2 = false) :
    (keepFoldRecord git record entryActor records).1 = records := by
  induction records with
  | nil => cases h
  | cons cur records ih =>
    unfold keepFoldRecord at h ⊢
    split at h
    · rename_i hcur
      rw [if_pos hcur]
      split at h
      · cases h
      · rename_i hkeep
        rw [if_neg hkeep]
    · rename_i hcur
      rw [if_neg hcur]
      exact congrArg (cur :: ·) (ih h)

theorem shownCopy_keepFoldRecord (record : SnapshotRecord)
    (hparse : git.fromSlice (.text record.json) = some entry)
    (hblob : git.blobOid record.json = record.oid) :
    shownCopy git (keepFoldRecord git record entry.actor records).1 oid =
      if record.oid = oid then
        some (displace (shownCopy git records oid) ⟨record.oid, record.principal, entry⟩)
      else shownCopy git records oid := by
  have hrecord : record.entryRef git = some ⟨record.oid, record.principal, entry⟩ := by
    rw [SnapshotRecord.entryRef, if_pos hblob, hparse, Option.map_some]
  unfold shownCopy
  rw [recordOf_keepFoldRecord]
  by_cases h : record.oid = oid
  · rw [if_pos h, if_pos h, Option.bind_some]
    cases hcur : recordOf records oid with
    | none => exact hrecord
    | some cur =>
      unfold betterRecord
      rw [Option.bind_some]
      dsimp only
      cases hshown : cur.entryRef git with
      | none => rw [if_pos (.inl rfl), hrecord, displace]
      | some c =>
        -- both records are the blob of the oid
        have hc : c = ⟨cur.oid, cur.principal, entry⟩ := by
          unfold SnapshotRecord.entryRef at hshown
          split at hshown
          · rename_i hcurblob
            have hjson : cur.json = record.json := by
              refine git.blobOid_inj ?_
              rw [hcurblob, hblob, recordOf_oid hcur, h]
            rw [hjson, hparse, Option.map_some] at hshown
            exact (Option.some.inj hshown).symm
          · cases hshown
        rw [hc, displace]
        by_cases hreplace : cur.principal ≠ entry.actor ∧ record.principal = entry.actor
        · rw [if_pos (.inr hreplace), hrecord]
          exact (congrArg some (if_pos hreplace)).symm
        · rw [if_neg (by simpa using hreplace), hshown, hc]
          exact (congrArg some (if_neg hreplace)).symm
  · rw [if_neg h, if_neg h]

end Keeping

section Folding

variable {git : Objects} {refs : List (String × String)} {ref : String × String} {f f' : Fold}
  {oid : String} {occurrences more : List EntryRef} {cur : Option EntryRef}

/-- The copy that stands after more copies have come. -/
def meet (cur : Option EntryRef) (copies : List EntryRef) : Option EntryRef :=
  copies.foldl (fun cur er => some (displace cur er)) cur

theorem meet_isSome (h : cur.isSome = true ∨ more ≠ []) : (meet cur more).isSome = true := by
  induction more generalizing cur with
  | nil => exact h.resolve_right fun hne => hne rfl
  | cons er more ih => exact ih (.inl rfl)

theorem meet_filter_cons {er : EntryRef} : meet cur ((er :: more).filter fun r => r.oid = oid) =
    meet (if er.oid = oid then some (displace cur er) else cur)
      (more.filter fun r => r.oid = oid) := by
  rw [List.filter_cons]
  by_cases h : er.oid = oid
  · rw [if_pos (decide_eq_true h), if_pos h]
    rfl
  · rw [if_neg (by simpa using h), if_neg h]

theorem keptCopy_meet : keptCopy (occurrences ++ more) oid =
    meet (keptCopy occurrences oid) (more.filter fun r => r.oid = oid) := by
  induction more generalizing occurrences with
  | nil => rw [List.append_nil, List.filter_nil, meet, List.foldl_nil]
  | cons er more ih =>
    rw [List.append_cons, ih, keptCopy_append, meet_filter_cons]

def textEntry (git : Objects) (ref : String × String) : Option EntryRef :=
  match git.catFile ref.2 with
  | some (.text _) => inboxEntry git ref
  | _ => none

/-- The object is no tag of a blob: what `cat-file blob` prints is what the oid names. -/
def IsBlob (git : Objects) (oid : String) : Prop :=
  ∀ json, git.catFile oid = some (.text json) → git.blobOid json = oid

theorem inboxEntry_oid {r : EntryRef} (h : inboxEntry git ref = some r) : r.oid = ref.2 := by
  simp only [inboxEntry, Option.bind_eq_bind, Option.bind_eq_some_iff] at h
  obtain ⟨principal, -, blob, -, entry, -, heq⟩ := h
  cases heq
  rfl

theorem textEntry_oid {r : EntryRef} (h : textEntry git ref = some r) : r.oid = ref.2 := by
  unfold textEntry at h
  split at h
  · exact inboxEntry_oid h
  · cases h

theorem textEntry_text (h : (textEntry git ref).isSome = true) :
    ∃ json, git.catFile ref.2 = some (.text json) := by
  unfold textEntry at h
  split at h
  · rename_i json hcat
    exact ⟨json, hcat⟩
  · cases h

/-- What a fold makes of the records, which refs it prunes, and when it records nothing. -/
structure FoldSpec (git : Objects) (refs : List (String × String)) (f f' : Fold) : Prop where
  shown : ∀ oid, shownCopy git f'.records oid = meet (shownCopy git f.records oid)
    ((refs.filterMap (textEntry git)).filter fun r => r.oid = oid)
  folded : f'.folded =
    f.folded ++ (refs.filter fun ref => (textEntry git ref).isSome).map Prod.fst
  unchanged : f'.changed = false → f.changed = false ∧ f'.records = f.records

theorem FoldSpec.skip (hskip : textEntry git ref = none) (h : FoldSpec git refs f f') :
    FoldSpec git (ref :: refs) f f' where
  shown oid := by rw [List.filterMap_cons_none hskip, h.shown]
  folded := by rw [List.filter_cons_of_neg (by simp [hskip]), h.folded]
  unchanged := h.unchanged

theorem FoldSpec.take (er : EntryRef) {kept : List SnapshotRecord × Bool}
    (her : textEntry git ref = some er)
    (hkept : ∀ oid, shownCopy git kept.1 oid =
      if er.oid = oid then some (displace (shownCopy git f.records oid) er)
      else shownCopy git f.records oid)
    (hsame : kept.2 = false → kept.1 = f.records)
    (h : FoldSpec git refs ⟨kept.1, f.folded ++ [ref.1], f.changed || kept.2⟩ f') :
    FoldSpec git (ref :: refs) f f' where
  shown oid := by
    rw [List.filterMap_cons_some her, h.shown, hkept, meet_filter_cons]
  folded := by
    rw [List.filter_cons_of_pos (by simp [her]), h.folded]
    simp
  unchanged hf' := by
    obtain ⟨hchanged, hrecords⟩ := h.unchanged hf'
    obtain ⟨hf, hk⟩ := Bool.or_eq_false_iff.mp hchanged
    exact ⟨hf, hrecords.trans (hsame hk)⟩

theorem foldInbox_spec (hblobs : ∀ ref ∈ refs, IsBlob git ref.2)
    (h : foldInbox git refs f = some f') : FoldSpec git refs f f' := by
  induction refs generalizing f with
  | nil =>
    cases h
    exact ⟨fun _ => rfl, (List.append_nil _).symm, fun hf => ⟨hf, rfl⟩⟩
  | cons ref refs ih =>
    obtain ⟨name, oid⟩ := ref
    have ih := fun {f} => ih (f := f) fun ref href => hblobs ref (List.mem_cons_of_mem _ href)
    unfold foldInbox at h
    split at h
    · cases h
    · rename_i raw hcat
      refine FoldSpec.skip ?_ (ih h)
      simp [textEntry, hcat]
    · rename_i json hcat
      split at h
      · rename_i entry principal hentry hprincipal
        refine FoldSpec.take ⟨oid, principal, entry⟩ ?_ (fun o => ?_) (fun hk => ?_) (ih h)
        · simp [textEntry, inboxEntry, hcat, hprincipal, hentry]
        · exact shownCopy_keepFoldRecord ⟨oid, principal, json⟩ hentry
            (hblobs _ List.mem_cons_self json hcat)
        · exact keepFoldRecord_unchanged hk
      · rename_i hnone
        refine FoldSpec.skip ?_ (ih h)
        cases hprincipal : principalOf name with
        | none => simp [textEntry, inboxEntry, hcat, hprincipal]
        | some principal =>
          cases hentry : git.fromSlice (.text json) with
          | none => simp [textEntry, inboxEntry, hcat, hprincipal, hentry]
          | some entry => exact absurd hprincipal (hnone entry principal hentry)

end Folding

section Starting

variable {git : Objects} {sign : Snapshot → String} {view : CollabRefs} {actor : String} {ts : ℤ}
  {target : Snapshot} {folded : List String}

def Holds (git : Objects) (records : List SnapshotRecord) (oid : String) : Prop :=
  (shownCopy git records oid).isSome = true

structure Folded (git : Objects) (view : CollabRefs) (target : Snapshot)
    (folded : List String) : Prop where
  distinct : Distinct view.records → Distinct target.entries
  shown : ∀ oid, shownCopy git target.entries oid = meet (shownCopy git view.records oid)
    ((view.inbox.refs.filterMap (textEntry git)).filter fun r => r.oid = oid)
  names : ∀ name ∈ folded, ∃ oid, (name, oid) ∈ view.inbox.refs ∧
    (textEntry git (name, oid)).isSome = true

theorem Folded.held (h : Folded git view target folded) {oid : String}
    (hholds : Holds git view.records oid) : Holds git target.entries oid := by
  rw [Holds, h.shown]
  exact meet_isSome (.inl hholds)

theorem Folded.names_held (h : Folded git view target folded) :
    ∀ name ∈ folded, ∃ oid, (name, oid) ∈ view.inbox.refs ∧ Holds git target.entries oid := by
  intro name hname
  obtain ⟨oid, href, hsome⟩ := h.names name hname
  obtain ⟨er, her⟩ := Option.isSome_iff_exists.mp hsome
  refine ⟨oid, href, ?_⟩
  rw [Holds, h.shown]
  refine meet_isSome (.inr (List.ne_nil_of_mem (a := er) ?_))
  exact List.mem_filter.mpr
    ⟨List.mem_filterMap.mpr ⟨_, href, her⟩, decide_eq_true (textEntry_oid her)⟩

theorem startGc_spec (sign : Snapshot → String) (actor : String) (ts : ℤ)
    (hblobs : ∀ ref ∈ view.inbox.refs, IsBlob git ref.2) :
    startGc git sign actor ts view = .done ∨ ∃ target folded,
      startGc git sign actor ts view = .ready view target folded ∧
        Folded git view target folded := by
  unfold startGc
  split
  · exact .inl rfl
  · rename_i f hfold
    have hspec := foldInbox_spec hblobs hfold
    have hnames : ∀ name ∈ f.folded, ∃ oid, (name, oid) ∈ view.inbox.refs ∧
        (textEntry git (name, oid)).isSome = true := by
      intro name hname
      rw [hspec.folded, List.nil_append] at hname
      obtain ⟨⟨n, oid⟩, href, rfl⟩ := List.mem_map.mp hname
      exact ⟨oid, List.mem_filter.mp href⟩
    split
    · exact .inl rfl
    · split
      · rename_i target htarget
        refine .inr ⟨target, f.folded, rfl, ?_⟩
        split at htarget
        · cases htarget
          refine ⟨fun _ => buildSnapshot_distinct, fun oid => ?_, hnames⟩
          rw [shownCopy, recordOf_buildSnapshot]
          exact hspec.shown oid
        · rename_i hchanged
          have hrecords := (hspec.unchanged (Bool.not_eq_true _ ▸ hchanged)).2
          have htarget : target.entries = f.records := by
            rw [hrecords, CollabRefs.records, htarget, Option.map_some, Option.getD_some]
          exact ⟨fun hd => by rwa [htarget, hrecords], fun oid => htarget ▸ hspec.shown oid, hnames⟩
      · exact .inl rfl

end Starting

end Walgit.Collab
