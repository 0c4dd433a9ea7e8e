import Walgit.CollabFold

/-!
# A gc on a quiet remote

At every point of a gc that has the remote for itself the entries are those
from before, each with the inbox it is shown in.
-/

namespace Walgit.Collab

section Quiet

variable {git : Objects} {sign : Snapshot → String} {actor : String} {ts : ℤ}
  {remote refs : CollabRefs} {target : Snapshot} {folded : List String} {oid : String}
  {cur : Option EntryRef} {copies more : List EntryRef}

/-- A gc on a checkout that is up to date, and nobody else. -/
def gcAlone (git : Objects) (sign : Snapshot → String) (actor : String) (ts : ℤ)
    (remote : CollabRefs) (n : ℕ) : CollabRefs × Gc :=
  Nat.iterate (fun s => stepGc s.1 s.2) n (remote, startGc git sign actor ts remote)

theorem meet_legitimate (h : (∃ c ∈ cur, c.Legitimate) ∨ ∃ c ∈ copies, c.Legitimate) :
    ∃ c, meet cur copies = some c ∧ c.Legitimate := by
  induction copies generalizing cur with
  | nil =>
    obtain ⟨c, hc, hl⟩ := h.resolve_right nofun
    exact ⟨c, hc, hl⟩
  | cons er copies ih =>
    change ∃ c, meet (some (displace cur er)) copies = some c ∧ c.Legitimate
    refine ih ?_
    rcases h with ⟨c, hc, hl⟩ | ⟨c, hc, hl⟩
    · refine .inl ⟨c, ?_, hl⟩
      rw [Option.mem_def.mp hc, displace, if_neg (fun hboth => hboth.1 hl)]
      rfl
    · rcases List.mem_cons.mp hc with rfl | hc
      · refine .inl ⟨displace cur c, rfl, ?_⟩
        unfold displace
        split
        · exact hl
        · split
          · exact hl
          · rename_i hnot
            exact not_not.mp fun hcur => hnot ⟨hcur, hl⟩
      · exact .inr ⟨c, hc, hl⟩

theorem meet_absorb (h : ∀ er ∈ more, er ∈ copies) :
    meet (meet cur copies) more = meet cur copies := by
  induction more with
  | nil => rfl
  | cons er more ih =>
    have her : er ∈ copies := h er List.mem_cons_self
    have hstays : some (displace (meet cur copies) er) = meet cur copies := by
      have hsome : (meet cur copies).isSome = true := meet_isSome (.inr (List.ne_nil_of_mem her))
      obtain ⟨c, hc⟩ := Option.isSome_iff_exists.mp hsome
      rw [hc, displace, if_neg]
      rintro ⟨hnot, hl⟩
      have hlegit : ∃ d, meet cur copies = some d ∧ d.Legitimate := meet_legitimate
        (.inr ⟨er, her, hl⟩)
      obtain ⟨d, hd, hdl⟩ := hlegit
      rw [hc] at hd
      cases hd
      exact hnot hdl
    change meet (some (displace (meet cur copies) er)) more = _
    rw [hstays]
    exact ih fun er her => h er (List.mem_cons_of_mem _ her)

theorem keptCopy_records {records : List SnapshotRecord} (h : Distinct records) :
    keptCopy (records.filterMap (SnapshotRecord.entryRef git)) oid = shownCopy git records oid := by
  unfold keptCopy
  rw [copies_of_records h]
  cases shownCopy git records oid with
  | none => rfl
  | some r => by_cases hl : r.Legitimate <;> simp [hl]

theorem keptCopy_occurrences (h : Distinct refs.records) : keptCopy (refs.occurrences git) oid =
    meet (shownCopy git refs.records oid)
      ((refs.inbox.refs.filterMap (inboxEntry git)).filter fun r => r.oid = oid) := by
  rw [CollabRefs.occurrences, keptCopy_meet, keptCopy_records h]

/-- The snapshot is pushed, and none but folded refs are gone. -/
structure Pruned (remote : CollabRefs) (target : Snapshot) (folded : List String)
    (refs : CollabRefs) : Prop where
  snapshot : refs.snapshot = some target
  inbox : ∃ stays : String × String → Bool, refs.inbox.refs = remote.inbox.refs.filter stays ∧
    ∀ ref ∈ remote.inbox.refs, ref.1 ∉ folded → stays ref = true

theorem filter_filterMap_inbox (git : Objects) (oid : String) (refs : List (String × String))
    (stays : String × String → Bool) (entry : String × String → Option EntryRef)
    (h : ∀ ref ∈ refs, ref.2 = oid → stays ref = true ∧ entry ref = inboxEntry git ref)
    (hoid : ∀ ref r, entry ref = some r → r.oid = ref.2) :
    ((refs.filter stays).filterMap entry).filter (fun r => r.oid = oid) =
      (refs.filterMap (inboxEntry git)).filter fun r => r.oid = oid := by
  rw [List.filter_filterMap, List.filter_filterMap, List.filterMap_filter]
  refine List.filterMap_congr fun ref href => ?_
  by_cases hr : ref.2 = oid
  · obtain ⟨hstays, hentry⟩ := h ref href hr
    rw [if_pos hstays, hentry]
  · have hnone : ∀ o : Option EntryRef, (∀ r, o = some r → r.oid = ref.2) →
        o.filter (fun r => r.oid = oid) = none := by
      intro o ho
      refine Option.filter_eq_none_iff.mpr fun r hr' => ?_
      simpa [ho r hr'] using hr
    rw [hnone _ fun r hr' => inboxEntry_oid hr', hnone _ fun r hr' => hoid ref r hr']
    exact ite_self _

theorem keptCopy_pruned (hd : Distinct remote.records) (hf : Folded git remote target folded)
    (hp : Pruned remote target folded refs) :
    keptCopy (refs.occurrences git) oid = keptCopy (remote.occurrences git) oid := by
  have hrecords : refs.records = target.entries := by
    rw [CollabRefs.records, hp.snapshot, Option.map_some, Option.getD_some]
  obtain ⟨stays, hinbox, hstays⟩ := hp.inbox
  rw [keptCopy_occurrences (hrecords ▸ hf.distinct hd), keptCopy_occurrences hd, hrecords, hf.shown,
    hinbox]
  by_cases htext : ∃ json, git.catFile oid = some (.text json)
  · obtain ⟨json, hcat⟩ := htext
    have hcopies := filter_filterMap_inbox git oid remote.inbox.refs
      (fun _ => true) (textEntry git) (fun ref _ hr => ⟨rfl, by simp [textEntry, hr, hcat]⟩)
      fun ref r h => textEntry_oid h
    rw [List.filter_true] at hcopies
    rw [hcopies]
    refine meet_absorb fun er her => ?_
    exact ((List.filter_sublist.filterMap _).filter _).subset her
  · have hnone : (remote.inbox.refs.filterMap (textEntry git)).filter (fun r => r.oid = oid) =
        [] := by
      refine List.filter_eq_nil_iff.mpr fun r hr hroid => htext ?_
      obtain ⟨ref, -, hentry⟩ := List.mem_filterMap.mp hr
      obtain ⟨json, hcat⟩ := textEntry_text (Option.isSome_iff_exists.mpr ⟨r, hentry⟩)
      exact ⟨json, by rw [← of_decide_eq_true hroid, textEntry_oid hentry, hcat]⟩
    have hall := filter_filterMap_inbox git oid remote.inbox.refs stays
      (inboxEntry git) (fun ref href hr => ⟨?_, rfl⟩)
      (fun ref r h => inboxEntry_oid h)
    · rw [hnone, hall]
      rfl
    · -- a folded ref of this oid would be a text
      refine hstays ref href fun hname => htext ?_
      obtain ⟨o, hread, hsome⟩ := hf.names ref.1 hname
      have ho : o = ref.2 := by
        rw [← Inbox.get_eq_some] at hread
        rw [Inbox.get_eq_some.mpr (show (ref.1, ref.2) ∈ remote.inbox.refs from href)] at hread
        exact (Option.some.inj hread).symm
      obtain ⟨json, hcat⟩ := textEntry_text hsome
      exact ⟨json, by rw [← hr, ← ho, hcat]⟩

def Quiet (git : Objects) (remote : CollabRefs) (s : CollabRefs × Gc) : Prop :=
  match s.2 with
  | .idle => s.1 = remote
  | .ready view target folded => s.1 = remote ∧ view = remote ∧ Folded git remote target folded
  | .pushed _ folded => ∃ target, Folded git remote target folded ∧ Pruned remote target folded s.1
  | .deleting _ chunk rest => ∃ target folded, Folded git remote target folded ∧
    Pruned remote target folded s.1 ∧ ∀ ref ∈ chunk ++ rest, ref.1 ∈ folded
  | .done => s.1 = remote ∨ ∃ target folded, Folded git remote target folded ∧
    Pruned remote target folded s.1

theorem startGc_quiet (hblobs : ∀ ref ∈ remote.inbox.refs, IsBlob git ref.2) :
    Quiet git remote (remote, startGc git sign actor ts remote) := by
  rcases startGc_spec sign actor ts hblobs with
    hdone | ⟨target, folded, hready, hfolded⟩
  · rw [hdone]
    exact .inl rfl
  · rw [hready]
    exact ⟨rfl, rfl, hfolded⟩

theorem Pruned.erase {name : String} (hname : name ∈ folded)
    (h : Pruned remote target folded refs) :
    Pruned remote target folded { refs with inbox := refs.inbox.erase name } := by
  obtain ⟨stays, hinbox, hstays⟩ := h.inbox
  refine ⟨h.snapshot, fun ref => (decide (ref.1 ≠ name)) && stays ref, ?_, fun ref href hnot => ?_⟩
  · change refs.inbox.refs.filter _ = _
    rw [hinbox, List.filter_filter]
  · have hne : ref.1 ≠ name := fun heq => hnot (heq ▸ hname)
    exact Bool.and_eq_true_iff.mpr ⟨decide_eq_true hne, hstays ref href hnot⟩

theorem stepGc_quiet {gc : Gc} (h : Quiet git remote (refs, gc)) :
    Quiet git remote (stepGc refs gc) := by
  cases gc with
  | idle => exact h
  | ready view target folded =>
    obtain ⟨rfl, rfl, hf⟩ := h
    simp only [stepGc, true_or, if_true]
    refine ⟨target, hf, rfl, fun _ => true, ?_, fun _ _ _ => rfl⟩
    rw [List.filter_true]
  | pushed view folded =>
    obtain ⟨target, hf, hp⟩ := h
    refine ⟨target, folded, hf, hp, fun ref href => ?_⟩
    obtain ⟨name, hname, hget⟩ := List.mem_filterMap.mp (List.nil_append _ ▸ href)
    obtain ⟨live, -, rfl⟩ := Option.map_eq_some_iff.mp hget
    exact hname
  | deleting failed chunk rest =>
    obtain ⟨target, folded, hf, hp, hnames⟩ := h
    cases chunk with
    | nil =>
      simp only [stepGc]
      split
      · exact .inr ⟨target, folded, hf, hp⟩
      · refine ⟨target, folded, hf, hp, fun ref href => hnames ref ?_⟩
        rwa [List.take_append_drop] at href
    | cons ref chunk =>
      have hrest : ∀ ref ∈ chunk ++ rest, ref.1 ∈ folded :=
        fun ref href => hnames ref (List.mem_cons_of_mem _ href)
      simp only [stepGc]
      split
      · exact ⟨target, folded, hf, hp.erase (hnames ref List.mem_cons_self), hrest⟩
      · exact ⟨target, folded, hf, hp, hrest⟩
  | done => exact h

theorem gcAlone_quiet (hblobs : ∀ ref ∈ remote.inbox.refs, IsBlob git ref.2) (n : ℕ) :
    Quiet git remote (gcAlone git sign actor ts remote n) := by
  induction n with
  | zero => exact startGc_quiet hblobs
  | succ n ih =>
    rw [gcAlone, Function.iterate_succ_apply']
    exact stepGc_quiet ih

theorem Quiet.load {s : CollabRefs × Gc} (hd : Distinct remote.records)
    (h : Quiet git remote s) {r : EntryRef} :
    r ∈ (s.1.load git).entries ↔ r ∈ (remote.load git).entries := by
  have hcases : s.1 = remote ∨ ∃ target folded, Folded git remote target folded ∧
      Pruned remote target folded s.1 := by
    obtain ⟨refs, gc⟩ := s
    cases gc with
    | idle => exact .inl h
    | ready view target folded => exact .inl h.1
    | pushed view folded => exact .inr ⟨h.choose, folded, h.choose_spec⟩
    | deleting failed chunk rest =>
      obtain ⟨target, folded, hf, hp, -⟩ := h
      exact .inr ⟨target, folded, hf, hp⟩
    | done => exact h
  rcases hcases with heq | ⟨target, folded, hf, hp⟩
  · rw [heq]
  · rw [CollabRefs.load, CollabRefs.load, mem_ofOccurrences, mem_ofOccurrences,
      keptCopy_pruned hd hf hp]

theorem deleting_ends (failed : Bool) (chunk rest : List (String × String)) (refs : CollabRefs) :
    ∃ n, (Nat.iterate (fun s => stepGc s.1 s.2) n (refs, .deleting failed chunk rest)).2 =
      .done := by
  induction hlen : rest.length using Nat.strong_induction_on
    generalizing failed chunk rest refs with
  | _ len ih =>
    induction chunk generalizing failed refs with
    | nil =>
      by_cases hend : failed = true ∨ rest = []
      · exact ⟨1, by simp [stepGc, hend]⟩
      · have hshort : (rest.drop gcDeleteChunk).length < len := by
          have hpos := List.length_pos_of_ne_nil (not_or.mp hend).2
          rw [List.length_drop, hlen]
          unfold gcDeleteChunk
          omega
        obtain ⟨n, hn⟩ := ih _ hshort false (rest.take gcDeleteChunk) _ refs rfl
        refine ⟨n + 1, ?_⟩
        rw [Function.iterate_succ_apply]
        simpa only [stepGc, if_neg hend] using hn
    | cons ref chunk ihchunk =>
      by_cases hget : refs.inbox.get ref.1 = some ref.2
      · obtain ⟨n, hn⟩ := ihchunk failed { refs with inbox := refs.inbox.erase ref.1 }
        refine ⟨n + 1, ?_⟩
        rw [Function.iterate_succ_apply]
        simpa only [stepGc, if_pos hget] using hn
      · obtain ⟨n, hn⟩ := ihchunk true refs
        refine ⟨n + 1, ?_⟩
        rw [Function.iterate_succ_apply]
        simpa only [stepGc, if_neg hget] using hn

theorem gcAlone_ends (hblobs : ∀ ref ∈ remote.inbox.refs, IsBlob git ref.2) :
    ∃ n, (gcAlone git sign actor ts remote n).2 = .done := by
  rcases startGc_spec sign actor ts hblobs with
    hdone | ⟨target, folded, hready, -⟩
  · exact ⟨0, hdone⟩
  · obtain ⟨n, hn⟩ := deleting_ends false [] (folded.filterMap fun name =>
      (remote.inbox.get name).map fun oid => (name, oid)) { remote with snapshot := some target }
    refine ⟨n + 2, ?_⟩
    rw [gcAlone, hready, Function.iterate_succ_apply, Function.iterate_succ_apply]
    simpa only [stepGc, true_or, if_true] using hn

end Quiet

end Walgit.Collab
