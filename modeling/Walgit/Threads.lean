import Walgit.Entries

/-!
# Threads and entry sets

A thread is an arrangement of its entries that depends on their set only. The
set built from occurrences keeps, of each blob, a legitimate copy or the first
one, in the order in which the blobs appear.
-/

namespace Walgit.Collab

open Grouping

section Threads

variable {known known' : List String} {pending out entries entries' : List EntryRef} {p : Pass}

theorem threadPass_perm : ((threadPass known pending p).out ++
    (threadPass known pending p).next).Perm (p.out ++ p.next ++ pending) := by
  induction pending generalizing p with
  | nil => simp [threadPass]
  | cons e pending ih =>
    unfold threadPass
    split
    · refine ih.trans ?_
      simp only [List.append_assoc, List.singleton_append]
      refine List.Perm.append_left _ ?_
      exact List.perm_middle.symm
    · refine ih.trans ?_
      simp only [List.append_assoc, List.singleton_append]
      exact List.Perm.refl _

theorem threadLoop_perm {rounds guard : ℕ} :
    (threadLoop known rounds guard pending out).Perm (out ++ pending) := by
  induction rounds generalizing guard pending out with
  | zero => exact List.Perm.refl _
  | succ rounds ih =>
    unfold threadLoop
    split
    · refine ih.trans ?_
      have hpass : ((threadPass known pending ⟨out, []⟩).out ++
          (threadPass known pending ⟨out, []⟩).next).Perm (out ++ [] ++ pending) := threadPass_perm
      rwa [List.append_nil] at hpass
    · exact List.Perm.refl _

theorem thread_perm : (thread entries).Perm entries :=
  threadLoop_perm.trans (List.perm_insertionSort _ _)

theorem threadPass_congr (h : ∀ o, o ∈ known ↔ o ∈ known') :
    threadPass known pending p = threadPass known' pending p := by
  induction pending generalizing p with
  | nil => rfl
  | cons e pending ih =>
    unfold threadPass
    simp only [h, ih]

theorem threadLoop_congr (h : ∀ o, o ∈ known ↔ o ∈ known') {rounds guard : ℕ} :
    threadLoop known rounds guard pending out = threadLoop known' rounds guard pending out := by
  induction rounds generalizing guard pending out with
  | zero => rfl
  | succ rounds ih =>
    unfold threadLoop
    simp only [threadPass_congr h, ih]

theorem key_inj {r r' : EntryRef} (h : r.key = r'.key) : r.oid = r'.oid :=
  congrArg Prod.snd (toLex.injective (congrArg Prod.snd (toLex.injective h)))

theorem sortEntries_congr (hn : (entries.map EntryRef.oid).Nodup) (h : entries.Perm entries') :
    sortEntries entries = sortEntries entries' := by
  have hle : ∀ l : List EntryRef, (sortEntries l).Pairwise fun a b => a.key ≤ b.key := by
    intro l
    have : Std.Total fun a b : EntryRef => a.key ≤ b.key := ⟨fun a b => le_total _ _⟩
    have : IsTrans EntryRef fun a b => a.key ≤ b.key := ⟨fun _ _ _ => le_trans⟩
    exact List.pairwise_insertionSort _ l
  have hperm : (sortEntries entries).Perm entries := List.perm_insertionSort _ _
  have hperm' : (sortEntries entries').Perm entries' := List.perm_insertionSort _ _
  refine List.Perm.eq_of_pairwise (fun a b ha hb hab hba => ?_) (hle _) (hle _)
    (hperm.trans (h.trans hperm'.symm))
  refine List.inj_on_of_nodup_map hn (hperm.mem_iff.mp ha) ?_ (key_inj (le_antisymm hab hba))
  exact h.mem_iff.mpr (hperm'.mem_iff.mp hb)

theorem thread_congr (hn : (entries.map EntryRef.oid).Nodup) (h : entries.Perm entries') :
    thread entries = thread entries' := by
  unfold thread
  rw [sortEntries_congr hn h, h.length_eq]
  exact threadLoop_congr fun o => (h.map EntryRef.oid).mem_iff

end Threads

section Copies

variable {er r : EntryRef} {entries occurrences : List EntryRef} {oid : String}

/-- Of the copies of a blob, a legitimate one is kept, else the first one. -/
def keptCopy (occurrences : List EntryRef) (oid : String) : Option EntryRef :=
  let copies := occurrences.filter fun r => r.oid = oid
  (copies.find? fun r => decide r.Legitimate).or copies.head?

def displace (cur : Option EntryRef) (er : EntryRef) : EntryRef :=
  match cur with
  | none => er
  | some cur => if ¬ cur.Legitimate ∧ er.Legitimate then er else cur

theorem find_insertEntry : (insertEntry er entries).find? (fun r => r.oid = oid) =
    if er.oid = oid then some (displace (entries.find? fun r => r.oid = oid) er)
    else entries.find? fun r => r.oid = oid := by
  induction entries with
  | nil =>
    by_cases h : er.oid = oid <;> simp [insertEntry, displace, h]
  | cons cur rest ih =>
    unfold insertEntry
    by_cases hcur : cur.oid = er.oid
    · rw [if_pos hcur]
      by_cases h : er.oid = oid
      · rw [if_pos h]
        have hcuroid : cur.oid = oid := hcur.trans h
        unfold displace
        split <;> simp_all
      · have hcuroid : cur.oid ≠ oid := hcur ▸ h
        rw [if_neg h]
        split <;> simp [h, hcuroid]
    · rw [if_neg hcur]
      by_cases hcuroid : cur.oid = oid
      · have h : er.oid ≠ oid := fun he => hcur (hcuroid.trans he.symm)
        simp [hcuroid, h]
      · simp [hcuroid, ih]

theorem keptCopy_append : keptCopy (occurrences ++ [er]) oid =
    if er.oid = oid then some (displace (keptCopy occurrences oid) er)
    else keptCopy occurrences oid := by
  unfold keptCopy
  by_cases h : er.oid = oid
  · simp only [List.filter_append, h, if_true, List.filter_singleton, decide_true]
    cases hcopies : occurrences.filter (fun r => r.oid = oid) with
    | nil =>
      by_cases hl : er.Legitimate <;> simp [displace, hl]
    | cons c cs =>
      simp only [List.cons_append, List.head?_cons, List.find?_append, List.find?_cons]
      by_cases hc : c.Legitimate
      · simp [hc, displace]
      · simp only [hc, decide_false]
        cases hfind : cs.find? (fun r => decide r.Legitimate) with
        | some d =>
          have hd := List.find?_some hfind
          have hd : d.Legitimate := of_decide_eq_true hd
          simp [displace, hd]
        | none =>
          by_cases hl : er.Legitimate <;> simp [displace, hc, hl]
  · simp [List.filter_append, h]

theorem ofOccurrences_append : (EntrySet.ofOccurrences (occurrences ++ [er])).entries =
    insertEntry er (EntrySet.ofOccurrences occurrences).entries := by
  simp [EntrySet.ofOccurrences, EntrySet.insert]

theorem find_ofOccurrences : (EntrySet.ofOccurrences occurrences).entries.find?
    (fun r => r.oid = oid) = keptCopy occurrences oid := by
  induction occurrences using List.reverseRecOn with
  | nil => rfl
  | append_singleton occurrences er ih =>
    rw [ofOccurrences_append, find_insertEntry, ih, keptCopy_append]

theorem mem_ofOccurrences : r ∈ (EntrySet.ofOccurrences occurrences).entries ↔
    keptCopy occurrences r.oid = some r := by
  rw [← find_ofOccurrences]
  constructor
  · intro hr
    cases hfind : (EntrySet.ofOccurrences occurrences).entries.find? (fun x => x.oid = r.oid) with
    | none => exact absurd (decide_eq_true rfl) (List.find?_eq_none.mp hfind r hr)
    | some x =>
      have hx := List.mem_of_find?_eq_some hfind
      have hoid := List.find?_some hfind
      have hoid : x.oid = r.oid := of_decide_eq_true hoid
      rw [List.inj_on_of_nodup_map (EntrySet.ofOccurrences occurrences).nodup hx hr hoid]
  · exact fun h => List.mem_of_find?_eq_some h

theorem keptCopy_mem (h : keptCopy occurrences oid = some r) : r ∈ occurrences ∧ r.oid = oid := by
  unfold keptCopy at h
  have hmem : r ∈ occurrences.filter fun r => r.oid = oid := by
    rcases Option.or_eq_some_iff.mp h with hfind | ⟨-, hhead⟩
    · exact List.mem_of_find?_eq_some hfind
    · exact List.mem_of_head? hhead
  exact ⟨(List.mem_filter.mp hmem).1, of_decide_eq_true (List.mem_filter.mp hmem).2⟩

theorem keptCopy_isSome (hr : r ∈ occurrences) : ∃ x, keptCopy occurrences r.oid = some x := by
  have hmem : r ∈ occurrences.filter fun x => x.oid = r.oid :=
    List.mem_filter.mpr ⟨hr, decide_eq_true rfl⟩
  unfold keptCopy
  cases hcopies : occurrences.filter (fun x => x.oid = r.oid) with
  | nil => rw [hcopies] at hmem; cases hmem
  | cons c cs =>
    dsimp only
    cases (c :: cs).find? (fun x => decide x.Legitimate) with
    | some x => exact ⟨x, rfl⟩
    | none => exact ⟨c, rfl⟩

/-- Where in the reading order a blob appears first. -/
def firstAt (occurrences : List EntryRef) (oid : String) : ℕ :=
  (occurrences.map EntryRef.oid).idxOf oid

theorem insertEntry_oids : (insertEntry er entries).map EntryRef.oid =
    if er.oid ∈ entries.map EntryRef.oid then entries.map EntryRef.oid
    else entries.map EntryRef.oid ++ [er.oid] := by
  induction entries with
  | nil => simp [insertEntry]
  | cons cur rest ih =>
    unfold insertEntry
    by_cases hcur : cur.oid = er.oid
    · have hmem : er.oid ∈ (cur :: rest).map EntryRef.oid := by simp [hcur]
      rw [if_pos hcur, if_pos hmem]
      split <;> simp [hcur]
    · rw [if_neg hcur, List.map_cons, ih, List.map_cons]
      have hiff : er.oid ∈ cur.oid :: rest.map EntryRef.oid ↔ er.oid ∈ rest.map EntryRef.oid := by
        rw [List.mem_cons]
        exact or_iff_right (Ne.symm hcur)
      simp only [hiff]
      split <;> rfl

theorem mem_ofOccurrences_oids : oid ∈ (EntrySet.ofOccurrences occurrences).entries.map
    EntryRef.oid ↔ oid ∈ occurrences.map EntryRef.oid := by
  induction occurrences using List.reverseRecOn with
  | nil => rfl
  | append_singleton occurrences er ih =>
    rw [ofOccurrences_append, mem_insertEntry_oids, ih]
    simp [or_comm]

theorem firstAt_append (h : oid ∈ occurrences.map EntryRef.oid) :
    firstAt (occurrences ++ [er]) oid = firstAt occurrences oid := by
  rw [firstAt, List.map_append, List.idxOf_append_of_mem h, firstAt]

theorem firstAt_lt_new {o : String} (h : o ∈ occurrences.map EntryRef.oid)
    (hnew : er.oid ∉ occurrences.map EntryRef.oid) :
    firstAt (occurrences ++ [er]) o < firstAt (occurrences ++ [er]) er.oid := by
  have hlast : firstAt (occurrences ++ [er]) er.oid = occurrences.length := by
    rw [firstAt, List.map_append, List.idxOf_append_of_notMem hnew]
    simp
  rw [firstAt_append h, hlast, firstAt]
  simpa using List.idxOf_lt_length_of_mem h

theorem ofOccurrences_oids_order (occurrences : List EntryRef) :
    ((EntrySet.ofOccurrences occurrences).entries.map EntryRef.oid).Pairwise
      fun a b => firstAt occurrences a < firstAt occurrences b := by
  induction occurrences using List.reverseRecOn with
  | nil => exact List.Pairwise.nil
  | append_singleton occurrences er ih =>
    have hold : ((EntrySet.ofOccurrences occurrences).entries.map EntryRef.oid).Pairwise
        fun a b => firstAt (occurrences ++ [er]) a < firstAt (occurrences ++ [er]) b := by
      refine ih.imp_of_mem fun {a b} ha hb hab => ?_
      rwa [firstAt_append (mem_ofOccurrences_oids.mp ha),
        firstAt_append (mem_ofOccurrences_oids.mp hb)]
    rw [ofOccurrences_append, insertEntry_oids]
    split
    · exact hold
    · rename_i hnew
      refine List.pairwise_append.mpr ⟨hold, List.pairwise_singleton _ _, fun a ha b hb => ?_⟩
      rw [List.mem_singleton.mp hb]
      exact firstAt_lt_new (mem_ofOccurrences_oids.mp ha)
        (fun h => hnew (mem_ofOccurrences_oids.mpr h))

theorem ofOccurrences_order : (EntrySet.ofOccurrences occurrences).entries.Pairwise
    fun a b => firstAt occurrences a.oid < firstAt occurrences b.oid := by
  have h := ofOccurrences_oids_order occurrences
  rwa [List.pairwise_map] at h

end Copies

end Walgit.Collab
