import Mathlib

/-!
# Attaching to the output of a task

A publish call notes its packet in the task's record, pushes it to the replay
buffer and sends it to the subscribers, in three steps of their own. An attach
call takes a copy of the buffer and subscribes in one. The buffer keeps the
latest bar of a label only.
-/

namespace Walgit.Tasks

variable {T : Type}

/-- The packets; what a task record says is of no matter here. -/
inductive Progress (T : Type)
  | notice (text : String)
  | progress (label : String) (done : ℕ) (total : Option ℕ) (unit : String)
  | task (record : T)
  deriving DecidableEq, Repr

def Progress.label? : Progress T → Option String
  | .progress label _ _ _ => some label
  | _ => none

/-- A packet that was pushed, and which push it was. -/
structure Packet (T : Type) where
  nth : ℕ
  body : Progress T
  deriving DecidableEq, Repr

def keepLog : ℕ := 60

def replayMax : ℕ := 200

/-- What a publish call changes of the record. -/
structure Record (T : Type) where
  logTail : List String
  progress : Option (Progress T)

def Record.note (r : Record T) : Progress T → Record T
  | .notice text =>
    let logTail := r.logTail ++ [text]
    { r with logTail := if keepLog < logTail.length then logTail.drop 1 else logTail }
  | p@(.progress ..) => { r with progress := some p }
  | .task _ => r

/-- The later packet is a bar with the label of the earlier. -/
def Supersedes (later earlier : Packet T) : Prop :=
  later.body.label?.isSome ∧ earlier.body.label? = later.body.label?

instance (later earlier : Packet T) : Decidable (Supersedes later earlier) :=
  inferInstanceAs (Decidable (_ ∧ _))

/-- `pop_front` while the buffer is too long; `start` is the first push that was
not popped. -/
def popFront : List (Packet T) → ℕ → List (Packet T) × ℕ
  | [], start => ([], start)
  | k :: ks, start =>
    if replayMax < (k :: ks).length then popFront ks (k.nth + 1) else (k :: ks, start)

/-- What an attach call was given: the copy of the buffer, the place in the
channel it subscribed at, how many pushes there had been, and where the window
of the buffer started. -/
structure AttachView (T : Type) where
  snapshot : List (Packet T)
  position : ℕ
  seen : ℕ
  start : ℕ

/-- A task's state, the publish calls that are between two of their steps, and
the history: all pushes and all sends. -/
structure TaskState (T : Type) where
  record : Record T
  noted : List (Progress T)
  replay : List (Packet T)
  start : ℕ
  unsent : List (Packet T)
  published : List (Packet T)
  sent : List (Packet T)
  views : List (AttachView T)

def TaskState.init : TaskState T := ⟨⟨[], none⟩, [], [], 0, [], [], [], []⟩

inductive Event (T : Type)
  | note (p : Progress T)
  | push (i : ℕ)
  | send (i : ℕ)
  | attach

/-- The buffer's section of `publish`. -/
def TaskState.push (s : TaskState T) (k : Packet T) : TaskState T :=
  let replay := s.replay.filter fun q => ¬ Supersedes k q
  let (replay, start) := popFront (replay ++ [k]) s.start
  { s with
    replay := replay
    start := start
    unsent := s.unsent ++ [k]
    published := s.published ++ [k] }

/-- One step of some call; `push i` and `send i` are those of the `i`th call at that point. -/
def step (s : TaskState T) : Event T → Option (TaskState T)
  | .note p => some { s with record := s.record.note p, noted := s.noted ++ [p] }
  | .push i =>
    s.noted[i]?.map fun p =>
      TaskState.push { s with noted := s.noted.eraseIdx i } ⟨s.published.length, p⟩
  | .send i =>
    s.unsent[i]?.map fun k => { s with unsent := s.unsent.eraseIdx i, sent := s.sent ++ [k] }
  | .attach =>
    some { s with
      views := s.views ++ [⟨s.replay, s.sent.length, s.published.length, s.start⟩] }

/-- The states of runs whose steps all meet `ok`. -/
inductive Reach (ok : TaskState T → Event T → Prop) : TaskState T → Prop
  | init : Reach ok .init
  | step {s s' : TaskState T} {e : Event T} (h : Reach ok s) (hok : ok s e)
      (hstep : step s e = some s') : Reach ok s'

def Any (_ : TaskState T) (_ : Event T) : Prop := True

/-- The `n`th attach call does not come between a buffer section and its send. -/
def AttachesClear (n : ℕ) (s : TaskState T) : Event T → Prop
  | .attach => s.views.length = n → s.unsent = []
  | _ => True

/-- Nor does, after it, a buffer section come between another and its send. -/
def PublishesClear (n : ℕ) (s : TaskState T) : Event T → Prop
  | .push _ => n < s.views.length → s.unsent = []
  | .attach => s.views.length = n → s.unsent = []
  | _ => True

/-- What the subscriber of a view has got so far. -/
def AttachView.received (v : AttachView T) (s : TaskState T) : List (Packet T) :=
  v.snapshot ++ s.sent.drop v.position

section Kept

/-- The packets that no later one supersedes. -/
def kept : List (Packet T) → List (Packet T)
  | [] => []
  | k :: ks => if ∃ j ∈ ks, Supersedes j k then kept ks else k :: kept ks

variable {k a : Packet T} {ks l rest : List (Packet T)}

theorem kept_concat (ks : List (Packet T)) (k : Packet T) :
    kept (ks ++ [k]) = (kept ks).filter (fun q => ¬ Supersedes k q) ++ [k] := by
  induction ks with
  | nil => simp [kept]
  | cons a ks ih =>
    rw [List.cons_append, kept, kept, ih]
    by_cases hlater : ∃ j ∈ ks, Supersedes j a
    · obtain ⟨j, hj, hja⟩ := hlater
      rw [if_pos ⟨j, List.mem_append_left _ hj, hja⟩, if_pos ⟨j, hj, hja⟩]
    · rw [if_neg hlater]
      by_cases hk : Supersedes k a
      · rw [if_pos ⟨k, List.mem_append_right _ (List.mem_singleton_self k), hk⟩,
          List.filter_cons_of_neg (by simpa using hk)]
      · rw [if_neg, List.filter_cons_of_pos (by simpa using hk), List.cons_append]
        rintro ⟨j, hj, hja⟩
        rcases List.mem_append.mp hj with hj | hj
        · exact hlater ⟨j, hj, hja⟩
        · exact hk (List.mem_singleton.mp hj ▸ hja)

theorem exists_of_kept_cons (h : kept ks = a :: rest) :
    ∃ pre post, ks = pre ++ a :: post ∧ kept post = rest := by
  induction ks with
  | nil => cases h
  | cons k ks ih =>
    rw [kept] at h
    split at h
    · obtain ⟨pre, post, rfl, hpost⟩ := ih h
      exact ⟨k :: pre, post, rfl, hpost⟩
    · obtain ⟨rfl, rfl⟩ := List.cons.inj h
      exact ⟨[], ks, rfl, rfl⟩

theorem mem_kept_or (hk : k ∈ ks) :
    k ∈ kept ks ∨ ∃ j, [k, j].Sublist ks ∧ Supersedes j k := by
  induction ks with
  | nil => cases hk
  | cons a ks ih =>
    rw [kept]
    rcases List.mem_cons.mp hk with rfl | hk
    · by_cases hlater : ∃ j ∈ ks, Supersedes j k
      · obtain ⟨j, hj, hjk⟩ := hlater
        exact .inr ⟨j, (List.singleton_sublist.mpr hj).cons_cons k, hjk⟩
      · rw [if_neg hlater]
        exact .inl List.mem_cons_self
    · rcases ih hk with hmem | ⟨j, hj, hjk⟩
      · left
        split
        · exact hmem
        · exact List.mem_cons_of_mem _ hmem
      · exact .inr ⟨j, hj.cons a, hjk⟩

end Kept

section Invariant

variable {s s' : TaskState T} {e : Event T} {ps l : List (Packet T)} {k : Packet T} {start : ℕ}

/-- Every packet carries the number of its push. -/
def Stamped (ps : List (Packet T)) : Prop :=
  ∀ (i : ℕ) (k : Packet T), ps[i]? = some k → k.nth = i

theorem Stamped.concat (h : Stamped ps) (hk : k.nth = ps.length) : Stamped (ps ++ [k]) := by
  intro i q hq
  rcases Nat.lt_or_ge i ps.length with hlt | hge
  · rw [List.getElem?_append_left hlt] at hq
    exact h i q hq
  · rw [List.getElem?_append_right hge, List.getElem?_singleton] at hq
    split at hq
    · cases hq
      omega
    · cases hq

theorem Stamped.nodup (h : Stamped ps) : ps.Nodup := by
  rw [List.nodup_iff_getElem?_ne_getElem?]
  intro i j hij hj heq
  have hi := h i ps[j] (heq.trans (List.getElem?_eq_getElem hj))
  have hj' := h j ps[j] (List.getElem?_eq_getElem hj)
  omega

/-- What is popped leaves the packets kept since. -/
theorem popFront_spec (h : Stamped ps) (hl : kept (ps.drop start) = l) (hle : start ≤ ps.length) :
    kept (ps.drop (popFront l start).2) = (popFront l start).1 ∧
      (popFront l start).2 ≤ ps.length := by
  induction l generalizing start with
  | nil => exact ⟨hl, hle⟩
  | cons k ks ih =>
    rw [popFront]
    split
    · obtain ⟨pre, post, hdrop, hpost⟩ := exists_of_kept_cons hl
      have hget : ps[start + pre.length]? = some k := by
        rw [← List.getElem?_drop, hdrop, List.getElem?_append_right le_rfl, Nat.sub_self]
        rfl
      have hnth := h _ k hget
      have hlen : start + pre.length < ps.length := (List.getElem?_eq_some_iff.mp hget).1
      refine ih ?_ (by omega)
      have hrest : ps.drop (k.nth + 1) = post := by
        rw [hnth, Nat.add_assoc, ← List.drop_drop, hdrop]
        simp
      rw [hrest, hpost]
    · exact ⟨hl, hle⟩

/-- A view is a copy of the window at its time, and what was sent before it had been pushed. -/
structure AttachView.Fits (v : AttachView T) (s : TaskState T) : Prop where
  position : v.position ≤ s.sent.length
  seen : v.seen ≤ s.published.length
  snapshot : v.snapshot = kept ((s.published.take v.seen).drop v.start)
  before : ∀ k ∈ s.sent.take v.position, k ∈ s.published.take v.seen

/-- The buffer is the window with its superseded bars left out, and the packets
sent and those between the two steps are all that were pushed. -/
structure Inv (s : TaskState T) : Prop where
  stamped : Stamped s.published
  window : kept (s.published.drop s.start) = s.replay
  start : s.start ≤ s.published.length
  complete : (s.sent ++ s.unsent).Perm s.published
  views : ∀ v ∈ s.views, v.Fits s

theorem inv_push (h : Inv s) (k : Packet T) (hk : k.nth = s.published.length) : Inv (s.push k) := by
  have hstamped := h.stamped.concat hk
  have hwindow : kept ((s.published ++ [k]).drop s.start) =
      s.replay.filter (fun q => ¬ Supersedes k q) ++ [k] := by
    rw [List.drop_append_of_le_length h.start, kept_concat, h.window]
  have hle : s.start ≤ (s.published ++ [k]).length := by
    rw [List.length_append]
    exact h.start.trans (Nat.le_add_right _ _)
  obtain ⟨hpop, hstart⟩ := popFront_spec hstamped hwindow hle
  refine ⟨hstamped, hpop, hstart, ?_, fun v hv => ?_⟩
  · change (s.sent ++ (s.unsent ++ [k])).Perm (s.published ++ [k])
    rw [← List.append_assoc]
    exact h.complete.append_right [k]
  · obtain ⟨hposition, hseen, hsnapshot, hbefore⟩ := h.views v hv
    have htake : (s.published ++ [k]).take v.seen = s.published.take v.seen :=
      List.take_append_of_le_length hseen
    refine ⟨hposition, ?_, ?_, ?_⟩
    · change v.seen ≤ (s.published ++ [k]).length
      rw [List.length_append]
      omega
    · change v.snapshot = kept (((s.published ++ [k]).take v.seen).drop v.start)
      rw [htake, hsnapshot]
    · change ∀ q ∈ s.sent.take v.position, q ∈ (s.published ++ [k]).take v.seen
      rwa [htake]

theorem inv_send (h : Inv s) {i : ℕ} (hk : s.unsent[i]? = some k) :
    Inv { s with unsent := s.unsent.eraseIdx i, sent := s.sent ++ [k] } := by
  obtain ⟨hlt, rfl⟩ := List.getElem?_eq_some_iff.mp hk
  refine ⟨h.stamped, h.window, h.start, ?_, fun v hv => ?_⟩
  · have hmove : (s.unsent[i] :: s.unsent.eraseIdx i).Perm s.unsent :=
      List.getElem_cons_eraseIdx_perm hlt
    change (s.sent ++ [s.unsent[i]] ++ s.unsent.eraseIdx i).Perm s.published
    rw [List.append_assoc, List.singleton_append]
    exact (hmove.append_left s.sent).trans h.complete
  · obtain ⟨hposition, hseen, hsnapshot, hbefore⟩ := h.views v hv
    refine ⟨?_, hseen, hsnapshot, ?_⟩
    · change v.position ≤ (s.sent ++ [s.unsent[i]]).length
      rw [List.length_append]
      omega
    · change ∀ q ∈ (s.sent ++ [s.unsent[i]]).take v.position, q ∈ s.published.take v.seen
      rwa [List.take_append_of_le_length hposition]

theorem inv_attach (h : Inv s) : Inv { s with
    views := s.views ++ [⟨s.replay, s.sent.length, s.published.length, s.start⟩] } := by
  refine ⟨h.stamped, h.window, h.start, h.complete, fun v hv => ?_⟩
  rcases List.mem_append.mp hv with hv | hv
  · obtain ⟨hposition, hseen, hsnapshot, hbefore⟩ := h.views v hv
    exact ⟨hposition, hseen, hsnapshot, hbefore⟩
  · obtain rfl := List.mem_singleton.mp hv
    refine ⟨le_rfl, le_rfl, ?_, fun k hk => ?_⟩
    · change s.replay = kept ((s.published.take s.published.length).drop s.start)
      rw [List.take_length, h.window]
    · change k ∈ s.published.take s.published.length
      rw [List.take_length]
      exact h.complete.subset (List.mem_append_left _ (List.mem_of_mem_take hk))

theorem Inv.noted (h : Inv s) (record : Record T) (noted : List (Progress T)) :
    Inv { s with record := record, noted := noted } := by
  obtain ⟨hstamped, hwindow, hstart, hcomplete, hviews⟩ := h
  refine ⟨hstamped, hwindow, hstart, hcomplete, fun v hv => ?_⟩
  obtain ⟨hposition, hseen, hsnapshot, hbefore⟩ := hviews v hv
  exact ⟨hposition, hseen, hsnapshot, hbefore⟩

theorem inv_step (h : Inv s) (hstep : step s e = some s') : Inv s' := by
  cases e with
  | note p =>
    cases hstep
    exact h.noted _ _
  | push i =>
    obtain ⟨p, -, rfl⟩ := Option.map_eq_some_iff.mp hstep
    exact inv_push (h.noted s.record _) _ rfl
  | send i =>
    obtain ⟨k, hk, rfl⟩ := Option.map_eq_some_iff.mp hstep
    exact inv_send h hk
  | attach =>
    cases hstep
    exact inv_attach h

theorem inv_init : Inv (.init : TaskState T) :=
  ⟨nofun, rfl, le_rfl, List.Perm.refl _, nofun⟩

theorem inv_reach {ok : TaskState T → Event T → Prop} (h : Reach ok s) : Inv s := by
  induction h with
  | init => exact inv_init
  | step _ _ hstep ih => exact inv_step ih hstep

end Invariant

section Feed

variable {s s' : TaskState T} {e : Event T} {v : AttachView T}

/-- Every packet pushed since the start of the window is in the copy or in the
feed, is still to be sent, or is a bar that a later one superseded before the
attach. -/
def NoGap (s : TaskState T) (v : AttachView T) : Prop :=
  ∀ k ∈ s.published.drop v.start, k ∈ v.received s ∨ k ∈ s.unsent ∨
    ∃ j, [k, j].Sublist ((s.published.take v.seen).drop v.start) ∧ Supersedes j k

/-- The packets since the start of the window, but for the bars superseded before
the attach. -/
def AttachView.expected (v : AttachView T) (s : TaskState T) : List (Packet T) :=
  kept ((s.published.take v.seen).drop v.start) ++ s.published.drop v.seen

/-- What was received or is still to be sent is what is expected, each packet once. -/
def Once (s : TaskState T) (v : AttachView T) : Prop :=
  (v.received s ++ s.unsent).Perm (v.expected s)

/-- And it comes in order. -/
def Seamless (s : TaskState T) (v : AttachView T) : Prop :=
  v.received s ++ s.unsent = v.expected s

theorem noGap_of_fits (h : Inv s) (hv : v.Fits s) : NoGap s v := by
  intro k hk
  rw [← List.take_append_drop v.seen s.published, List.drop_append, List.mem_append] at hk
  rcases hk with hk | hk
  · rcases mem_kept_or hk with hmem | hlater
    · exact .inl (List.mem_append_left _ (hv.snapshot ▸ hmem))
    · exact .inr (.inr hlater)
  · have hdrop := List.mem_of_mem_drop hk
    have hpublished := List.mem_of_mem_drop hdrop
    rcases List.mem_append.mp (h.complete.symm.subset hpublished) with hsent | hunsent
    · rw [← List.take_append_drop v.position s.sent, List.mem_append] at hsent
      rcases hsent with hearly | hfeed
      · have hnodup := h.stamped.nodup
        rw [← List.take_append_drop v.seen s.published] at hnodup
        exact absurd hdrop ((List.nodup_append.mp hnodup).2.2 k (hv.before k hearly) k · rfl)
      · exact .inl (List.mem_append_right _ hfeed)
    · exact .inr (.inl hunsent)

/-- What the `n`th view did not see and what was not sent before it are the same. -/
def SentSeen (n : ℕ) (s : TaskState T) : Prop :=
  ∀ v, s.views[n]? = some v → (s.sent.drop v.position ++ s.unsent).Perm (s.published.drop v.seen)

theorem getElem?_views_attach {n : ℕ} {new : AttachView T}
    (h : (s.views ++ [new])[n]? = some v) :
    s.views[n]? = some v ∨ s.views.length = n ∧ v = new := by
  rcases Nat.lt_or_ge n s.views.length with hlt | hge
  · rw [List.getElem?_append_left hlt] at h
    exact .inl h
  · rw [List.getElem?_append_right hge, List.getElem?_singleton] at h
    split at h
    · cases h
      exact .inr ⟨by omega, rfl⟩
    · cases h

theorem sentSeen_step {n : ℕ} (hinv : Inv s) (h : SentSeen n s) (hok : AttachesClear n s e)
    (hstep : step s e = some s') : SentSeen n s' := by
  cases e with
  | note p =>
    cases hstep
    exact h
  | push i =>
    obtain ⟨p, -, rfl⟩ := Option.map_eq_some_iff.mp hstep
    intro v hv
    have hfits := hinv.views v (List.mem_of_getElem? hv)
    simp only [TaskState.push]
    rw [List.drop_append_of_le_length hfits.seen, ← List.append_assoc]
    exact (h v hv).append_right _
  | send i =>
    obtain ⟨k, hk, rfl⟩ := Option.map_eq_some_iff.mp hstep
    obtain ⟨hlt, rfl⟩ := List.getElem?_eq_some_iff.mp hk
    intro v hv
    have hfits := hinv.views v (List.mem_of_getElem? hv)
    have hmove : (s.unsent[i] :: s.unsent.eraseIdx i).Perm s.unsent :=
      List.getElem_cons_eraseIdx_perm hlt
    simp only
    rw [List.drop_append_of_le_length hfits.position, List.append_assoc, List.singleton_append]
    exact (hmove.append_left _).trans (h v hv)
  | attach =>
    cases hstep
    intro v hv
    rcases getElem?_views_attach hv with hv | ⟨hn, rfl⟩
    · exact h v hv
    · simp [hok hn]

/-- Past the `n`th attach call at most one packet is between its push and its
send, and the sends follow the pushes. -/
def InStep (n : ℕ) (s : TaskState T) : Prop :=
  ∀ v, s.views[n]? = some v →
    s.sent.drop v.position ++ s.unsent = s.published.drop v.seen ∧ s.unsent.length ≤ 1

theorem inStep_step {n : ℕ} (hinv : Inv s) (h : InStep n s) (hok : PublishesClear n s e)
    (hstep : step s e = some s') : InStep n s' := by
  cases e with
  | note p =>
    cases hstep
    exact h
  | push i =>
    obtain ⟨p, -, rfl⟩ := Option.map_eq_some_iff.mp hstep
    intro v hv
    have hfits := hinv.views v (List.mem_of_getElem? hv)
    have hnone : s.unsent = [] := hok (List.getElem?_eq_some_iff.mp hv).1
    obtain ⟨hdrop, -⟩ := h v hv
    simp only [TaskState.push]
    rw [List.drop_append_of_le_length hfits.seen, ← List.append_assoc, hdrop, hnone]
    exact ⟨rfl, le_rfl⟩
  | send i =>
    obtain ⟨k, hk, rfl⟩ := Option.map_eq_some_iff.mp hstep
    intro v hv
    have hfits := hinv.views v (List.mem_of_getElem? hv)
    obtain ⟨hdrop, hone⟩ := h v hv
    have hpos : 0 < s.unsent.length := Nat.zero_lt_of_lt (List.getElem?_eq_some_iff.mp hk).1
    obtain ⟨q, hq⟩ := List.length_eq_one_iff.mp (Nat.le_antisymm hone hpos)
    rw [hq, List.getElem?_singleton] at hk
    split at hk
    · next hi =>
      cases hk
      subst hi
      simp only
      rw [List.drop_append_of_le_length hfits.position, ← hdrop, hq]
      exact ⟨by simp, by simp⟩
    · cases hk
  | attach =>
    cases hstep
    intro v hv
    rcases getElem?_views_attach hv with hv | ⟨hn, rfl⟩
    · exact h v hv
    · simp [hok hn]

theorem once_of_reach {n : ℕ} (h : Reach (AttachesClear n) s) (hv : s.views[n]? = some v) :
    Once s v := by
  have hsent : SentSeen n s := by
    clear hv
    induction h with
    | init => exact nofun
    | step hreach hok hstep ih => exact sentSeen_step (inv_reach hreach) ih hok hstep
  have hfits := (inv_reach h).views v (List.mem_of_getElem? hv)
  rw [Once, AttachView.received, AttachView.expected, hfits.snapshot, List.append_assoc]
  exact (hsent v hv).append_left _

theorem seamless_of_reach {n : ℕ} (h : Reach (PublishesClear n) s) (hv : s.views[n]? = some v) :
    Seamless s v := by
  have hinStep : InStep n s := by
    clear hv
    induction h with
    | init => exact nofun
    | step hreach hok hstep ih => exact inStep_step (inv_reach hreach) ih hok hstep
  have hfits := (inv_reach h).views v (List.mem_of_getElem? hv)
  rw [Seamless, AttachView.received, AttachView.expected, hfits.snapshot, List.append_assoc,
    (hinStep v hv).1]

theorem Reach.any {ok : TaskState T → Event T → Prop} (h : Reach ok s) : Reach Any s := by
  induction h with
  | init => exact .init
  | step _ _ hstep ih => exact ih.step trivial hstep

/-- A publish call that nobody interrupts. -/
def TaskState.publish (s : TaskState T) (p : Progress T) : TaskState T :=
  let k : Packet T := ⟨s.published.length, p⟩
  { TaskState.push { s with record := s.record.note p } k with
    unsent := s.unsent
    sent := s.sent ++ [k] }

theorem Reach.publish {n : ℕ} (h : Reach (PublishesClear n) s) (hnoted : s.noted = [])
    (hunsent : s.unsent = []) (p : Progress T) :
    Reach (PublishesClear n) (s.publish p) ∧ (s.publish p).noted = [] ∧
      (s.publish p).unsent = [] := by
  refine ⟨?_, hnoted, hunsent⟩
  have hnote := h.step (e := .note p) trivial rfl
  have hpush := hnote.step (e := .push 0) (fun _ => hunsent) (by rw [Tasks.step, hnoted]; rfl)
  refine hpush.step (e := .send 0) trivial ?_
  simp [Tasks.step, TaskState.push, TaskState.publish, hunsent, hnoted]

/-- In every interleaving there is no gap; without the attach call between a
push and its send everything comes once, and without overlapping publish calls
after it in order. -/
theorem attach_seamless (s : TaskState T) (h : Reach Any s) :
    (∀ v ∈ s.views, NoGap s v) ∧ ∀ n v, s.views[n]? = some v →
      (Reach (AttachesClear n) s → Once s v) ∧ (Reach (PublishesClear n) s → Seamless s v) := by
  have hinv := inv_reach h
  refine ⟨fun v hv => noGap_of_fits hinv (hinv.views v hv), fun n v hv => ⟨?_, ?_⟩⟩
  · exact fun hclear => once_of_reach hclear hv
  · exact fun hclear => seamless_of_reach hclear hv

theorem attach_seamless_between :
    ∃ s : TaskState Unit, s.views = [⟨[⟨0, .notice "a"⟩], 1, 1, 0⟩] ∧
      s.sent = [⟨0, .notice "a"⟩, ⟨1, .notice "b"⟩] ∧
      Seamless s ⟨[⟨0, .notice "a"⟩], 1, 1, 0⟩ := by
  obtain ⟨hfirst, hnoted, hunsent⟩ :=
    (Reach.init : Reach (PublishesClear 0) (.init : TaskState Unit)).publish rfl rfl (.notice "a")
  have hattach := hfirst.step (e := .attach) (fun _ => hunsent) rfl
  obtain ⟨hreach, -⟩ := hattach.publish hnoted hunsent (.notice "b")
  exact ⟨_, rfl, rfl, ((attach_seamless _ hreach.any).2 0 _ rfl).2 hreach⟩

/-- A bar that a later one superseded is missing from the copy, though it came
after the notice that the window starts with. -/
theorem superseded_bar_missing :
    ∃ s : TaskState Unit, Reach (PublishesClear 0) s ∧ s.unsent = [] ∧ ∃ v ∈ s.views,
      v.start = 0 ∧ v.received s = [⟨0, .notice "a"⟩, ⟨2, .progress "bytes" 2 none "bytes"⟩] ∧
      v.received s ≠ s.published.drop v.start := by
  obtain ⟨hnotice, hnoted, hunsent⟩ :=
    (Reach.init : Reach (PublishesClear 0) (.init : TaskState Unit)).publish rfl rfl (.notice "a")
  obtain ⟨hbar, hnoted, hunsent⟩ :=
    hnotice.publish hnoted hunsent (.progress "bytes" 1 none "bytes")
  obtain ⟨hlater, hnoted, hunsent⟩ := hbar.publish hnoted hunsent (.progress "bytes" 2 none "bytes")
  have hattach := hlater.step (e := .attach) (fun _ => hunsent) rfl
  refine ⟨_, hattach, rfl, _, List.mem_singleton_self _, rfl, rfl, ?_⟩
  decide

end Feed

end Walgit.Tasks
