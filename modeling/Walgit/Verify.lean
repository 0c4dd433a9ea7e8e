import Walgit.Publish

/-!
# What verification of a batch establishes

`CasOk s es` says that replaying `es` from `s` meets every update's old value.
A batch verified against the very state it will be appended to has it, as long
as no transaction updates one ref twice (both are compared with the value
before the transaction) or `HEAD` itself (compared through its target).
-/

namespace Walgit

open Replay

def LogEntry.updates (e : LogEntry) : List RefUpdate := e.refTxn.elim [] RefTransaction.updates

/-- An object for `HEAD`, or a symbolic target for another ref. -/
def LogEntry.setsHead (e : LogEntry) : Prop :=
  ∃ u ∈ e.updates, u.isSymbolic ≠ decide (u.name = "HEAD")

def LogEntry.repeatsRef (e : LogEntry) : Prop :=
  ¬ ((e.updates.filter fun u => !u.isSymbolic).map RefUpdate.name).Nodup

/-- The update's old value is the value of its ref, a null oid standing for no ref. -/
def OldMatches (s : RefState) (u : RefUpdate) : Prop :=
  if isNullOid u.oldOid then s (.ref u.name) = none else s (.ref u.name) = some u.oldOid

def CasOkUpdates (s : RefState) : List RefUpdate → Prop
  | [] => True
  | u :: us => (u.isSymbolic = false → OldMatches s u) ∧ CasOkUpdates (replay s u.writes) us

def CasOk (s : RefState) : List LogEntry → Prop
  | [] => True
  | e :: es => CasOkUpdates s e.updates ∧
      CasOk (replay s e.writes) es

theorem casOk_append {s : RefState} {es es' : List LogEntry} :
    CasOk s (es ++ es') ↔ CasOk s es ∧ CasOk (replayEntries LogEntry.writes s es) es' := by
  induction es generalizing s with
  | nil => simp [CasOk, replayEntries, replay]
  | cons e es ih =>
    simp only [List.cons_append, CasOk, ih, and_assoc, replayEntries, List.flatMap_cons,
      replay_append]

theorem casOkUpdates_append {s : RefState} {us us' : List RefUpdate} :
    CasOkUpdates s (us ++ us') ↔
      CasOkUpdates s us ∧ CasOkUpdates (replay s (us.flatMap RefUpdate.writes)) us' := by
  induction us generalizing s with
  | nil => simp [CasOkUpdates, replay]
  | cons u us ih =>
    simp only [List.cons_append, CasOkUpdates, ih, and_assoc, List.flatMap_cons, replay_append]

def NoNull (s : RefState) : Prop := ∀ name oid, s (.ref name) = some oid → isNullOid oid = false

theorem noNull_set {s : RefState} {u : RefUpdate} (h : NoNull s) : NoNull (replay s u.writes) := by
  intro name oid hs
  unfold RefUpdate.writes at hs
  split at hs
  · split at hs
    · exact h name oid (by simpa [replay, assign] using hs)
    · exact h name oid hs
  · simp only [replay, assign, RefKey.ref.injEq] at hs
    split at hs
    · unfold RefUpdate.value at hs
      split at hs
      · cases hs
      · cases hs
        simpa using ‹¬ isNullOid u.newOid = true›
    · exact h name oid hs

theorem noNull_replay {s : RefState} {us : List RefUpdate} (h : NoNull s) :
    NoNull (replay s (us.flatMap RefUpdate.writes)) := by
  induction us generalizing s with
  | nil => exact h
  | cons u us ih =>
    rw [List.flatMap_cons, replay_append]
    exact ih (noNull_set h)

def Shows (v : RefView) (s : RefState) : Prop := ∀ name, name ≠ "HEAD" → v.get name = s (.ref name)

theorem RefView.get_eq_find {v : RefView} {name : String} (h : name ≠ "HEAD") :
    v.get name = v.find name := by
  unfold RefView.get RefView.find
  cases v.overlay.lookup name <;> simp [h]

theorem RefView.find_cons {base : RefState} {overlay : List (String × Option String)}
    {n name : String} {x : Option String} :
    (RefView.mk base ((n, x) :: overlay)).find name =
      if name = n then x else (RefView.mk base overlay).find name := by
  unfold RefView.find
  by_cases h : name = n
  · simp [h]
  · have hb : (name == n) = false := by simpa using h
    simp [List.lookup_cons, hb, h]

theorem shows_base (s : RefState) : Shows ⟨s, []⟩ s := by
  intro name hn
  simp [RefView.get, hn]

theorem oldMatches_of_verifyUpdate {v : RefView} {s : RefState} {u : RefUpdate} (hs : Shows v s)
    (hn : NoNull s) (hsym : u.isSymbolic = false) (hname : u.name ≠ "HEAD")
    (h : isOk (verifyUpdate v u) = true) : OldMatches s u := by
  unfold verifyUpdate at h
  rw [hsym, hs u.name hname] at h
  unfold OldMatches
  cases hval : s (.ref u.name) with
  | none =>
    by_cases hnull : isNullOid u.oldOid = true
    · simp [hnull]
    · -- an absent ref reads as the empty oid, which is null
      simp only [hval, Option.getD_none, hnull, Bool.false_eq_true, if_false] at h
      split at h
      · rename_i he
        rw [← he] at hnull
        exact absurd rfl hnull
      · cases h
  | some oid =>
    have hoid := hn u.name oid hval
    have hne : oid ≠ "" := by
      rintro rfl
      cases hoid
    by_cases hnull : isNullOid u.oldOid = true
    · simp [hval, hnull, hne, isOk] at h
    · simp only [hval, Option.getD_some, hnull, Bool.false_eq_true, if_false] at h ⊢
      split at h
      · rename_i he
        rw [he]
      · cases h

theorem casOkUpdates_of_matches {s s₀ : RefState} {us : List RefUpdate}
    (hnd : ((us.filter fun u => !u.isSymbolic).map RefUpdate.name).Nodup)
    (hm : ∀ u ∈ us, u.isSymbolic = false → OldMatches s₀ u)
    (hs : ∀ u ∈ us, u.isSymbolic = false → s (.ref u.name) = s₀ (.ref u.name)) :
    CasOkUpdates s us := by
  induction us generalizing s with
  | nil => trivial
  | cons u us ih =>
    refine ⟨fun hsym => ?_, ih ?_ (fun x hx => hm x (List.mem_cons_of_mem u hx)) ?_⟩
    · have := hm u List.mem_cons_self hsym
      unfold OldMatches at this ⊢
      rwa [hs u List.mem_cons_self hsym]
    · refine List.Sublist.nodup (List.Sublist.map _ ?_) hnd
      exact (List.sublist_cons_self u us).filter _
    · intro x hx hxs
      rw [← hs x (List.mem_cons_of_mem u hx) hxs]
      refine replay_untouched fun w hw => ?_
      unfold RefUpdate.writes at hw
      split at hw
      · split at hw
        · rw [List.mem_singleton.mp hw]
          simp
        · cases hw
      · -- another update of the same name would repeat it
        rename_i hsym
        rw [List.mem_singleton.mp hw]
        intro heq
        have heq := RefKey.ref.inj heq
        have hsym : u.isSymbolic = false := by simpa using hsym
        simp only [hsym, Bool.not_false, List.filter_cons_of_pos, List.map_cons,
          List.nodup_cons, List.mem_map, List.mem_filter] at hnd
        exact hnd.1 ⟨x, ⟨hx, by simp [hxs]⟩, heq.symm⟩

theorem shows_applyUpdate {v : RefView} {s : RefState} {u : RefUpdate} (hs : Shows v s)
    (hu : u.isSymbolic = decide (u.name = "HEAD")) :
    Shows (applyUpdateToMap v u) (replay s u.writes) := by
  intro name hname
  have hv := hs name hname
  rw [RefView.get_eq_find hname] at hv ⊢
  unfold applyUpdateToMap RefUpdate.writes
  by_cases hH : u.name = "HEAD"
  · -- a new target of `HEAD` shows at no other name
    have hsym : u.isSymbolic = true := by simpa [hH] using hu
    rw [if_pos hsym, if_pos hsym, if_pos hH, RefView.find_cons, if_neg (hH ▸ hname)]
    simpa [replay, assign] using hv
  · have hsym : ¬ u.isSymbolic = true := by simpa [hH] using hu
    rw [if_neg hsym, if_neg hsym, RefView.find_cons]
    by_cases hn : name = u.name
    · simp [hn, replay, assign]
    · simpa [hn, replay, assign] using hv

theorem shows_applyTxnToMap {v : RefView} {s : RefState} {us : List RefUpdate} (hs : Shows v s)
    (hh : ∀ u ∈ us, u.isSymbolic = decide (u.name = "HEAD")) :
    Shows (us.foldl applyUpdateToMap v) (replay s (us.flatMap RefUpdate.writes)) := by
  induction us generalizing v s with
  | nil => exact hs
  | cons u us ih =>
    rw [List.flatMap_cons, replay_append]
    exact ih (shows_applyUpdate hs (hh u List.mem_cons_self)) fun x hx =>
      hh x (List.mem_cons_of_mem u hx)

theorem validRequests_cons {req : PublishRequest} {reqs : List PublishRequest} {r : Verified}
    {rs : List Verified} : validRequests (req :: reqs) (r :: rs) =
      if r.valid then req :: validRequests reqs rs else validRequests reqs rs := by
  unfold validRequests
  cases h : r.valid <;> simp [h]

theorem verifyRequest_valid {v : RefView} {floor : Option ℕ} {req : PublishRequest}
    (h : (verifyRequest v floor req).1.valid = true) :
    (∀ u ∈ req.txn.updates, isOk (verifyUpdate v u) = true) ∧
      (verifyRequest v floor req).2.1 = applyTxnToMap req.txn v := by
  unfold verifyRequest at h ⊢
  refine ⟨fun u hu => ?_, if_pos h⟩
  simp only [allOk, List.all_eq_true] at h
  split at h
  · -- an early request has every update rejected
    have hmem : (u.name, verifyUpdate v u) ∈ verifyTxn req.txn v := List.mem_map_of_mem hu
    exact absurd (h _ (List.mem_map_of_mem hmem)) (by simp [isOk])
  · exact h (u.name, verifyUpdate v u) (List.mem_map_of_mem hu)

theorem verifyRequest_invalid {v : RefView} {floor : Option ℕ} {req : PublishRequest}
    (h : ¬ (verifyRequest v floor req).1.valid = true) : (verifyRequest v floor req).2.1 = v :=
  if_neg h

/-- The entries of the requests that passed, whatever their numbers and times. -/
theorem casOk_of_verifyBatch {v : RefView} {s : RefState} {batch : List PublishRequest}
    {floor : Option ℕ} {now first : ℕ} (hs : Shows v s) (hn : NoNull s)
    (hh : ∀ e ∈ buildEntries now first (validRequests batch (verifyBatch v floor batch)),
      ¬ e.setsHead ∧ ¬ e.repeatsRef) :
    CasOk s (buildEntries now first (validRequests batch (verifyBatch v floor batch))) := by
  induction batch generalizing v s floor first with
  | nil => trivial
  | cons req reqs ih =>
    rw [verifyBatch, validRequests_cons] at hh ⊢
    by_cases hv : (verifyRequest v floor req).1.valid = true
    · rw [if_pos hv] at hh ⊢
      obtain ⟨hall, hview⟩ := verifyRequest_valid hv
      obtain ⟨hset, hrep⟩ := hh _ List.mem_cons_self
      have hhead : ∀ u ∈ req.txn.updates, u.isSymbolic = decide (u.name = "HEAD") := by
        intro u hu
        by_contra hne
        exact hset ⟨u, hu, hne⟩
      have hnot : ∀ u ∈ req.txn.updates, u.isSymbolic = false → u.name ≠ "HEAD" := by
        intro u hu hsym hname
        simp [hhead u hu, hname] at hsym
      refine ⟨?_, ih ?_ (noNull_replay hn) fun e he => hh e (List.mem_cons_of_mem _ he)⟩
      · have hold : ∀ u ∈ req.txn.updates, u.isSymbolic = false → OldMatches s u := fun u hu hsym =>
          oldMatches_of_verifyUpdate hs hn hsym (hnot u hu hsym) (hall u hu)
        exact casOkUpdates_of_matches (not_not.mp hrep) hold fun _ _ _ => rfl
      · rw [hview]
        exact shows_applyTxnToMap hs hhead
    · rw [if_neg hv] at hh ⊢
      rw [verifyRequest_invalid hv] at hh ⊢
      exact ih hs hn hh

end Walgit
