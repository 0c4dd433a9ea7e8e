import Walgit.CiViews

/-!
# Settled runs

Claims expire as time passes. A verdict stays as long as its claim leads, and
when no claim stands any more it stays if it is the earliest result; a later
claim that is still live takes the run over.
-/

namespace Walgit.Ci

open Collab

def RunView.effective (v : RunView) : Option CiResult :=
  v.attempts.getLast?.bind AttemptView.effective

/-- A run that is done now is done later, with the same effective result. -/
def StaysSettled (principals : Principals) (id : String) (entries : List EntryRef)
    (now now' : ℤ) : Prop :=
  ∀ v, runView principals id entries now = some v → v.state = .done →
    ∃ v', runView principals id entries now' = some v' ∧ v'.state = .done ∧
      v'.conclusion = v.conclusion ∧ v'.effective = v.effective

/-- An answered claim that leads in the latest attempt now still stands later; or no claim stands
later, and an answer to it is the earliest of all results of the attempt. -/
def VerdictOutlives (principals : Principals) (id : String) (entries : List EntryRef)
    (now now' : ℤ) : Prop :=
  ∀ b, (bucketsOf principals id entries).getLast? = some b →
    ∀ c, Leads b now c → (∃ x ∈ b.results, x.claim = c.oid) →
      c.live now' = true ∨
        (NoneStands b now' ∧ ∃ x, Earliest b (fun _ => True) x ∧ x.claim = c.oid)

section Latest

variable {principals : Principals} {id : String} {entries : List EntryRef} {b : Bucket}
  {v : RunView} {now : ℤ}

theorem runView_latest (hb : (bucketsOf principals id entries).getLast? = some b)
    (h : runView principals id entries now = some v) :
    v.attempts.getLast? = some (b.view now) ∧ v.latestAttempt = b.attempt ∧
      v.state = (b.view now).state ∧
      v.conclusion = (b.view now).effective.map CiResult.conclusion := by
  have hlast : ((bucketsOf principals id entries).map fun b => b.view now).getLast? =
      some (b.view now) := by
    rw [List.getLast?_map, hb]
    rfl
  unfold runView at h
  dsimp only at h
  split at h
  · cases h
  · cases h
    simp only [hlast, Option.map_some, Option.getD_some, Option.bind_some, true_and, and_true]
    rfl

theorem runView_empty (hb : (bucketsOf principals id entries).getLast? = none)
    (h : runView principals id entries now = some v) :
    v.attempts.getLast? = none ∧ v.latestAttempt = 1 ∧ v.state = .pending := by
  have hlast : ((bucketsOf principals id entries).map fun b => b.view now).getLast? = none := by
    rw [List.getLast?_map, hb]
    rfl
  unfold runView at h
  dsimp only at h
  split at h
  · cases h
  · cases h
    exact ⟨hlast, by rw [hlast]; rfl, by rw [hlast]; rfl⟩

theorem runView_isSome (h : ∃ r ∈ entries, r.entry.id = id) :
    ∃ v, runView principals id entries now = some v := by
  obtain ⟨r, hr, hid⟩ := h
  unfold runView
  dsimp only
  split
  · rename_i hnil
    rw [List.isEmpty_iff, List.filter_eq_nil_iff] at hnil
    exact absurd (decide_eq_true hid) (hnil r hr)
  · exact ⟨_, rfl⟩

theorem runView_exists (now : ℤ) (hb : (bucketsOf principals id entries).getLast? = some b) :
    ∃ v, runView principals id entries now = some v := by
  have hne : parsedOf principals id entries ≠ [] := fun hnil => by
    rw [bucketsOf_eq_nil.mpr hnil] at hb
    cases hb
  obtain ⟨e, he⟩ := List.exists_mem_of_ne_nil _ hne
  obtain ⟨r, hr, hid, -⟩ := mem_parsedOf.mp he
  exact runView_isSome ⟨r, hr, hid⟩

end Latest

section Buckets

variable {b : Bucket} {c : CiClaim} {x : CiResult} {now now' : ℤ}

theorem leads_later (h : now ≤ now') (hc : Leads b now c) (hl : c.live now' = true) :
    Leads b now' c := by
  refine ⟨hc.mem, ?_, fun c' hc' hs => hc.least c' hc' (standing_mono h hs)⟩
  exact Bool.and_eq_true_iff.mpr ⟨hl, (Bool.and_eq_true_iff.mp hc.stands).2⟩

theorem noneStands_later (h : now ≤ now') (hn : NoneStands b now) : NoneStands b now' := by
  intro c hc
  have hnow := hn c hc
  by_contra hs
  rw [standing_mono h (by simpa using hs)] at hnow
  cases hnow

theorem counts_leader (hb : b.Addressed) (hc : Leads b now c) :
    Counts b now x ↔ x.claim = c.oid := by
  simp [Counts, (winner_eq_some hb).mpr hc]

theorem counts_all (hn : NoneStands b now) : Counts b now x := by
  intro w hw
  rw [winner_eq_none.mpr hn] at hw
  cases hw

theorem exists_leader (now : ℤ) (hb : b.Addressed) : NoneStands b now ∨ ∃ c, Leads b now c := by
  cases hw : (b.view now).winner with
  | none => exact .inl (winner_eq_none.mp hw)
  | some c => exact .inr ⟨c, (winner_eq_some hb).mp hw⟩

theorem earliest_unique (hb : b.Addressed) {p q : CiResult → Prop} {y : CiResult}
    (hx : Earliest b p x) (hy : Earliest b q y) (hxy : q x) (hyx : p y) : x = y := by
  have hkey : x.key = y.key := le_antisymm (hx.least y hy.mem hyx) (hy.least x hx.mem hxy)
  exact hb.resultKeys (List.Subset.refl _) hx.mem hy.mem hkey

theorem bucket_stays (hb : b.Addressed) (h : now ≤ now')
    (houtlives : ∀ c, Leads b now c → (∃ x ∈ b.results, x.claim = c.oid) →
      c.live now' = true ∨
        (NoneStands b now' ∧ ∃ x, Earliest b (fun _ => True) x ∧ x.claim = c.oid))
    (heff : (b.view now).effective = some x) : (b.view now').effective = some x := by
  have hx := (effective_eq_some hb).mp heff
  rw [effective_eq_some hb]
  rcases exists_leader now hb with hnone | ⟨c, hc⟩
  · have hlater := noneStands_later h hnone
    exact ⟨hx.mem, counts_all hlater, fun x' hx' _ => hx.least x' hx' (counts_all hnone)⟩
  · have hxc : x.claim = c.oid := (counts_leader hb hc).mp hx.meets
    rcases houtlives c hc ⟨x, hx.mem, hxc⟩ with hl | ⟨hnone, y, hy, hyc⟩
    · have hc' := leads_later h hc hl
      refine ⟨hx.mem, (counts_leader hb hc').mpr hxc, fun x' hx' hp => hx.least x' hx' ?_⟩
      exact (counts_leader hb hc).mpr ((counts_leader hb hc').mp hp)
    · have hyx : y = x :=
        earliest_unique hb hy hx ((counts_leader hb hc).mpr hyc) trivial
      subst hyx
      exact ⟨hx.mem, counts_all hnone, fun x' hx' _ => hy.least x' hx' trivial⟩

theorem bucket_outlives (hb : b.Addressed) (hc : Leads b now c)
    (hx : (b.view now).effective = some x) (hx' : (b.view now').effective = some x) :
    c.live now' = true ∨
      (NoneStands b now' ∧ ∃ x, Earliest b (fun _ => True) x ∧ x.claim = c.oid) := by
  have hxc : x.claim = c.oid := (counts_leader hb hc).mp ((effective_eq_some hb).mp hx).meets
  have hlater := (effective_eq_some hb).mp hx'
  rcases exists_leader now' hb with hnone | ⟨w, hw⟩
  · exact .inr ⟨hnone, x, ⟨hlater.mem, trivial, fun y hy _ =>
      hlater.least y hy (counts_all hnone)⟩, hxc⟩
  · -- the leader of later has the same answer, so it is the same claim
    have hxw : x.claim = w.oid := (counts_leader hb hw).mp hlater.meets
    obtain rfl : w = c := hb.claims w hw.mem c hc.mem (hxw.symm.trans hxc)
    exact .inl (Bool.and_eq_true_iff.mp hw.stands).1

theorem answered_done (hb : b.Addressed) (hc : Leads b now c)
    (ha : ∃ x ∈ b.results, x.claim = c.oid) :
    (b.view now).state = .done ∧ ∃ x, (b.view now).effective = some x := by
  obtain ⟨y, hy, hyc⟩ := ha
  cases heff : (b.view now).effective with
  | none =>
    exfalso
    rw [view_effective, (winner_eq_some hb).mpr hc, List.argmin_eq_none,
      List.filter_eq_nil_iff] at heff
    exact heff y hy (decide_eq_true hyc)
  | some x =>
    have hx := (effective_eq_some hb).mp heff
    have herr := answer_not_error hc.stands hx.mem ((counts_leader hb hc).mp hx.meets)
    exact ⟨state_done.mpr ⟨x, heff, herr⟩, x, rfl⟩

end Buckets

theorem settled_stays_iff (principals : Principals) (id : String) (log : EntryLog) {now now' : ℤ}
    (h : now ≤ now') : StaysSettled principals id log.entries now now' ↔
      VerdictOutlives principals id log.entries now now' := by
  constructor
  · intro hstays b hlast c hc ha
    have hb : b.Addressed := (latest_bucket hlast).1.addressed
    obtain ⟨v, hv⟩ := runView_exists now hlast
    obtain ⟨hatt, -, hstate, -⟩ := runView_latest hlast hv
    obtain ⟨hdone, x, hx⟩ := answered_done hb hc ha
    obtain ⟨v', hv', -, -, heff⟩ := hstays v hv (hstate.trans hdone)
    obtain ⟨hatt', -, -, -⟩ := runView_latest hlast hv'
    rw [RunView.effective, RunView.effective, hatt, hatt', Option.bind_some, Option.bind_some,
      hx] at heff
    exact bucket_outlives hb hc hx heff
  · intro houtlives v hv hdone
    cases hlast : (bucketsOf principals id log.entries).getLast? with
    | none =>
      rw [(runView_empty hlast hv).2.2] at hdone
      cases hdone
    | some b =>
      have hb : b.Addressed := (latest_bucket hlast).1.addressed
      obtain ⟨hatt, -, hstate, hconc⟩ := runView_latest hlast hv
      rw [hstate] at hdone
      obtain ⟨x, hx, herr⟩ := state_done.mp hdone
      have hx' := bucket_stays hb h (houtlives b hlast) hx
      obtain ⟨v', hv'⟩ := runView_exists now' hlast
      obtain ⟨hatt', -, hstate', hconc'⟩ := runView_latest hlast hv'
      refine ⟨v', hv', hstate'.trans (state_done.mpr ⟨x, hx', herr⟩), ?_, ?_⟩
      · rw [hconc, hconc', hx, hx']
      · rw [RunView.effective, RunView.effective, hatt, hatt', Option.bind_some, Option.bind_some,
          hx, hx']

section Examples

/-- Everyone's key is known, and every signature checks. -/
def trusting : Principals := ⟨fun _ => some "key", fun _ _ => true⟩

def ciEntry (oid kind actor : String) (ts : ℤ) (body : List (String × Json)) : EntryRef :=
  ⟨oid, actor, ⟨1, kind, "ci-1", actor, ts, "", none, .object body, ""⟩⟩

def claimEntry (oid actor : String) (ts : ℤ) (ttl attempt : ℤ) : EntryRef :=
  ciEntry oid "ci_claim" actor ts [("attempt", .int attempt), ("commit", .string "c0"),
    ("ref", .string "refs/heads/main"), ("task", .string "test"), ("ttl", .int ttl)]

def resultEntry (oid actor : String) (ts : ℤ) (claim conclusion : String) (attempt : ℤ) :
    EntryRef :=
  ciEntry oid "ci_result" actor ts [("attempt", .int attempt), ("claim", .string claim),
    ("commit", .string "c0"), ("conclusion", .string conclusion),
    ("ref", .string "refs/heads/main"), ("task", .string "test")]

/-- A failed result of attempt 2 that names no claim of it. -/
def orphanError : EntrySet where
  entries := [resultEntry "r1" "ann" 5 "k1" "error" 2]
  nodup := by decide

def answeredRun : EntrySet where
  entries := [claimEntry "k1" "ann" 0 10 1, resultEntry "r1" "ann" 5 "k1" "success" 1]
  nodup := by decide

theorem settled_stays_answered :
    (runView trusting "ci-1" answeredRun.entries 5).map RunView.state = some .done ∧
    StaysSettled trusting "ci-1" answeredRun.entries 5 100 := by
  refine ⟨by decide +kernel,
    (settled_stays_iff trusting "ci-1" answeredRun.log (by decide)).mpr ?_⟩
  intro b hb c hc _
  have hlast : (bucketsOf trusting "ci-1" answeredRun.entries).getLast? = some
      ⟨1, [⟨"k1", "ann", 0, "test", "refs/heads/main", "c0", 10, 1⟩],
        [⟨"r1", "ann", 5, "test", "refs/heads/main", "c0", 1, "k1", .success, none, none, "", "",
          false, []⟩]⟩ := by decide +kernel
  obtain rfl := Option.some.inj (hb.symm.trans hlast)
  obtain rfl := List.mem_singleton.mp hc.mem
  refine .inr ⟨by unfold NoneStands; decide, _, ⟨List.mem_singleton_self _, trivial, ?_⟩, rfl⟩
  intro x hx _
  rw [List.mem_singleton.mp hx]

/-- A second claim, which outlives the first one and its verdict. -/
def overtakenRun : EntrySet where
  entries := [claimEntry "k1" "ann" 0 10 1, claimEntry "k2" "bob" 1 1000 1,
    resultEntry "r1" "ann" 5 "k1" "success" 1]
  nodup := by decide

theorem settled_run_reopens : ¬ (∀ principals id (log : EntryLog) now now', now ≤ now' →
      StaysSettled principals id log.entries now now') ∧
    (runView trusting "ci-1" overtakenRun.entries 5).map RunView.state = some .done ∧
    (runView trusting "ci-1" overtakenRun.entries 100).map RunView.state = some .claimed := by
  have hnow : (runView trusting "ci-1" overtakenRun.entries 5).map RunView.state =
      some .done := by decide +kernel
  have hlater : (runView trusting "ci-1" overtakenRun.entries 100).map RunView.state =
      some .claimed := by decide +kernel
  refine ⟨fun hall => ?_, hnow, hlater⟩
  obtain ⟨v, hv, hdone⟩ := Option.map_eq_some_iff.mp hnow
  obtain ⟨v', hv', hdone', -⟩ :=
    hall trusting "ci-1" overtakenRun.log 5 100 (by decide) v hv hdone
  obtain ⟨w, hw, hclaimed⟩ := Option.map_eq_some_iff.mp hlater
  obtain rfl := Option.some.inj (hv'.symm.trans hw)
  rw [hdone'] at hclaimed
  cases hclaimed

end Examples

end Walgit.Ci
