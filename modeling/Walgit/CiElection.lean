import Walgit.CiSettled

/-!
# Claiming a run

A runner that is told to claim an attempt publishes its claim and looks again.
The claim elects one runner when the attempt it was told is the latest one, and
no result of that attempt names the new claim already.
-/

namespace Walgit.Ci

open Collab

/-- What a runner does with the view it has read, if there is one. -/
def nextDecision (run : Option RunView) (actor : String) (maxAttempts : ℕ) : Decision :=
  match run with
  | some view => decideRun view actor maxAttempts
  | none => .claim 1

/-- Attempt `n` is the latest and claimed; its leader is to resume, everyone else to stand down. -/
def Elected (principals : Principals) (id : String) (entries : List EntryRef) (now : ℤ)
    (n : ℕ) : Prop :=
  ∃ v, runView principals id entries now = some v ∧ v.latestAttempt = n ∧ v.state = .claimed ∧
    ∃ b w, (bucketsOf principals id entries).getLast? = some b ∧ b.attempt = n ∧
      v.attempts.getLast?.bind AttemptView.winner = some w ∧ Leads b now w ∧
      ∀ actor maxAttempts, decideRun v actor maxAttempts =
        if actor = w.actor then .resume w.oid n else .standDown w.actor

/-- No verified entry of the run has a greater attempt than `n`, and no verified result of attempt
`n` names the claim. -/
def ClaimCounts (principals : Principals) (id : String) (entries : List EntryRef) (n : ℕ)
    (claim : String) : Prop :=
  (∀ e ∈ parsedOf principals id entries, e.attempt ≤ n) ∧
    ∀ x, .result x ∈ parsedOf principals id entries → x.attempt = n → x.claim ≠ claim

section Claiming

variable {principals : Principals} {id : String} {log : EntryLog} {k : EntryRef} {c kc : CiClaim}
  {b b' : Bucket} {v : RunView} {now : ℤ} {actor : String} {maxAttempts n : ℕ}

theorem decideRun_claim (hlast : v.attempts.getLast? = some (b.view now)) (hb : b.Addressed)
    (hattempts : ∀ x ∈ b.results, x.attempt = b.attempt)
    (h : decideRun v actor maxAttempts = .claim n) :
    n = b.attempt + 1 ∨ NoneStands b now ∧ (n = b.attempt ∨ n = 1) := by
  have hattempt : (b.view now).attempt = b.attempt := rfl
  rw [decideRun, hlast] at h
  dsimp only at h
  cases hstate : (b.view now).state with
  | done =>
    obtain ⟨x, hx, -⟩ := state_done.mp hstate
    have hxn := hattempts x ((effective_eq_some hb).mp hx).mem
    simp only [hstate, hx, hxn] at h
    split at h
    · cases h
      exact .inl rfl
    · cases h
  | claimed =>
    simp only [hstate] at h
    cases hw : (b.view now).winner with
    | none =>
      simp only [hw] at h
      cases h
      exact .inr ⟨winner_eq_none.mp hw, .inr rfl⟩
    | some w =>
      simp only [hw] at h
      split at h <;> cases h
  | pending =>
    simp only [hstate] at h
    cases h
    refine .inr ⟨winner_eq_none.mp ?_, .inr rfl⟩
    cases hw : (b.view now).winner with
    | none => rfl
    | some w => simp [view_state, hw] at hstate; split at hstate <;> cases hstate
  | stale =>
    simp only [hstate, hattempt] at h
    cases h
    refine .inr ⟨winner_eq_none.mp ?_, .inl rfl⟩
    cases hw : (b.view now).winner with
    | none => rfl
    | some w => simp [view_state, hw] at hstate; split at hstate <;> cases hstate

theorem parsedOf_push {h : ∀ x ∈ log.entries, x.oid = k.oid → x.entry = k.entry}
    (hk : parseCi principals k = some (.claim kc)) (hid : k.entry.id = id) :
    parsedOf principals id (log.push k h).entries =
      parsedOf principals id log.entries ++ [.claim kc] := by
  simp [parsedOf, EntryLog.push, List.filter_append, hid, hk]

theorem none_stood (hd : nextDecision (runView principals id log.entries now) actor maxAttempts =
      .claim n) (hmax : ∀ e ∈ parsedOf principals id log.entries, e.attempt ≤ n)
    (hc : .claim c ∈ parsedOf principals id log.entries) (hn : c.attempt = n)
    {results : List CiResult} (hresults : ∀ x, x ∈ results ↔
      CiEntry.result x ∈ parsedOf principals id log.entries ∧ x.attempt = n) :
    standing results now c = false := by
  cases hlast : (bucketsOf principals id log.entries).getLast? with
  | none =>
    rw [bucketsOf_eq_nil] at hlast
    rw [hlast] at hc
    cases hc
  | some b =>
    obtain ⟨hb, hle⟩ := latest_bucket hlast
    obtain ⟨v, hv⟩ := runView_exists now hlast
    rw [hv] at hd
    have hcases := decideRun_claim (runView_latest hlast hv).1 hb.addressed
      (fun x hx => ((hb.results x).mp hx).2) hd
    have hcb : n ≤ b.attempt := hn ▸ hle _ hc
    have hbn : b.attempt ≤ n := by
      obtain ⟨e, he, heq⟩ := bucket_attempt (List.mem_of_getLast? hlast)
      exact heq ▸ hmax e he
    rcases hcases with hnext | ⟨hnone, -⟩
    · omega
    · have heq : b.attempt = n := le_antisymm hbn hcb
      have hstands := hnone c ((hb.claims c).mpr ⟨hc, hn.trans heq.symm⟩)
      have hvoid : c.oid ∈ voided results ↔ c.oid ∈ voided b.results := by
        simp only [voided, List.mem_map, List.mem_filter, hresults, hb.results, heq]
      rw [standing] at hstands ⊢
      simp only [hvoid]
      exact hstands

/-- The latest attempt after the claim was published. -/
structure AfterClaim (principals : Principals) (id : String) (log : EntryLog) (kc : CiClaim)
    (b : Bucket) : Prop where
  claims : ∀ c, c ∈ b.claims ↔
    (CiEntry.claim c ∈ parsedOf principals id log.entries ∨ c = kc) ∧ c.attempt = b.attempt
  results : ∀ x, x ∈ b.results ↔
    CiEntry.result x ∈ parsedOf principals id log.entries ∧ x.attempt = b.attempt

theorem afterClaim {h : ∀ x ∈ log.entries, x.oid = k.oid → x.entry = k.entry}
    (hk : parseCi principals k = some (.claim kc)) (hid : k.entry.id = id)
    (hb : IsBucket principals id (log.push k h).entries b) :
    AfterClaim principals id log kc b := by
  have hparsed := parsedOf_push (h := h) hk hid
  constructor
  · intro c
    rw [hb.claims, hparsed, List.mem_append, List.mem_singleton, CiEntry.claim.injEq]
  · intro x
    rw [hb.results, hparsed, List.mem_append, List.mem_singleton]
    simp

theorem only_new_stands
    (hd : nextDecision (runView principals id log.entries now) actor maxAttempts = .claim n)
    (hmax : ∀ e ∈ parsedOf principals id log.entries, e.attempt ≤ n)
    (hb : AfterClaim principals id log kc b) (hn : b.attempt = n) (hc : c ∈ b.claims)
    (hs : standing b.results now c = true) : c = kc := by
  obtain ⟨hold | heq, hcn⟩ := (hb.claims c).mp hc
  · have hnone := none_stood hd hmax hold (hcn.trans hn)
      (fun x => by rw [hb.results, hn])
    rw [hnone] at hs
    cases hs
  · exact heq

theorem claim_live (hts : kc.ts = now) (hnow : now ≤ i64Max) : kc.live now = true := by
  rw [CiClaim.live, decide_eq_true_eq, saturatingAdd, hts]
  omega

theorem elected_of_leads (hv : runView principals id log.entries now = some v)
    (hlast : (bucketsOf principals id log.entries).getLast? = some b) (hn : b.attempt = n)
    (hlead : Leads b now c) (hunanswered : ∀ x ∈ b.results, x.claim ≠ c.oid) :
    Elected principals id log.entries now n := by
  have hb : b.Addressed := (latest_bucket hlast).1.addressed
  obtain ⟨hatt, hlatest, hstate, -⟩ := runView_latest hlast hv
  have hwin := (winner_eq_some hb).mpr hlead
  have heff : (b.view now).effective = none := by
    rw [view_effective, hwin, List.argmin_eq_none, List.filter_eq_nil_iff]
    exact fun x hx hxc => hunanswered x hx (of_decide_eq_true hxc)
  have hclaimed : (b.view now).state = .claimed := by simp [view_state, heff, hwin]
  refine ⟨v, hv, hlatest.trans hn, hstate.trans hclaimed, b, c, hlast, hn, ?_, hlead, ?_⟩
  · rw [hatt]
    exact hwin
  · intro actor maxAttempts
    rw [decideRun, hatt]
    simp only [hclaimed, hwin]
    rw [show (b.view now).attempt = n from hn]
    simp only [eq_comm]

theorem elected_iff (h : ∀ x ∈ log.entries, x.oid = k.oid → x.entry = k.entry)
    (hd : nextDecision (runView principals id log.entries now) actor maxAttempts = .claim n)
    (hk : parseCi principals k = some (.claim kc)) (hid : k.entry.id = id) (hts : kc.ts = now)
    (hn : kc.attempt = n) (hnow : now ≤ i64Max) :
    Elected principals id (log.push k h).entries now n ↔
      ClaimCounts principals id log.entries n k.oid := by
  have hparsed := parsedOf_push (h := h) hk hid
  have hoid : kc.oid = k.oid := (parseClaim_spec (parseCi_claim hk)).oid
  constructor
  · rintro ⟨v, hv, -, hstate, b, w, hlast, hbn, -, hlead, -⟩
    obtain ⟨hbucket, hle⟩ := latest_bucket hlast
    have hmax : ∀ e ∈ parsedOf principals id log.entries, e.attempt ≤ n := fun e he =>
      hbn ▸ hle e (hparsed ▸ List.mem_append_left _ he)
    refine ⟨hmax, fun x hx hxn hclaim => ?_⟩
    have hafter := afterClaim hk hid hbucket
    obtain rfl := only_new_stands hd hmax hafter hbn hlead.mem hlead.stands
    -- the result answers the claim that leads, so the attempt is settled
    have hanswer : x ∈ b.results := (hafter.results x).mpr ⟨hx, hxn.trans hbn.symm⟩
    obtain ⟨hdone, -⟩ :=
      answered_done hbucket.addressed hlead ⟨x, hanswer, hclaim.trans hoid.symm⟩
    rw [(runView_latest hlast hv).2.2.1, hdone] at hstate
    cases hstate
  · rintro ⟨hmax, hfree⟩
    have hmem : CiEntry.claim kc ∈ parsedOf principals id (log.push k h).entries :=
      hparsed ▸ List.mem_append_right _ (List.mem_singleton_self _)
    cases hlast : (bucketsOf principals id (log.push k h).entries).getLast? with
    | none =>
      rw [bucketsOf_eq_nil] at hlast
      rw [hlast] at hmem
      cases hmem
    | some b =>
      obtain ⟨hbucket, hle⟩ := latest_bucket hlast
      have hafter := afterClaim hk hid hbucket
      have hbn : b.attempt = n := by
        obtain ⟨e, he, heq⟩ := bucket_attempt (List.mem_of_getLast? hlast)
        refine le_antisymm ?_ (hn ▸ hle _ hmem)
        rw [hparsed, List.mem_append, List.mem_singleton] at he
        rcases he with he | rfl
        · exact heq ▸ hmax e he
        · exact heq ▸ hn.le
      have hunanswered : ∀ x ∈ b.results, x.claim ≠ kc.oid := by
        intro x hx
        obtain ⟨hx, hxn⟩ := (hafter.results x).mp hx
        exact hoid ▸ hfree x hx (hxn.trans hbn)
      have hstands : standing b.results now kc = true := by
        refine Bool.and_eq_true_iff.mpr ⟨claim_live hts hnow, decide_eq_true fun hvoid => ?_⟩
        obtain ⟨x, hx, hxc⟩ := List.mem_map.mp hvoid
        exact hunanswered x (List.mem_filter.mp hx).1 hxc
      have hlead : Leads b now kc := by
        refine ⟨(hafter.claims kc).mpr ⟨.inr rfl, hn.trans hbn.symm⟩, hstands, fun c hc hs => ?_⟩
        rw [only_new_stands hd hmax hafter hbn hc hs]
      obtain ⟨v, hv⟩ := runView_exists now hlast
      exact elected_of_leads hv hlast hbn hlead hunanswered

end Claiming

/-- Whoever is told to claim attempt `n`: a claim for it, dated now, is added. -/
theorem claim_elects_iff (principals : Principals) (id : String) (log : EntryLog) (now : Int64)
    (actor : String) (maxAttempts n : ℕ) (k : EntryRef) (kc : CiClaim)
    (hfresh : ∀ x ∈ log.entries, x.oid = k.oid → x.entry = k.entry)
    (hd : nextDecision (runView principals id log.entries now.toInt) actor maxAttempts = .claim n)
    (hk : parseCi principals k = some (.claim kc)) (hid : k.entry.id = id)
    (hts : kc.ts = now.toInt) (hn : kc.attempt = n) :
    Elected principals id (log.push k hfresh).entries now.toInt n ↔
      ClaimCounts principals id log.entries n k.oid :=
  elected_iff hfresh hd hk hid hts hn (toInt_le_i64Max now)

def expiredRun : EntrySet where
  entries := [claimEntry "k1" "ann" 0 10 1, claimEntry "k2" "bob" 1 10 1]
  nodup := by decide

theorem claim_elects_after_expiry :
    nextDecision (runView trusting "ci-1" expiredRun.entries (100 : Int64).toInt) "bob" 1 =
      .claim 1 ∧
    Elected trusting "ci-1" (expiredRun.entries ++ [claimEntry "k3" "bob" 100 60 1])
      (100 : Int64).toInt 1 := by
  have hd : nextDecision (runView trusting "ci-1" expiredRun.entries (100 : Int64).toInt)
      "bob" 1 = .claim 1 := by decide +kernel
  have hfresh : ∀ x ∈ expiredRun.log.entries, x.oid = (claimEntry "k3" "bob" 100 60 1).oid →
      x.entry = (claimEntry "k3" "bob" 100 60 1).entry := by
    intro x hx hoid
    have hnew : "k3" ∉ expiredRun.entries.map EntryRef.oid := by decide
    have hmem : x.oid ∈ expiredRun.entries.map EntryRef.oid := List.mem_map_of_mem hx
    rw [hoid] at hmem
    exact absurd hmem hnew
  have hparsed : parsedOf trusting "ci-1" expiredRun.entries =
      [.claim ⟨"k1", "ann", 0, "test", "refs/heads/main", "c0", 10, 1⟩,
        .claim ⟨"k2", "bob", 1, "test", "refs/heads/main", "c0", 10, 1⟩] := by decide +kernel
  refine ⟨hd, (claim_elects_iff trusting "ci-1" expiredRun.log 100 "bob" 1 1
    (claimEntry "k3" "bob" 100 60 1) ⟨"k3", "bob", 100, "test", "refs/heads/main", "c0", 60, 1⟩
    hfresh hd (by decide +kernel) rfl (by decide) rfl).mpr ?_⟩
  unfold ClaimCounts
  rw [show expiredRun.log.entries = expiredRun.entries from rfl, hparsed]
  refine ⟨by decide, fun x hx => ?_⟩
  simp at hx

/-- Attempt 1 is claimed in vain. -/
theorem claim_elects_no_one :
    nextDecision (runView trusting "ci-1" orphanError.entries 10) "bob" 1 = .claim 1 ∧
    ¬ Elected trusting "ci-1" (orphanError.entries ++ [claimEntry "k3" "bob" 10 60 1]) 10 1 ∧
    nextDecision (runView trusting "ci-1"
      (orphanError.entries ++ [claimEntry "k3" "bob" 10 60 1]) 10) "bob" 1 = .claim 1 := by
  have hstate : (runView trusting "ci-1"
      (orphanError.entries ++ [claimEntry "k3" "bob" 10 60 1]) 10).map RunView.state =
      some .pending := by decide +kernel
  refine ⟨by decide +kernel, ?_, by decide +kernel⟩
  rintro ⟨v, hv, -, hclaimed, -⟩
  rw [hv, Option.map_some, hclaimed] at hstate
  cases hstate

end Walgit.Ci
