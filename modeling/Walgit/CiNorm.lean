import Walgit.CiSettled

/-!
# The normative text

The rules of the protocol document for one attempt and for a runner's decision,
written from the text, and when the code agrees with them: the claim that leads
is not at its last second, the fallback result names a claim of its attempt, and
the retry bound is within that of a configuration.
-/

namespace Walgit.Ci

open Collab Grouping

namespace Norm

/-- `results` are those that refer to a claim of the attempt. -/
def results (b : Bucket) : List CiResult :=
  b.results.filter fun x : CiResult => x.claim ∈ b.claims.map CiClaim.oid

/-- `c.ts + c.ttl > now`, and no error result refers to `c`. -/
def valid (b : Bucket) (now : ℤ) (c : CiClaim) : Bool :=
  decide (c.ts + c.ttlSecs > now) &&
    !(results b).any fun x => x.conclusion = .error ∧ x.claim = c.oid

def winner (b : Bucket) (now : ℤ) : Option CiClaim :=
  (b.claims.filter (valid b now)).argmin CiClaim.key

def effective (b : Bucket) (now : ℤ) : Option CiResult :=
  match winner b now with
  | some w => ((results b).filter fun x : CiResult => x.claim = w.oid).argmin CiResult.key
  | none => (results b).argmin CiResult.key

/-- `done` where there is an effective result, which is `stale` in fact when it is an error. -/
def state (b : Bucket) (now : ℤ) : RunState :=
  match effective b now with
  | some x => if x.conclusion = .error then .stale else .done
  | none =>
    if b.claims.isEmpty then .pending else if (winner b now).isSome then .claimed else .stale

def runState (latest : Option Bucket) (now : ℤ) : RunState :=
  latest.elim .pending fun b => state b now

/-- `latest` is the attempt with the greatest number that occurs in the run. -/
def decision (latest : Option Bucket) (now : ℤ) (actor : String) (maxAttempts : ℕ) : Decision :=
  match latest with
  | none => .claim 1
  | some b =>
    match state b now, effective b now, winner b now with
    | .done, some x, _ =>
      if x.conclusion ≠ .success ∧ b.attempt + 1 ≤ maxAttempts then .claim (b.attempt + 1)
      else .settled x.conclusion b.attempt
    | .claimed, _, some w => if w.actor = actor then .resume w.oid b.attempt else .standDown w.actor
    | _, _, _ => .claim b.attempt

end Norm

/-- A view of a run, and what is decided on it, are those of the text. -/
structure Conforms (buckets : List Bucket) (now : ℤ) (actor : String) (maxAttempts : ℕ)
    (v : RunView) : Prop where
  attempts : v.attempts.map (fun a => (a.attempt, a.winner, a.effective, a.state)) =
    buckets.map fun b => (b.attempt, Norm.winner b now, Norm.effective b now, Norm.state b now)
  state : v.state = Norm.runState buckets.getLast? now
  decision : decideRun v actor maxAttempts = Norm.decision buckets.getLast? now actor maxAttempts

/-- No attempt is led by a claim in its last second, and where none stands the earliest result
names a claim of the attempt. -/
def Bucket.Plain (b : Bucket) (now : ℤ) : Prop :=
  (∀ c, Leads b now c → c.ts + c.ttlSecs ≠ now) ∧
    (NoneStands b now → ∀ x, Earliest b (fun _ => True) x → x.claim ∈ b.claims.map CiClaim.oid)

structure TextApplies (buckets : List Bucket) (now : ℤ) (maxAttempts : ℕ) : Prop where
  plain : ∀ b ∈ buckets, b.Plain now
  budget : maxAttempts ≤ attemptMax ∨ ∀ b, buckets.getLast? = some b → b.attempt = attemptMax →
    ∀ x, Norm.effective b now = some x → x.conclusion ≠ .failure ∧ x.conclusion ≠ .timeout

section Attempts

variable {b : Bucket} {c : CiClaim} {x : CiResult} {now : ℤ}

theorem mem_normResults : x ∈ Norm.results b ↔ x ∈ b.results ∧ ∃ c ∈ b.claims, c.oid = x.claim := by
  rw [Norm.results, List.mem_filter]
  simp only [decide_eq_true_eq, List.mem_map]

theorem valid_iff (hnow : now ≤ i64Max) (hc : c ∈ b.claims) :
    Norm.valid b now c = true ↔ standing b.results now c = true ∧ c.ts + c.ttlSecs ≠ now := by
  have hvoid : (Norm.results b).any (fun x => x.conclusion = .error ∧ x.claim = c.oid) = true ↔
      c.oid ∈ voided b.results := by
    rw [List.any_eq_true]
    simp only [voided, List.mem_map, List.mem_filter, decide_eq_true_eq]
    constructor
    · rintro ⟨x, hx, herr, hxc⟩
      exact ⟨x, ⟨(mem_normResults.mp hx).1, herr⟩, hxc⟩
    · rintro ⟨x, ⟨hx, herr⟩, hxc⟩
      exact ⟨x, mem_normResults.mpr ⟨hx, c, hc, hxc.symm⟩, herr, hxc⟩
  have hlive : c.live now = true ↔ now ≤ c.ts + c.ttlSecs := by
    rw [CiClaim.live, decide_eq_true_eq, saturatingAdd]
    omega
  rw [Norm.valid, standing, Bool.and_eq_true, Bool.and_eq_true, decide_eq_true_eq,
    Bool.not_eq_true', ← Bool.not_eq_true, hvoid, hlive, decide_eq_true_eq]
  constructor
  · rintro ⟨hlt, hn⟩
    exact ⟨⟨by omega, hn⟩, by omega⟩
  · rintro ⟨⟨hle, hn⟩, hne⟩
    exact ⟨by omega, hn⟩

theorem normWinner_eq_some (hb : b.Addressed) (hnow : now ≤ i64Max) (hc : Leads b now c)
    (hne : c.ts + c.ttlSecs ≠ now) : Norm.winner b now = some c := by
  rw [Norm.winner, ← Option.mem_def, mem_argmin (hb.claimKeys List.filter_sublist.subset)]
  refine ⟨List.mem_filter.mpr ⟨hc.mem, (valid_iff hnow hc.mem).mpr ⟨hc.stands, hne⟩⟩, ?_⟩
  intro c' hc'
  obtain ⟨hc', hv⟩ := List.mem_filter.mp hc'
  exact hc.least c' hc' ((valid_iff hnow hc').mp hv).1

theorem normWinner_eq_none (hnow : now ≤ i64Max) (hn : NoneStands b now) :
    Norm.winner b now = none := by
  rw [Norm.winner, List.argmin_eq_none, List.filter_eq_nil_iff]
  intro c hc hv
  have hs := ((valid_iff hnow hc).mp hv).1
  rw [hn c hc] at hs
  cases hs

theorem winner_agrees (hb : b.Addressed) (hnow : now ≤ i64Max) :
    (b.view now).winner = Norm.winner b now ↔ ∀ c, Leads b now c → c.ts + c.ttlSecs ≠ now := by
  constructor
  · intro heq c hc
    rw [(winner_eq_some hb).mpr hc] at heq
    have hmem : c ∈ b.claims.filter (Norm.valid b now) := List.argmin_mem heq.symm
    exact ((valid_iff hnow hc.mem).mp (List.mem_filter.mp hmem).2).2
  · intro hplain
    rcases exists_leader now hb with hn | ⟨c, hc⟩
    · rw [winner_eq_none.mpr hn, normWinner_eq_none hnow hn]
    · rw [(winner_eq_some hb).mpr hc, normWinner_eq_some hb hnow hc (hplain c hc)]

theorem effective_agrees (hb : b.Addressed)
    (hw : (b.view now).winner = Norm.winner b now) :
    (b.view now).effective = Norm.effective b now ↔
      (NoneStands b now → ∀ x, Earliest b (fun _ => True) x →
        x.claim ∈ b.claims.map CiClaim.oid) := by
  rcases exists_leader now hb with hn | ⟨c, hc⟩
  · have hwin := winner_eq_none.mpr hn
    have hall : ∀ y, Earliest b (Counts b now) y ↔ Earliest b (fun _ => True) y := fun y =>
      ⟨fun h => ⟨h.mem, trivial, fun z hz _ => h.least z hz (counts_all hn)⟩,
        fun h => ⟨h.mem, counts_all hn, fun z hz _ => h.least z hz trivial⟩⟩
    have hnorm : Norm.effective b now = (Norm.results b).argmin CiResult.key := by
      rw [Norm.effective, ← hw, hwin]
    have hkeys := hb.resultKeys (l := Norm.results b) List.filter_sublist.subset
    rw [hnorm]
    constructor
    · intro heq _ x hx
      rw [(effective_eq_some hb).mpr ((hall x).mpr hx)] at heq
      have hmem : x ∈ Norm.results b := List.argmin_mem heq.symm
      exact of_decide_eq_true (List.mem_filter.mp hmem).2
    · intro hnames
      cases heff : (b.view now).effective with
      | none =>
        rw [view_effective, hwin, List.argmin_eq_none] at heff
        have hnil : b.results = [] := heff
        rw [eq_comm, List.argmin_eq_none, Norm.results, hnil, List.filter_nil]
      | some x =>
        have hx := (hall x).mp ((effective_eq_some hb).mp heff)
        rw [eq_comm, ← Option.mem_def, mem_argmin hkeys]
        refine ⟨List.mem_filter.mpr ⟨hx.mem, decide_eq_true (hnames hn x hx)⟩, fun y hy => ?_⟩
        exact hx.least y (mem_normResults.mp hy).1 trivial
  · have hwin := (winner_eq_some hb).mpr hc
    have hfilter : (Norm.results b).filter (fun x : CiResult => x.claim = c.oid) =
        b.results.filter fun x : CiResult => x.claim = c.oid := by
      rw [Norm.results, List.filter_filter]
      refine List.filter_congr fun x _ => ?_
      by_cases hxc : x.claim = c.oid
      · simp only [hxc, decide_true, Bool.true_and, decide_eq_true_eq]
        exact List.mem_map_of_mem hc.mem
      · simp [hxc]
    constructor
    · intro _ hn
      have := hn c hc.mem
      rw [hc.stands] at this
      cases this
    · intro _
      rw [view_effective, Norm.effective, ← hw, hwin]
      dsimp only
      rw [hfilter]

theorem state_agrees (hb : b.Addressed) (hw : (b.view now).winner = Norm.winner b now)
    (he : (b.view now).effective = Norm.effective b now) :
    (b.view now).state = Norm.state b now := by
  rw [view_state, Norm.state, ← he, ← hw]
  cases heff : (b.view now).effective with
  | none =>
    cases hwin : (b.view now).winner with
    | none => simp
    | some w =>
      have hmem := ((winner_eq_some hb).mp hwin).mem
      have hne : b.claims.isEmpty = false := by
        cases hcl : b.claims with
        | nil => rw [hcl] at hmem; cases hmem
        | cons => rfl
      simp [hne]
  | some x =>
    have hx := (effective_eq_some hb).mp heff
    by_cases herr : x.conclusion = .error
    · have hwin : (b.view now).winner = none := by
        cases hwin : (b.view now).winner with
        | none => rfl
        | some w =>
          have hlead := (winner_eq_some hb).mp hwin
          exact absurd herr (answer_not_error hlead.stands hx.mem (hx.meets w hwin))
      have hne : b.claims.isEmpty = false := by
        -- the result is one of the text's, so there is a claim
        have hnorm : Norm.effective b now = some x := he ▸ heff
        rw [Norm.effective, ← hw, hwin] at hnorm
        obtain ⟨-, c, hc, -⟩ := mem_normResults.mp (List.argmin_mem hnorm)
        cases hcl : b.claims with
        | nil => rw [hcl] at hc; cases hc
        | cons => rfl
      simp [herr, hwin, hne]
    · simp [herr]

theorem attempt_agrees (hb : b.Addressed) (hnow : now ≤ i64Max) :
    ((b.view now).winner = Norm.winner b now ∧ (b.view now).effective = Norm.effective b now ∧
      (b.view now).state = Norm.state b now) ↔ b.Plain now := by
  constructor
  · rintro ⟨hw, he, -⟩
    exact ⟨(winner_agrees hb hnow).mp hw, (effective_agrees hb hw).mp he⟩
  · rintro ⟨hboundary, hnames⟩
    have hw := (winner_agrees hb hnow).mpr hboundary
    have he := (effective_agrees hb hw).mpr hnames
    exact ⟨hw, he, state_agrees hb hw he⟩

end Attempts

section Runs

variable {principals : Principals} {id : String} {log : EntryLog} {b : Bucket} {v : RunView}
  {now : ℤ} {actor : String} {maxAttempts : ℕ}

/-- The retry bounds of the code and of the text differ past the greatest attempt only. -/
theorem budget_iff {n : ℕ} (maxAttempts : ℕ) (hn : 1 ≤ n) (hle : n ≤ attemptMax) :
    (n < budgetOf maxAttempts ↔ n + 1 ≤ maxAttempts) ↔
      maxAttempts ≤ attemptMax ∨ n ≠ attemptMax := by
  unfold budgetOf attemptMax at *
  omega

theorem ite_eq_ite {α : Type} {p q : Prop} [Decidable p] [Decidable q] {x y : α} (hne : x ≠ y) :
    (if p then x else y) = (if q then x else y) ↔ (p ↔ q) := by
  by_cases hp : p <;> by_cases hq : q <;> simp [hp, hq, hne, Ne.symm hne]

theorem retry_agrees {n : ℕ} {conclusion : Conclusion} (hn : 1 ≤ n) (hle : n ≤ attemptMax)
    (herr : conclusion ≠ .error) :
    ((if (conclusion = .failure ∨ conclusion = .timeout) ∧ n < budgetOf maxAttempts then
        Decision.claim (n + 1) else .settled conclusion n) =
      if conclusion ≠ .success ∧ n + 1 ≤ maxAttempts then .claim (n + 1)
      else .settled conclusion n) ↔
      maxAttempts ≤ attemptMax ∨
        (n = attemptMax → conclusion ≠ .failure ∧ conclusion ≠ .timeout) := by
  rw [ite_eq_ite (x := Decision.claim (n + 1)) (y := .settled conclusion n) nofun]
  have hbudget := budget_iff maxAttempts hn hle
  cases conclusion with
  | error => exact absurd rfl herr
  | success => simp
  | failure => simpa using hbudget
  | timeout => simpa using hbudget

/-- The decision on an attempt that the text sees as the code does. -/
theorem decision_agrees (hlast : v.attempts.getLast? = some (b.view now))
    (hb : b.Addressed) (hattempts : ∀ x ∈ b.results, x.attempt = b.attempt)
    (hsome : b.claims ≠ [] ∨ b.results ≠ []) (hn : 1 ≤ b.attempt) (hle : b.attempt ≤ attemptMax)
    (hw : (b.view now).winner = Norm.winner b now)
    (he : (b.view now).effective = Norm.effective b now)
    (hs : (b.view now).state = Norm.state b now) :
    decideRun v actor maxAttempts = Norm.decision (some b) now actor maxAttempts ↔
      maxAttempts ≤ attemptMax ∨ (b.attempt = attemptMax →
        ∀ x, Norm.effective b now = some x →
          x.conclusion ≠ .failure ∧ x.conclusion ≠ .timeout) := by
  have hattempt : (b.view now).attempt = b.attempt := rfl
  by_cases hdone : (b.view now).state = .done
  · obtain ⟨x, hx, herr⟩ := state_done.mp hdone
    have hxn : x.attempt = b.attempt := hattempts x ((effective_eq_some hb).mp hx).mem
    simp only [decideRun, hlast, Norm.decision, ← hw, ← he, ← hs, hdone, hx, hxn,
      Option.some.injEq, forall_eq']
    exact retry_agrees hn hle herr
  · -- no verdict: the bound is not looked at, and the decisions are the same
    have hright : ∀ x, Norm.effective b now = some x →
        x.conclusion ≠ .failure ∧ x.conclusion ≠ .timeout := by
      intro x hx
      have herr : x.conclusion = .error := by
        by_contra herr
        exact hdone (state_done.mpr ⟨x, he.trans hx, herr⟩)
      rw [herr]
      exact ⟨nofun, nofun⟩
    refine iff_of_true ?_ (.inr fun _ => hright)
    simp only [decideRun, hlast, Norm.decision, ← hw, ← he, ← hs]
    cases hstate : (b.view now).state with
    | done => exact absurd hstate hdone
    | stale => rfl
    | claimed =>
      cases hwin : (b.view now).winner with
      | some w => rfl
      | none =>
        rw [view_state, hwin] at hstate
        split at hstate
        · cases hstate
        · simp only [Option.isSome_none, Bool.false_eq_true, if_false] at hstate
          split at hstate <;> cases hstate
    | pending =>
      exfalso
      have hclaims : b.claims = [] := by
        rw [view_state] at hstate
        split at hstate
        · cases hstate
        · split at hstate
          · cases hstate
          · split at hstate
            · rename_i hempty
              exact List.isEmpty_iff.mp hempty
            · cases hstate
      have hwin : (b.view now).winner = none :=
        winner_eq_none.mpr fun c hc => by rw [hclaims] at hc; cases hc
      have hresults : Norm.results b = [] :=
        List.filter_eq_nil_iff.mpr fun x _ => by simp [hclaims]
      rw [view_effective, hwin, Norm.effective, ← hw, hwin, hresults] at he
      have hnil : b.results = [] := List.argmin_eq_none.mp he
      exact hsome.elim (· hclaims) (· hnil)

theorem bucket_nonempty (h : b ∈ bucketsOf principals id log.entries) :
    (b.claims ≠ [] ∨ b.results ≠ []) ∧ 1 ≤ b.attempt ∧ b.attempt ≤ attemptMax := by
  have hb := isBucket h
  obtain ⟨e, he, hn⟩ := bucket_attempt h
  have hbounds := parsed_attempt he
  rw [hn] at hbounds
  refine ⟨?_, hbounds⟩
  cases e with
  | claim c => exact .inl (List.ne_nil_of_mem ((hb.claims c).mpr ⟨he, hn⟩))
  | result x => exact .inr (List.ne_nil_of_mem ((hb.results x).mpr ⟨he, hn⟩))

theorem conforms_iff (hv : runView principals id log.entries now = some v) (hnow : now ≤ i64Max) :
    Conforms (bucketsOf principals id log.entries) now actor maxAttempts v ↔
      TextApplies (bucketsOf principals id log.entries) now maxAttempts := by
  have haddr : ∀ b ∈ bucketsOf principals id log.entries, b.Addressed :=
    fun b h => (isBucket h).addressed
  have hviews : v.attempts.map (fun a => (a.attempt, a.winner, a.effective, a.state)) =
      ((bucketsOf principals id log.entries).map fun b =>
        (b.attempt, Norm.winner b now, Norm.effective b now, Norm.state b now)) ↔
      ∀ b ∈ bucketsOf principals id log.entries, b.Plain now := by
    rw [runView_attempts hv, List.map_map, List.map_inj_left]
    refine forall_congr' fun b => forall_congr' fun h => ?_
    rw [← attempt_agrees (haddr b h) hnow]
    simp [Bucket.view, attemptView]
  constructor
  · intro hc
    have hplain := hviews.mp hc.attempts
    refine ⟨hplain, ?_⟩
    cases hlast : (bucketsOf principals id log.entries).getLast? with
    | none => exact .inr nofun
    | some b =>
      have hmem := List.mem_of_getLast? hlast
      have hb := haddr b hmem
      obtain ⟨hsome, hn, hle⟩ := bucket_nonempty hmem
      obtain ⟨hw, he, hs⟩ := (attempt_agrees hb hnow).mpr (hplain b hmem)
      obtain ⟨hatt, -⟩ := runView_latest hlast hv
      have hd := hc.decision
      rw [hlast] at hd
      have := (decision_agrees hatt hb (fun x hx => ((isBucket hmem).results x).mp hx |>.2) hsome
        hn hle hw he hs).mp hd
      simpa using this
  · intro ht
    refine ⟨hviews.mpr ht.plain, ?_, ?_⟩
    · cases hlast : (bucketsOf principals id log.entries).getLast? with
      | none => exact (runView_empty hlast hv).2.2
      | some b =>
        have hmem := List.mem_of_getLast? hlast
        obtain ⟨-, -, hs⟩ := (attempt_agrees (haddr b hmem) hnow).mpr (ht.plain b hmem)
        exact (runView_latest hlast hv).2.2.1.trans hs
    · cases hlast : (bucketsOf principals id log.entries).getLast? with
      | none => simp [decideRun, Norm.decision, (runView_empty hlast hv).1]
      | some b =>
        have hmem := List.mem_of_getLast? hlast
        have hb := haddr b hmem
        obtain ⟨hsome, hn, hle⟩ := bucket_nonempty hmem
        obtain ⟨hw, he, hs⟩ := (attempt_agrees hb hnow).mpr (ht.plain b hmem)
        obtain ⟨hatt, -⟩ := runView_latest hlast hv
        refine (decision_agrees hatt hb (fun x hx => ((isBucket hmem).results x).mp hx |>.2) hsome
          hn hle hw he hs).mpr ?_
        exact ht.budget.imp_right fun h => h b hlast

end Runs

theorem ci_text_followed_iff (principals : Principals) (id : String) (log : EntryLog)
    (now : Int64) (actor : String) (maxAttempts : ℕ) :
    (∀ v, runView principals id log.entries now.toInt = some v →
      Conforms (bucketsOf principals id log.entries) now.toInt actor maxAttempts v) ↔
      TextApplies (bucketsOf principals id log.entries) now.toInt maxAttempts := by
  have hnow := toInt_le_i64Max now
  cases hv : runView principals id log.entries now.toInt with
  | some v =>
    have hiff : Conforms _ now.toInt actor maxAttempts v ↔ TextApplies _ _ maxAttempts :=
      conforms_iff hv hnow
    exact ⟨fun h => hiff.mp (h v rfl), fun h w hw => Option.some.inj hw ▸ hiff.mpr h⟩
  | none =>
    refine iff_of_true nofun ?_
    have hnil : bucketsOf principals id log.entries = [] := by
      rw [← List.getLast?_eq_none_iff]
      by_contra hne
      obtain ⟨b, hb⟩ := Option.ne_none_iff_exists'.mp hne
      obtain ⟨v, hv'⟩ := runView_exists now.toInt hb
      rw [hv'] at hv
      cases hv
    rw [hnil]
    exact ⟨nofun, .inr nofun⟩

def lastSecond : EntrySet where
  entries := [claimEntry "k1" "ann" 0 10 1]
  nodup := by decide

/-- The code has the claim live where the text has it expired; and on an attempt without claims
it claims attempt 1, not the latest. -/
theorem ci_text_not_followed :
    (∃ v, runView trusting "ci-1" lastSecond.entries (10 : Int64).toInt = some v ∧
      ¬ Conforms (bucketsOf trusting "ci-1" lastSecond.entries) (10 : Int64).toInt "bob" 1 v ∧
      decideRun v "bob" 1 = .standDown "ann") ∧
    Norm.decision (bucketsOf trusting "ci-1" lastSecond.entries).getLast? 10 "bob" 1 = .claim 1 ∧
    ∃ v, runView trusting "ci-1" orphanError.entries (10 : Int64).toInt = some v ∧
      decideRun v "bob" 1 = .claim 1 ∧
      Norm.decision (bucketsOf trusting "ci-1" orphanError.entries).getLast? 10 "bob" 1 =
        .claim 2 := by
  have hlive : (runView trusting "ci-1" lastSecond.entries (10 : Int64).toInt).map
      (fun v => (v.state, decideRun v "bob" 1)) = some (.claimed, .standDown "ann") := by
    decide +kernel
  have htext : Norm.runState (bucketsOf trusting "ci-1" lastSecond.entries).getLast?
      (10 : Int64).toInt = .stale := by decide +kernel
  have horphan : (runView trusting "ci-1" orphanError.entries (10 : Int64).toInt).map
      (fun v => decideRun v "bob" 1) = some (.claim 1) := by decide +kernel
  obtain ⟨v, hv, hd⟩ := Option.map_eq_some_iff.mp hlive
  obtain ⟨w, hw, hdw⟩ := Option.map_eq_some_iff.mp horphan
  obtain ⟨hstate, hd⟩ := Prod.mk.inj hd
  refine ⟨⟨v, hv, fun hc => ?_, hd⟩, by decide +kernel, w, hw, hdw, by decide +kernel⟩
  have heq := hc.state
  rw [hstate, htext] at heq
  cases heq

end Walgit.Ci
