import Walgit.Ci

/-!
# What a run view says

The winner is the earliest standing claim and the effective result the earliest
answer to it, or the earliest result when no claim stands. A settled run stays
settled exactly when its verdict outlives the claim it answers.
-/

namespace Walgit.Ci

open Collab Grouping

section Parsing

variable {principals : Principals} {id : String} {entries : List EntryRef} {r r' : EntryRef}
  {c : CiClaim} {x : CiResult} {e : CiEntry}

structure ClaimOf (r : EntryRef) (c : CiClaim) : Prop where
  oid : c.oid = r.oid
  actor : c.actor = r.entry.actor
  ts : c.ts = r.entry.ts
  ttl : claimTtlMin ≤ c.ttlSecs ∧ c.ttlSecs ≤ claimTtlMax
  attempt : 1 ≤ c.attempt ∧ c.attempt ≤ attemptMax

theorem bodyU32_bounds {body : Json} {key : String} {least greatest v : ℕ}
    (h : bodyU32 body key least greatest = some v) : least ≤ v ∧ v ≤ greatest := by
  obtain ⟨-, hv⟩ := Option.filter_eq_some_iff.mp h
  exact (of_decide_eq_true hv).2

theorem parseClaim_spec (h : parseClaim r = some c) : ClaimOf r c := by
  unfold parseClaim at h
  dsimp only at h
  split at h
  · cases h
  · simp only [Option.bind_eq_bind, Option.bind_eq_some_iff] at h
    obtain ⟨ttl, httl, task, -, repoRef, -, commit, -, attempt, hattempt, heq⟩ := h
    cases heq
    exact ⟨rfl, rfl, rfl, bodyU32_bounds httl, bodyU32_bounds hattempt⟩

structure ResultOf (r : EntryRef) (x : CiResult) : Prop where
  oid : x.oid = r.oid
  actor : x.actor = r.entry.actor
  ts : x.ts = r.entry.ts
  attempt : 1 ≤ x.attempt ∧ x.attempt ≤ attemptMax

theorem parseResult_spec (h : parseResult r = some x) : ResultOf r x := by
  unfold parseResult at h
  dsimp only at h
  split at h
  · cases h
  · simp only [Option.bind_eq_bind, Option.bind_eq_some_iff] at h
    obtain ⟨_, -, _, -, _, -, _, -, attempt, hattempt, _, -, _, -, heq⟩ := h
    cases heq
    exact ⟨rfl, rfl, rfl, bodyU32_bounds hattempt⟩

theorem parseClaim_congr (hoid : r.oid = r'.oid) (hentry : r.entry = r'.entry) :
    parseClaim r = parseClaim r' := by
  unfold parseClaim
  rw [hoid, hentry]

theorem parseResult_congr (hoid : r.oid = r'.oid) (hentry : r.entry = r'.entry) :
    parseResult r = parseResult r' := by
  unfold parseResult
  rw [hoid, hentry]

theorem parseCi_claim (h : parseCi principals r = some (.claim c)) : parseClaim r = some c := by
  unfold parseCi at h
  split at h
  · split at h
    · rename_i hc
      cases h
      exact hc
    · simp at h
  · cases h

theorem parseCi_result (h : parseCi principals r = some (.result x)) : parseResult r = some x := by
  unfold parseCi at h
  split at h
  · split at h
    · cases h
    · simpa using h
  · cases h

theorem mem_parsedOf : e ∈ parsedOf principals id entries ↔
    ∃ r ∈ entries, r.entry.id = id ∧ parseCi principals r = some e := by
  simp [parsedOf, and_assoc]

theorem parsed_attempt (h : e ∈ parsedOf principals id entries) :
    1 ≤ e.attempt ∧ e.attempt ≤ attemptMax := by
  obtain ⟨r, -, -, hr⟩ := mem_parsedOf.mp h
  cases e with
  | claim c => exact (parseClaim_spec (parseCi_claim hr)).attempt
  | result x => exact (parseResult_spec (parseCi_result hr)).attempt

end Parsing

section Buckets

variable {principals : Principals} {id : String} {entries : List EntryRef} {b : Bucket}
  {c : CiClaim} {x : CiResult} {now : ℤ}

/-- An attempt of a log: all verified claims and results with its number. -/
structure IsBucket (principals : Principals) (id : String) (entries : List EntryRef)
    (b : Bucket) : Prop where
  claims : ∀ c, c ∈ b.claims ↔
    CiEntry.claim c ∈ parsedOf principals id entries ∧ c.attempt = b.attempt
  results : ∀ x, x ∈ b.results ↔
    CiEntry.result x ∈ parsedOf principals id entries ∧ x.attempt = b.attempt

theorem isBucket (h : b ∈ bucketsOf principals id entries) :
    IsBucket principals id entries b := by
  obtain ⟨g, hg, rfl⟩ := List.mem_map.mp h
  obtain ⟨-, hvals⟩ := mem_groupBy.mp hg
  constructor
  · intro c
    rw [hvals]
    constructor
    · intro hc
      obtain ⟨e, he, hec⟩ := List.mem_filterMap.mp hc
      cases e with
      | claim c' =>
        cases hec
        obtain ⟨he, hn⟩ := List.mem_filter.mp he
        exact ⟨he, of_decide_eq_true hn⟩
      | result x => cases hec
    · rintro ⟨hc, hn⟩
      exact List.mem_filterMap.mpr ⟨.claim c, List.mem_filter.mpr ⟨hc, decide_eq_true hn⟩, rfl⟩
  · intro x
    rw [hvals]
    constructor
    · intro hx
      obtain ⟨e, he, hex⟩ := List.mem_filterMap.mp hx
      cases e with
      | claim c => cases hex
      | result x' =>
        cases hex
        obtain ⟨he, hn⟩ := List.mem_filter.mp he
        exact ⟨he, of_decide_eq_true hn⟩
    · rintro ⟨hx, hn⟩
      exact List.mem_filterMap.mpr ⟨.result x, List.mem_filter.mpr ⟨hx, decide_eq_true hn⟩, rfl⟩

theorem bucket_attempt (h : b ∈ bucketsOf principals id entries) :
    ∃ e ∈ parsedOf principals id entries, e.attempt = b.attempt := by
  obtain ⟨g, hg, rfl⟩ := List.mem_map.mp h
  obtain ⟨e, he, hn⟩ := List.mem_map.mp (mem_groupBy.mp hg).1
  exact ⟨e, he, hn⟩

/-- An oid stands for one claim, and for one result. -/
structure Bucket.Addressed (b : Bucket) : Prop where
  claims : ∀ c ∈ b.claims, ∀ c' ∈ b.claims, c.oid = c'.oid → c = c'
  results : ∀ x ∈ b.results, ∀ x' ∈ b.results, x.oid = x'.oid → x = x'

theorem IsBucket.addressed {log : EntryLog} (h : IsBucket principals id log.entries b) :
    b.Addressed := by
  constructor
  · intro c hc c' hc' hoid
    obtain ⟨r, hr, -, hp⟩ := mem_parsedOf.mp ((h.claims c).mp hc).1
    obtain ⟨r', hr', -, hp'⟩ := mem_parsedOf.mp ((h.claims c').mp hc').1
    have hparse := parseCi_claim hp
    have hparse' := parseCi_claim hp'
    have hoids : r.oid = r'.oid := by
      rw [← (parseClaim_spec hparse).oid, ← (parseClaim_spec hparse').oid, hoid]
    rw [parseClaim_congr hoids (log.addressed r hr r' hr' hoids), hparse'] at hparse
    exact (Option.some.inj hparse).symm
  · intro x hx x' hx' hoid
    obtain ⟨r, hr, -, hp⟩ := mem_parsedOf.mp ((h.results x).mp hx).1
    obtain ⟨r', hr', -, hp'⟩ := mem_parsedOf.mp ((h.results x').mp hx').1
    have hparse := parseCi_result hp
    have hparse' := parseCi_result hp'
    have hoids : r.oid = r'.oid := by
      rw [← (parseResult_spec hparse).oid, ← (parseResult_spec hparse').oid, hoid]
    rw [parseResult_congr hoids (log.addressed r hr r' hr' hoids), hparse'] at hparse
    exact (Option.some.inj hparse).symm

theorem orderKey_inj {ts ts' : ℤ} {actor actor' oid oid' : String}
    (h : orderKey ts actor oid = orderKey ts' actor' oid') : oid = oid' := by
  have hpair := congrArg Prod.snd (toLex.injective h)
  exact congrArg Prod.snd (toLex.injective hpair)

theorem Bucket.Addressed.claimKeys (h : b.Addressed) {l : List CiClaim} (hl : l ⊆ b.claims) :
    Set.InjOn CiClaim.key {c | c ∈ l} :=
  fun c hc c' hc' hk => h.claims c (hl hc) c' (hl hc') (orderKey_inj hk)

theorem Bucket.Addressed.resultKeys (h : b.Addressed) {l : List CiResult} (hl : l ⊆ b.results) :
    Set.InjOn CiResult.key {x | x ∈ l} :=
  fun x hx x' hx' hk => h.results x (hl hx) x' (hl hx') (orderKey_inj hk)

theorem latest_bucket (h : (bucketsOf principals id entries).getLast? = some b) :
    IsBucket principals id entries b ∧
      ∀ e ∈ parsedOf principals id entries, e.attempt ≤ b.attempt := by
  refine ⟨isBucket (List.mem_of_getLast? h), ?_⟩
  rw [bucketsOf, groupBy, List.map_map, List.getLast?_map] at h
  obtain ⟨n, hn, rfl⟩ := Option.map_eq_some_iff.mp h
  have hmax := (sortedKeys_getLast.mp hn).2
  exact fun e he => hmax _ (List.mem_map_of_mem he)

theorem bucketsOf_eq_nil : (bucketsOf principals id entries).getLast? = none ↔
    parsedOf principals id entries = [] := by
  rw [List.getLast?_eq_none_iff, bucketsOf, groupBy, List.map_eq_nil_iff, List.map_eq_nil_iff,
    sortedKeys_eq_nil, List.map_eq_nil_iff]

theorem runView_attempts {v : RunView} (h : runView principals id entries now = some v) :
    v.attempts = (bucketsOf principals id entries).map fun b => b.view now := by
  unfold runView at h
  dsimp only at h
  split at h
  · cases h
  · cases h
    rfl

end Buckets

theorem toInt_le_i64Max (now : Int64) : now.toInt ≤ i64Max := by
  have := now.toInt_lt
  unfold i64Max
  omega

section Views

variable {b : Bucket} {c : CiClaim} {x : CiResult} {now now' : ℤ}

/-- The earliest of the claims that stand: live, and not voided. -/
structure Leads (b : Bucket) (now : ℤ) (c : CiClaim) : Prop where
  mem : c ∈ b.claims
  stands : standing b.results now c = true
  least : ∀ c' ∈ b.claims, standing b.results now c' = true → c.key ≤ c'.key

def NoneStands (b : Bucket) (now : ℤ) : Prop :=
  ∀ c ∈ b.claims, standing b.results now c = false

structure Earliest (b : Bucket) (p : CiResult → Prop) (x : CiResult) : Prop where
  mem : x ∈ b.results
  meets : p x
  least : ∀ x' ∈ b.results, p x' → x.key ≤ x'.key

theorem winner_eq_some (hb : b.Addressed) : (b.view now).winner = some c ↔ Leads b now c := by
  have hsub : b.claims.filter (standing b.results now) ⊆ b.claims := List.filter_sublist.subset
  change (b.claims.filter (standing b.results now)).argmin CiClaim.key = some c ↔ _
  rw [← Option.mem_def, mem_argmin (hb.claimKeys hsub)]
  constructor
  · rintro ⟨hc, hle⟩
    obtain ⟨hc, hs⟩ := List.mem_filter.mp hc
    exact ⟨hc, hs, fun c' hc' hs' => hle c' (List.mem_filter.mpr ⟨hc', hs'⟩)⟩
  · intro h
    refine ⟨List.mem_filter.mpr ⟨h.mem, h.stands⟩, fun c' hc' => ?_⟩
    obtain ⟨hc', hs'⟩ := List.mem_filter.mp hc'
    exact h.least c' hc' hs'

theorem winner_eq_none : (b.view now).winner = none ↔ NoneStands b now := by
  change (b.claims.filter (standing b.results now)).argmin CiClaim.key = none ↔ _
  rw [List.argmin_eq_none, List.filter_eq_nil_iff]
  simp only [NoneStands, Bool.not_eq_true]

theorem view_effective : (b.view now).effective = (match (b.view now).winner with
    | some w => b.results.filter fun r : CiResult => r.claim = w.oid
    | none => b.results).argmin CiResult.key := rfl

theorem view_state : (b.view now).state =
    if (b.view now).effective.any (fun r => decide (r.conclusion ≠ .error)) then .done
    else if (b.view now).winner.isSome then .claimed
    else if b.claims.isEmpty then .pending
    else .stale := rfl

/-- The results that are looked at: the answers to the winner, or all. -/
def Counts (b : Bucket) (now : ℤ) (x : CiResult) : Prop :=
  ∀ w, (b.view now).winner = some w → x.claim = w.oid

theorem effective_eq_some (hb : b.Addressed) :
    (b.view now).effective = some x ↔ Earliest b (Counts b now) x := by
  rw [view_effective]
  cases hw : (b.view now).winner with
  | some w =>
    have hcounts : ∀ r, Counts b now r ↔ r.claim = w.oid := fun r => by simp [Counts, hw]
    rw [← Option.mem_def, mem_argmin (hb.resultKeys List.filter_sublist.subset)]
    constructor
    · rintro ⟨hx, hle⟩
      obtain ⟨hx, hxw⟩ := List.mem_filter.mp hx
      refine ⟨hx, (hcounts x).mpr (of_decide_eq_true hxw), fun x' hx' hc => hle x' ?_⟩
      exact List.mem_filter.mpr ⟨hx', decide_eq_true ((hcounts x').mp hc)⟩
    · intro h
      refine ⟨List.mem_filter.mpr ⟨h.mem, decide_eq_true ((hcounts x).mp h.meets)⟩, ?_⟩
      intro x' hx'
      obtain ⟨hx', hxw⟩ := List.mem_filter.mp hx'
      exact h.least x' hx' ((hcounts x').mpr (of_decide_eq_true hxw))
  | none =>
    have hcounts : ∀ r, Counts b now r := fun r w h => by simp [hw] at h
    rw [← Option.mem_def, mem_argmin (hb.resultKeys (List.Subset.refl _))]
    constructor
    · exact fun ⟨hx, hle⟩ => ⟨hx, hcounts x, fun x' hx' _ => hle x' hx'⟩
    · exact fun h => ⟨h.mem, fun x' hx' => h.least x' hx' (hcounts x')⟩

theorem state_done : (b.view now).state = .done ↔
    ∃ x, (b.view now).effective = some x ∧ x.conclusion ≠ .error := by
  rw [view_state]
  cases heff : (b.view now).effective with
  | none =>
    simp only [Option.any_none, Bool.false_eq_true, if_false]
    constructor
    · intro h
      split at h
      · cases h
      · split at h <;> cases h
    · rintro ⟨x, hx, -⟩
      cases hx
  | some x =>
    by_cases hx : x.conclusion = .error
    · simp only [Option.any_some, hx, ne_eq, not_true, decide_false, Bool.false_eq_true, if_false]
      constructor
      · intro h
        split at h
        · cases h
        · split at h <;> cases h
      · rintro ⟨y, hy, hne⟩
        cases hy
        exact absurd hx hne
    · simp [hx]

theorem answer_not_error (hs : standing b.results now c = true) (hx : x ∈ b.results)
    (hxc : x.claim = c.oid) : x.conclusion ≠ .error := by
  intro herr
  have hvoid : c.oid ∉ voided b.results := of_decide_eq_true (Bool.and_eq_true_iff.mp hs).2
  refine hvoid ?_
  rw [← hxc]
  exact List.mem_map_of_mem (List.mem_filter.mpr ⟨hx, decide_eq_true herr⟩)

theorem live_mono (h : now ≤ now') (hl : c.live now' = true) : c.live now = true :=
  decide_eq_true (h.trans (of_decide_eq_true hl))

theorem standing_mono (h : now ≤ now') (hs : standing b.results now' c = true) :
    standing b.results now c = true := by
  obtain ⟨hl, hv⟩ := Bool.and_eq_true_iff.mp hs
  exact Bool.and_eq_true_iff.mpr ⟨live_mono h hl, hv⟩

end Views

end Walgit.Ci
