import Mathlib.Data.List.Perm.Basic
import Walgit.Collab
import Walgit.CiSettled
import Walgit.Threads

/-!
# Aggregation of one set of entries read in two orders

The same occurrences, read in any order and any number of times, give the same
threads, reviews, reports and boards up to the inbox a foreign copy is shown
in. The runs list their claims and results in the order of reading, and an
unanswered run takes its header from the first claim.
-/

namespace Walgit.Collab

open Ci Grouping

section Copies

variable {xs ys : EntryLog} {r : EntryRef} {oid : String}

/-- Every blob has a copy in its actor's inbox, or is first met in the same inbox. -/
def PrincipalsAgree (xs ys : EntryLog) : Prop :=
  ∀ r ∈ xs.entries, (∃ c ∈ xs.entries, c.oid = r.oid ∧ c.Legitimate) ∨
    (xs.entries.find? fun c => c.oid = r.oid).map EntryRef.principal =
      (ys.entries.find? fun c => c.oid = r.oid).map EntryRef.principal

theorem EntryRef.eq_of_blob {r r' : EntryRef} (hoid : r.oid = r'.oid)
    (hprincipal : r.principal = r'.principal) (hentry : r.entry = r'.entry) : r = r' := by
  cases r
  cases r'
  simp_all

theorem EntryLog.legitimate_unique {a b : EntryRef} (ha : a ∈ xs.entries) (hb : b ∈ xs.entries)
    (hoid : a.oid = b.oid) (hla : a.Legitimate) (hlb : b.Legitimate) : a = b := by
  have hentry := xs.addressed a ha b hb hoid
  refine EntryRef.eq_of_blob hoid ?_ hentry
  rw [show a.principal = a.entry.actor from hla, show b.principal = b.entry.actor from hlb, hentry]

theorem keptCopy_legitimate (hr : r ∈ xs.entries) (hl : r.Legitimate) :
    keptCopy xs.entries r.oid = some r := by
  have hmem : r ∈ xs.entries.filter fun c => c.oid = r.oid :=
    List.mem_filter.mpr ⟨hr, decide_eq_true rfl⟩
  unfold keptCopy
  dsimp only
  cases hfind : (xs.entries.filter fun c => c.oid = r.oid).find? fun c => decide c.Legitimate with
  | none => exact absurd (decide_eq_true hl) (List.find?_eq_none.mp hfind r hmem)
  | some d =>
    obtain ⟨hd, hoid⟩ := List.mem_filter.mp (List.mem_of_find?_eq_some hfind)
    have hld := List.find?_some hfind
    rw [xs.legitimate_unique hd hr (of_decide_eq_true hoid) (of_decide_eq_true hld) hl]
    rfl

theorem keptCopy_planted (h : ∀ c ∈ xs.entries, c.oid = oid → ¬ c.Legitimate) :
    keptCopy xs.entries oid = xs.entries.find? fun c => c.oid = oid := by
  have hnone : (xs.entries.filter fun c => c.oid = oid).find? (fun c => decide c.Legitimate) =
      none := by
    refine List.find?_eq_none.mpr fun c hc => ?_
    obtain ⟨hc, hoid⟩ := List.mem_filter.mp hc
    simpa using h c hc (of_decide_eq_true hoid)
  unfold keptCopy
  dsimp only
  rw [hnone, Option.none_or, List.head?_filter]

variable (h : ∀ r, r ∈ xs.entries ↔ r ∈ ys.entries)
include h

theorem find_eq_iff : (xs.entries.find? fun c => c.oid = oid).map EntryRef.principal =
      (ys.entries.find? fun c => c.oid = oid).map EntryRef.principal ↔
    (xs.entries.find? fun c => c.oid = oid) = ys.entries.find? fun c => c.oid = oid := by
  refine ⟨fun hmap => ?_, congrArg _⟩
  cases hx : xs.entries.find? fun c => c.oid = oid with
  | none =>
    rw [hx, Option.map_none, eq_comm, Option.map_eq_none_iff] at hmap
    exact hmap.symm
  | some a =>
    cases hy : ys.entries.find? fun c => c.oid = oid with
    | none =>
      rw [hx, hy] at hmap
      cases hmap
    | some b =>
      rw [hx, hy] at hmap
      have hao := List.find?_some hx
      have hbo := List.find?_some hy
      have hoid : a.oid = b.oid := (of_decide_eq_true hao).trans (of_decide_eq_true hbo).symm
      have hb := (h b).mpr (List.mem_of_find?_eq_some hy)
      rw [EntryRef.eq_of_blob hoid (Option.some.inj hmap)
        (xs.addressed a (List.mem_of_find?_eq_some hx) b hb hoid)]

theorem keptCopy_eq_iff : (∀ r ∈ xs.entries, keptCopy xs.entries r.oid =
    keptCopy ys.entries r.oid) ↔ PrincipalsAgree xs ys := by
  refine forall₂_congr fun r hr => ?_
  by_cases hleg : ∃ c ∈ xs.entries, c.oid = r.oid ∧ c.Legitimate
  · obtain ⟨c, hc, hoid, hl⟩ := hleg
    refine iff_of_true ?_ (.inl ⟨c, hc, hoid, hl⟩)
    rw [← hoid, keptCopy_legitimate hc hl, keptCopy_legitimate ((h c).mp hc) hl]
  · have hx : ∀ c ∈ xs.entries, c.oid = r.oid → ¬ c.Legitimate :=
      fun c hc hoid hl => hleg ⟨c, hc, hoid, hl⟩
    have hy : ∀ c ∈ ys.entries, c.oid = r.oid → ¬ c.Legitimate :=
      fun c hc => hx c ((h c).mpr hc)
    rw [or_iff_right hleg, keptCopy_planted hx, keptCopy_planted hy, find_eq_iff h]

theorem ofOccurrences_perm_iff : (EntrySet.ofOccurrences xs.entries).entries.Perm
    (EntrySet.ofOccurrences ys.entries).entries ↔ PrincipalsAgree xs ys := by
  have hnodup : ∀ set : EntrySet, set.entries.Nodup := fun set => List.Nodup.of_map _ set.nodup
  rw [List.perm_ext_iff_of_nodup (hnodup _) (hnodup _), ← keptCopy_eq_iff h]
  simp only [mem_ofOccurrences]
  constructor
  · intro hmem r hr
    obtain ⟨x, hx⟩ := keptCopy_isSome hr
    have hoid := (keptCopy_mem hx).2
    have hy := (hmem x).mp (hoid ▸ hx)
    rw [hx, ← hoid, hy]
  · intro heq r
    constructor
    · intro hk
      rw [← heq r (keptCopy_mem hk).1, hk]
    · intro hk
      rw [heq r ((h r).mpr (keptCopy_mem hk).1), hk]

end Copies

section Projections

variable {as bs : List EntryRef} {principals : Principals} {rules : MergeRules}

theorem lastTs_congr (h : as.Perm bs) : lastTs as = lastTs bs := by
  have hmax : (as.map fun r => r.entry.ts).max? = (bs.map fun r => r.entry.ts).max? := by
    refine Option.ext fun t => ?_
    rw [List.max?_eq_some_iff, List.max?_eq_some_iff]
    simp only [(h.map fun r => r.entry.ts).mem_iff]
  rw [lastTs, lastTs, hmax]

theorem maxTs_congr (h : as.Perm bs) : maxTs as = maxTs bs := by
  have : RightCommutative (max : ℤ → ℤ → ℤ) := ⟨fun a b c => max_right_comm a b c⟩
  unfold maxTs
  rw [(h.map fun r => r.entry.ts).foldl_eq]

theorem kindsOf_congr (h : as.Perm bs) : kindsOf as = kindsOf bs :=
  sortedKeys_congr fun _ => (h.map fun r => r.entry.kind).mem_iff

theorem all_congr {p : EntryRef → Bool} (h : as.Perm bs) : as.all p = bs.all p := by
  rw [Bool.eq_iff_iff, List.all_eq_true, List.all_eq_true]
  simp only [h.mem_iff]

theorem any_congr {p : EntryRef → Bool} (h : as.Perm bs) : as.any p = bs.any p := by
  rw [Bool.eq_iff_iff, List.any_eq_true, List.any_eq_true]
  simp only [h.mem_iff]

theorem counts_congr {ns ms : List String} (h : ns.Perm ms) : counts ns = counts ms := by
  unfold counts
  rw [sortedKeys_congr fun _ => h.mem_iff]
  simp only [h.count_eq]

theorem prView_congr (h : thread as = thread bs) : prView principals as = prView principals bs := by
  unfold prView
  rw [h]

theorem reportThread_congr {id : String} (h : as.Perm bs) (ht : thread as = thread bs) :
    reportThread principals id as = reportThread principals id bs := by
  unfold reportThread
  rw [ht, h.length_eq, lastTs_congr h, kindsOf_congr h]

theorem reportPr_congr {id : String} (ht : thread as = thread bs) :
    reportPr principals rules id as = reportPr principals rules id bs := by
  unfold reportPr
  rw [ht, prView_congr ht]

theorem boardCard_congr {id : String} (h : as.Perm bs) (ht : thread as = thread bs) :
    boardCard principals rules id as = boardCard principals rules id bs := by
  unfold boardCard
  rw [ht, prView_congr ht, h.length_eq, lastTs_congr h, kindsOf_congr h, hasPatch, hasPatch,
    any_congr h]

theorem thread_filter_congr (hn : (as.map EntryRef.oid).Nodup) (h : as.Perm bs)
    (p : EntryRef → Bool) : thread (as.filter p) = thread (bs.filter p) :=
  thread_congr (hn.sublist (List.filter_sublist.map _)) (h.filter p)

variable {A B : EntrySet} {p : String × List EntryRef → Bool}

theorem byThread_congr {β : Type} {f : String × List EntryRef → β} (h : A.entries.Perm B.entries)
    (hp : ∀ id {as bs}, as.Perm bs → p (id, as) = p (id, bs))
    (hf : ∀ id {as bs}, as.Perm bs → thread as = thread bs → f (id, as) = f (id, bs)) :
    ((byThread A.entries).filter p).map f = ((byThread B.entries).filter p).map f := by
  refine groupBy_filter_congr (fun k => (h.map _).mem_iff) (fun k => hp k (h.filter _)) fun k => ?_
  exact hf k (h.filter _) (thread_filter_congr A.nodup h _)

theorem buildBoard_congr {board : BoardDef} (h : A.entries.Perm B.entries) :
    buildBoard principals rules board A.entries = buildBoard principals rules board B.entries := by
  unfold buildBoard
  rw [byThread_congr h (fun _ _ _ hperm => by simp only [isRun, all_congr hperm])
    (fun _ _ _ hperm ht => boardCard_congr hperm ht)]

theorem buildReport_congr {now : ℤ} (h : A.entries.Perm B.entries)
    (hruns : collectRuns principals A.entries now = collectRuns principals B.entries now) :
    buildReport principals rules A.entries now = buildReport principals rules B.entries now := by
  have hthreads : ((byThread A.entries).filter fun g => !isRun g.2).map
        (fun g => reportThread principals g.1 g.2) =
      ((byThread B.entries).filter fun g => !isRun g.2).map
        fun g => reportThread principals g.1 g.2 :=
    byThread_congr h (fun _ _ _ hperm => by simp only [isRun, all_congr hperm])
      fun _ _ _ hperm ht => reportThread_congr hperm ht
  have hprs : ((byThread A.entries).filter fun g => hasPatch g.2).map
        (fun g => (lastTs g.2, reportPr principals rules g.1 g.2)) =
      ((byThread B.entries).filter fun g => hasPatch g.2).map
        fun g => (lastTs g.2, reportPr principals rules g.1 g.2) :=
    byThread_congr h (fun _ _ _ hperm => by simp only [hasPatch, any_congr hperm])
      fun _ _ _ hperm ht => by simp only [lastTs_congr hperm, reportPr_congr ht]
  unfold buildReport
  dsimp only
  rw [hthreads, hprs, hruns, h.length_eq, (h.filter _).length_eq, (h.filter _).length_eq,
    ((h.filter _).filter _).length_eq, counts_congr (h.map _), counts_congr (h.map _)]

end Projections

section Runs

variable {principals : Principals} {id : String} {n : ℕ} {β : Type} {proj : CiEntry → Option β}
  {entries as bs : List EntryRef} {r : EntryRef} {now : ℤ}

def slot (principals : Principals) (id : String) (n : ℕ) (proj : CiEntry → Option β)
    (r : EntryRef) : Option β :=
  if r.entry.id = id then
    (parseCi principals r).bind fun e => if e.attempt = n then proj e else none
  else none

theorem slot_eq_some {b : β} : slot principals id n proj r = some b ↔
    r.entry.id = id ∧ ∃ e, parseCi principals r = some e ∧ e.attempt = n ∧ proj e = some b := by
  unfold slot
  split
  · rename_i hid
    rw [Option.bind_eq_some_iff]
    simp [hid]
  · rename_i hid
    simp [hid]

theorem filterMap_slot : ((parsedOf principals id entries).filter fun e => e.attempt = n).filterMap
    proj = entries.filterMap (slot principals id n proj) := by
  unfold parsedOf
  rw [List.filterMap_filter, List.filterMap_filterMap, List.filterMap_filter]
  refine List.filterMap_congr fun r _ => ?_
  unfold slot
  split
  · rename_i hid
    rw [if_pos (of_decide_eq_true hid)]
    simp
  · rename_i hid
    rw [if_neg (by simpa using hid)]

def attemptsOf (principals : Principals) (id : String) (entries : List EntryRef) : List ℕ :=
  sortedKeys ((parsedOf principals id entries).map CiEntry.attempt)

def bucketAt (principals : Principals) (id : String) (entries : List EntryRef) (n : ℕ) : Bucket :=
  ⟨n, entries.filterMap (slot principals id n CiEntry.claim?),
    entries.filterMap (slot principals id n CiEntry.result?)⟩

theorem bucketsOf_eq : bucketsOf principals id entries =
    (attemptsOf principals id entries).map (bucketAt principals id entries) := by
  unfold bucketsOf groupBy
  rw [List.map_map]
  refine List.map_congr_left fun n _ => ?_
  dsimp only [Function.comp, bucketAt]
  rw [filterMap_slot, filterMap_slot]

theorem parsedOf_group :
    parsedOf principals id (entries.filter fun r => r.entry.id = id) =
      parsedOf principals id entries := by
  simp [parsedOf]

theorem bucketsOf_group :
    bucketsOf principals id (entries.filter fun r => r.entry.id = id) =
      bucketsOf principals id entries := by
  unfold bucketsOf
  rw [parsedOf_group]

theorem attemptsOf_congr (h : as.Perm bs) :
    attemptsOf principals id as = attemptsOf principals id bs :=
  sortedKeys_congr fun _ => (((h.filter _).filterMap _).map _).mem_iff

theorem runView_congr (h : as.Perm bs)
    (hbuckets : bucketsOf principals id as = bucketsOf principals id bs) :
    runView principals id as now = runView principals id bs now := by
  have hmine := h.filter fun r => r.entry.id = id
  have hempty : (as.filter fun r => r.entry.id = id).isEmpty =
      (bs.filter fun r => r.entry.id = id).isEmpty := by
    rw [Bool.eq_iff_iff, List.isEmpty_iff, List.isEmpty_iff, ← List.length_eq_zero_iff,
      hmine.length_eq, List.length_eq_zero_iff]
  unfold runView
  dsimp only
  rw [hempty, hbuckets, maxTs_congr hmine, (hmine.filter _).length_eq]

theorem mem_collectRuns {v : RunView} : (id, v) ∈ collectRuns principals entries now ↔
    runView principals id (entries.filter fun r => r.entry.id = id) now = some v := by
  simp only [collectRuns, List.mem_filterMap, mem_groupBy, Option.map_eq_some_iff, Prod.exists]
  constructor
  · rintro ⟨k, group, ⟨-, hgroup⟩, w, hw, heq⟩
    cases heq
    rwa [← show group = _ from hgroup]
  · intro h
    refine ⟨id, _, ⟨?_, rfl⟩, v, h, rfl⟩
    by_contra hid
    have hnil : (entries.filter fun r => r.entry.id = id) = [] := by
      refine List.filter_eq_nil_iff.mpr fun r hr hr' => hid ?_
      exact List.mem_map.mpr ⟨r, hr, of_decide_eq_true hr'⟩
    rw [hnil] at h
    simp [runView] at h

theorem runView_eq_of_runs
    (h : collectRuns principals as now = collectRuns principals bs now) :
    runView principals id (as.filter fun r => r.entry.id = id) now =
      runView principals id (bs.filter fun r => r.entry.id = id) now := by
  refine Option.ext fun v => ?_
  rw [← mem_collectRuns, ← mem_collectRuns, h]

theorem bucketAt_eq_of_runs (h : collectRuns principals as now = collectRuns principals bs now)
    (hr : r ∈ as) (hid : r.entry.id = id) {e : CiEntry} (he : parseCi principals r = some e) :
    bucketAt principals id as e.attempt = bucketAt principals id bs e.attempt := by
  have hmem : e ∈ parsedOf principals id as := mem_parsedOf.mpr ⟨r, hr, hid, he⟩
  have hattempt : e.attempt ∈ attemptsOf principals id as :=
    mem_sortedKeys.mpr (List.mem_map_of_mem hmem)
  have hbucket : bucketAt principals id as e.attempt ∈ bucketsOf principals id as := by
    rw [bucketsOf_eq]
    exact List.mem_map_of_mem hattempt
  cases hv : runView principals id (as.filter fun r => r.entry.id = id) now with
  | none =>
    have hmine : r ∈ as.filter fun r => r.entry.id = id :=
      List.mem_filter.mpr ⟨hr, decide_eq_true hid⟩
    unfold runView at hv
    simp only [List.filter_filter, Bool.and_self] at hv
    split at hv
    · rename_i hnil
      rw [List.isEmpty_iff.mp hnil] at hmine
      cases hmine
    · cases hv
  | some v =>
    have hva := runView_attempts hv
    rw [runView_eq_of_runs h] at hv
    have hvb := runView_attempts hv
    rw [bucketsOf_group] at hva hvb
    have hview : (bucketAt principals id as e.attempt).view now ∈
        (bucketsOf principals id bs).map fun b => b.view now := by
      rw [← hvb, hva]
      exact List.mem_map_of_mem hbucket
    obtain ⟨b, hb, hbv⟩ := List.mem_map.mp hview
    rw [bucketsOf_eq] at hb
    obtain ⟨m, -, rfl⟩ := List.mem_map.mp hb
    have hm : m = e.attempt := congrArg AttemptView.attempt hbv
    have hclaims := congrArg AttemptView.claims hbv
    have hresults := congrArg AttemptView.results hbv
    rw [hm] at hclaims hresults
    unfold bucketAt
    rw [Bucket.mk.injEq]
    exact ⟨rfl, hclaims.symm, hresults.symm⟩

end Runs

section Answers

variable {xs ys : EntryLog} {principals : Principals} {r r' : EntryRef} {β : Type}
  {proj : CiEntry → Option β} {oidOf : β → String} {id : String} {n : ℕ}

/-- The verified claims of an attempt are first met in the same order, and so are its results. -/
def OrdersAgree (principals : Principals) (xs ys : EntryLog) : Prop :=
  ∀ r ∈ xs.entries, ∀ r' ∈ xs.entries, r.entry.id = r'.entry.id →
    ∀ e e', parseCi principals r = some e → parseCi principals r' = some e' →
      e.attempt = e'.attempt → e.claim?.isSome = e'.claim?.isSome →
      (firstAt xs.entries r.oid < firstAt xs.entries r'.oid ↔
        firstAt ys.entries r.oid < firstAt ys.entries r'.oid)

/-- Both readings give the same threads, reviews, reports, boards and runs. -/
structure SameAnswers (principals : Principals) (xs ys : List EntryRef) : Prop where
  thread : ∀ p, thread ((EntrySet.ofOccurrences xs).entries.filter p) =
    thread ((EntrySet.ofOccurrences ys).entries.filter p)
  prView : ∀ p, prView principals ((EntrySet.ofOccurrences xs).entries.filter p) =
    prView principals ((EntrySet.ofOccurrences ys).entries.filter p)
  report : ∀ rules now, buildReport principals rules (EntrySet.ofOccurrences xs).entries now =
    buildReport principals rules (EntrySet.ofOccurrences ys).entries now
  board : ∀ rules board, buildBoard principals rules board (EntrySet.ofOccurrences xs).entries =
    buildBoard principals rules board (EntrySet.ofOccurrences ys).entries
  runs : ∀ now, collectRuns principals (EntrySet.ofOccurrences xs).entries now =
    collectRuns principals (EntrySet.ofOccurrences ys).entries now

theorem mem_of_mem_set (hr : r ∈ (EntrySet.ofOccurrences xs.entries).entries) : r ∈ xs.entries :=
  (keptCopy_mem (mem_ofOccurrences.mp hr)).1

theorem parsed_kept {e : CiEntry} (hr : r ∈ xs.entries) (he : parseCi principals r = some e) :
    r ∈ (EntrySet.ofOccurrences xs.entries).entries := by
  unfold parseCi at he
  split at he
  · rename_i hv
    have hl : r.Legitimate := eq_of_beq (Bool.and_eq_true_iff.mp hv).1
    exact mem_ofOccurrences.mpr (keptCopy_legitimate hr hl)
  · cases he

theorem slots_eq (hperm : (EntrySet.ofOccurrences xs.entries).entries.Perm
      (EntrySet.ofOccurrences ys.entries).entries) (horder : OrdersAgree principals xs ys)
    (hproj : ∀ e e' b b', proj e = some b → proj e' = some b' →
      e.claim?.isSome = e'.claim?.isSome) :
    (EntrySet.ofOccurrences xs.entries).entries.filterMap (slot principals id n proj) =
      (EntrySet.ofOccurrences ys.entries).entries.filterMap (slot principals id n proj) := by
  refine filterMap_eq_of_agree hperm ofOccurrences_order ofOccurrences_order
    (fun a b hab hba => absurd (hab.trans hba) (lt_irrefl _)) fun a ha b hb hsa hsb => ?_
  obtain ⟨x, hx⟩ := Option.isSome_iff_exists.mp hsa
  obtain ⟨y, hy⟩ := Option.isSome_iff_exists.mp hsb
  obtain ⟨hida, e, he, hen, hex⟩ := slot_eq_some.mp hx
  obtain ⟨hidb, e', he', hen', hey⟩ := slot_eq_some.mp hy
  exact horder a (mem_of_mem_set ha) b (mem_of_mem_set hb) (hida.trans hidb.symm) e e' he he'
    (hen.trans hen'.symm) (hproj e e' x y hex hey)

theorem claims_alike {e e' : CiEntry} {c c' : CiClaim} (h : e.claim? = some c)
    (h' : e'.claim? = some c') : e.claim?.isSome = e'.claim?.isSome := by
  rw [h, h']
  rfl

theorem results_alike {e e' : CiEntry} {x x' : CiResult} (h : e.result? = some x)
    (h' : e'.result? = some x') : e.claim?.isSome = e'.claim?.isSome := by
  cases e with
  | claim c => cases h
  | result x =>
    cases e' with
    | claim c => cases h'
    | result x' => rfl

theorem collectRuns_congr (now : ℤ) (hperm : (EntrySet.ofOccurrences xs.entries).entries.Perm
      (EntrySet.ofOccurrences ys.entries).entries) (horder : OrdersAgree principals xs ys) :
    collectRuns principals (EntrySet.ofOccurrences xs.entries).entries now =
      collectRuns principals (EntrySet.ofOccurrences ys.entries).entries now := by
  refine groupBy_filterMap_congr (fun k => (hperm.map _).mem_iff) fun k => ?_
  have hbuckets : bucketsOf principals k (EntrySet.ofOccurrences xs.entries).entries =
      bucketsOf principals k (EntrySet.ofOccurrences ys.entries).entries := by
    rw [bucketsOf_eq, bucketsOf_eq, attemptsOf_congr hperm]
    refine List.map_congr_left fun n _ => ?_
    unfold bucketAt
    rw [slots_eq hperm horder fun _ _ _ _ => claims_alike,
      slots_eq hperm horder fun _ _ _ _ => results_alike]
  rw [runView_congr (hperm.filter _) (by rw [bucketsOf_group, bucketsOf_group, hbuckets])]

theorem slots_order (xs : EntryLog)
    (hoid : ∀ r b, slot principals id n proj r = some b → oidOf b = r.oid) :
    ((EntrySet.ofOccurrences xs.entries).entries.filterMap (slot principals id n proj)).Pairwise
      fun a b => firstAt xs.entries (oidOf a) < firstAt xs.entries (oidOf b) := by
  refine List.pairwise_filterMap.mpr (ofOccurrences_order.imp fun {a b} hab x hx y hy => ?_)
  rwa [hoid a x hx, hoid b y hy]

theorem orders_of_slots (hoid : ∀ r b, slot principals id n proj r = some b → oidOf b = r.oid)
    (heq : (EntrySet.ofOccurrences xs.entries).entries.filterMap (slot principals id n proj) =
      (EntrySet.ofOccurrences ys.entries).entries.filterMap (slot principals id n proj))
    (hr : r ∈ (EntrySet.ofOccurrences xs.entries).entries)
    (hr' : r' ∈ (EntrySet.ofOccurrences xs.entries).entries) {b b' : β}
    (hb : slot principals id n proj r = some b) (hb' : slot principals id n proj r' = some b') :
    firstAt xs.entries r.oid < firstAt xs.entries r'.oid ↔
      firstAt ys.entries r.oid < firstAt ys.entries r'.oid := by
  have hx := slots_order xs hoid
  have hy := slots_order ys hoid
  rw [← heq] at hy
  rw [← hoid r b hb, ← hoid r' b' hb']
  exact pairwise_agree hx hy (fun _ => lt_irrefl _) (fun _ => lt_irrefl _)
    (fun _ _ h => h.not_gt) (fun _ _ h => h.not_gt)
    (List.mem_filterMap.mpr ⟨r, hr, hb⟩) (List.mem_filterMap.mpr ⟨r', hr', hb'⟩)

theorem slot_claim_oid {b : CiClaim} (h : slot principals id n CiEntry.claim? r = some b) :
    b.oid = r.oid := by
  obtain ⟨-, e, he, -, hproj⟩ := slot_eq_some.mp h
  cases e with
  | claim c =>
    cases hproj
    exact (parseClaim_spec (parseCi_claim he)).oid
  | result x => cases hproj

theorem slot_result_oid {b : CiResult} (h : slot principals id n CiEntry.result? r = some b) :
    b.oid = r.oid := by
  obtain ⟨-, e, he, -, hproj⟩ := slot_eq_some.mp h
  cases e with
  | claim c => cases hproj
  | result x =>
    cases hproj
    exact (parseResult_spec (parseCi_result he)).oid

theorem ordersAgree_of_runs {now : ℤ}
    (h : collectRuns principals (EntrySet.ofOccurrences xs.entries).entries now =
      collectRuns principals (EntrySet.ofOccurrences ys.entries).entries now) :
    OrdersAgree principals xs ys := by
  intro r hr r' hr' hid e e' he he' hattempt hkind
  have hkept := parsed_kept hr he
  have hkept' := parsed_kept hr' he'
  have hbucket := bucketAt_eq_of_runs h hkept rfl he
  have hslot : ∀ {β : Type} {proj : CiEntry → Option β} {b : β}, proj e = some b →
      slot principals r.entry.id e.attempt proj r = some b :=
    fun hb => slot_eq_some.mpr ⟨rfl, e, he, rfl, hb⟩
  have hslot' : ∀ {β : Type} {proj : CiEntry → Option β} {b : β}, proj e' = some b →
      slot principals r.entry.id e.attempt proj r' = some b :=
    fun hb => slot_eq_some.mpr ⟨hid.symm, e', he', hattempt.symm, hb⟩
  cases e with
  | claim c =>
    cases e' with
    | claim c' =>
      exact orders_of_slots (fun _ _ => slot_claim_oid) (congrArg Bucket.claims hbucket) hkept
        hkept' (hslot rfl) (hslot' rfl)
    | result x' => cases hkind
  | result x =>
    cases e' with
    | claim c' => cases hkind
    | result x' =>
      exact orders_of_slots (fun _ _ => slot_result_oid) (congrArg Bucket.results hbucket) hkept
        hkept' (hslot rfl) (hslot' rfl)

theorem set_perm_of_thread (h : thread ((EntrySet.ofOccurrences xs.entries).entries.filter
    fun _ => true) = thread ((EntrySet.ofOccurrences ys.entries).entries.filter fun _ => true)) :
    (EntrySet.ofOccurrences xs.entries).entries.Perm
      (EntrySet.ofOccurrences ys.entries).entries := by
  rw [List.filter_true, List.filter_true] at h
  have hx : (thread (EntrySet.ofOccurrences xs.entries).entries).Perm _ := thread_perm
  rw [h] at hx
  exact hx.symm.trans thread_perm

end Answers

/-- The same occurrences, in any order and any number of times. -/
theorem aggregation_order_iff (principals : Principals) (xs ys : EntryLog)
    (h : ∀ r, r ∈ xs.entries ↔ r ∈ ys.entries) :
    SameAnswers principals xs.entries ys.entries ↔
      PrincipalsAgree xs ys ∧ OrdersAgree principals xs ys := by
  rw [← ofOccurrences_perm_iff h]
  constructor
  · intro hsame
    exact ⟨set_perm_of_thread (hsame.thread _), ordersAgree_of_runs (hsame.runs 0)⟩
  · rintro ⟨hperm, horder⟩
    have hthread := thread_filter_congr (EntrySet.ofOccurrences xs.entries).nodup hperm
    have hruns := fun now => collectRuns_congr now hperm horder
    exact ⟨hthread, fun p => prView_congr (hthread p), fun _ now => buildReport_congr hperm
      (hruns now), fun _ _ => buildBoard_congr hperm, hruns⟩

section Examples

/-- A claim found in the inbox of someone else, and in that of its actor. -/
def plantedClaim : EntryRef := { claimEntry "k1" "ann" 0 10 1 with principal := "eve" }

def plantedFirst : EntryLog where
  entries := [plantedClaim, claimEntry "k1" "ann" 0 10 1]
  addressed := by simp [plantedClaim, claimEntry, ciEntry]

def plantedLast : EntryLog where
  entries := [claimEntry "k1" "ann" 0 10 1, plantedClaim, claimEntry "k1" "ann" 0 10 1]
  addressed := by simp [plantedClaim, claimEntry, ciEntry]

theorem aggregation_order_planted :
    SameAnswers trusting plantedFirst.entries plantedLast.entries := by
  have hoid : ∀ r ∈ plantedFirst.entries, r.oid = "k1" := by
    simp [plantedFirst, plantedClaim, claimEntry, ciEntry]
  have hsame : ∀ r, r ∈ plantedFirst.entries ↔ r ∈ plantedLast.entries := by
    intro r
    simp only [plantedFirst, plantedLast, List.mem_cons, List.not_mem_nil, or_false]
    tauto
  refine (aggregation_order_iff trusting plantedFirst plantedLast hsame).mpr ⟨fun r hr => ?_, ?_⟩
  · refine .inl ⟨claimEntry "k1" "ann" 0 10 1, by simp [plantedFirst], ?_, rfl⟩
    rw [hoid r hr]
    rfl
  · intro r hr r' hr' _ _ _ _ _ _ _
    rw [hoid r hr, hoid r' hr']
    exact iff_of_false (lt_irrefl _) (lt_irrefl _)

def taskClaim (oid actor task : String) : EntryRef :=
  ciEntry oid "ci_claim" actor 0 [("attempt", .int 1), ("commit", .string "c0"),
    ("ref", .string "refs/heads/main"), ("task", .string task), ("ttl", .int 10)]

def lintFirst : EntryLog where
  entries := [taskClaim "k1" "ann" "lint", taskClaim "k2" "bob" "test"]
  addressed := by simp [taskClaim, ciEntry]

def testFirst : EntryLog where
  entries := [taskClaim "k2" "bob" "test", taskClaim "k1" "ann" "lint"]
  addressed := by simp [taskClaim, ciEntry]

/-- The header of a run with expired claims only follows the order of reading. -/
theorem aggregation_depends_on_order :
    ¬ (∀ principals (xs ys : EntryLog), xs.entries.Perm ys.entries →
      SameAnswers principals xs.entries ys.entries) ∧
    (collectRuns trusting (EntrySet.ofOccurrences lintFirst.entries).entries 100).map
      (fun v => v.2.task) = ["lint"] ∧
    (collectRuns trusting (EntrySet.ofOccurrences testFirst.entries).entries 100).map
      (fun v => v.2.task) = ["test"] := by
  have hlint : (collectRuns trusting (EntrySet.ofOccurrences lintFirst.entries).entries 100).map
      (fun v => v.2.task) = ["lint"] := by decide +kernel
  have htest : (collectRuns trusting (EntrySet.ofOccurrences testFirst.entries).entries 100).map
      (fun v => v.2.task) = ["test"] := by decide +kernel
  refine ⟨fun hall => ?_, hlint, htest⟩
  have hruns := (hall trusting lintFirst testFirst (List.Perm.swap _ _ [])).runs 100
  rw [hruns, htest] at hlint
  revert hlint
  decide

end Examples

end Walgit.Collab
