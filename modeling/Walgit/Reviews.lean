import Walgit.CiSettled
import Walgit.Threads
import Walgit.Collab

/-!
# The merge rule

The base of a review is what the last patch of the thread names, whoever wrote
it, and its approvals are counted by the review. The rule holds what it
promises exactly where these agree with the verified patches and with the
people.
-/

namespace Walgit.Collab

open Ci

section Folds

variable {principals : Principals} {r : EntryRef} {pr : PrView} {entries ordered : List EntryRef}

def patchBase (r : EntryRef) : Option String :=
  if r.entry.kind = "patch" then r.entry.refs.bind EntryRefs.base else none

def lastBase (ordered : List EntryRef) : Option String := (ordered.filterMap patchBase).getLast?

def isApprove (principals : Principals) (r : EntryRef) : Bool :=
  r.entry.kind == "review" && strField r "decision" == some "approve" && r.isVerified principals

def approvalsOf (principals : Principals) (entries : List EntryRef) : List EntryRef :=
  entries.filter fun r => isApprove principals r && !isAgent r.entry.actor

def approversOf (principals : Principals) (entries : List EntryRef) : List String :=
  ((approvalsOf principals entries).map fun r => r.entry.actor).dedup

def verifiedBase (principals : Principals) (entries : List EntryRef) : Option String :=
  lastBase ((thread entries).filter fun r => r.isVerified principals)

theorem lastBase_cons : lastBase (r :: ordered) = (lastBase ordered).or (patchBase r) := by
  unfold lastBase
  rw [List.filterMap_cons]
  cases patchBase r with
  | none => rw [Option.or_none]
  | some b =>
    rw [List.getLast?_cons]
    cases (ordered.filterMap patchBase).getLast? <;> rfl

theorem takePatch_base : (pr.takePatch r).base = (patchBase r).or pr.base := by
  unfold PrView.takePatch patchBase
  cases r.entry.refs with
  | none => simp
  | some rs => by_cases hkind : r.entry.kind = "patch" <;> simp [hkind]

theorem takePatch_approvals : (pr.takePatch r).humanApprovals = pr.humanApprovals := by
  unfold PrView.takePatch
  split
  · split <;> rfl
  · rfl

theorem take_base : (pr.take principals r).base = (patchBase r).or pr.base := by
  rw [← takePatch_base]
  unfold PrView.take
  dsimp only
  split <;> split <;> rfl

theorem decision_approve : (reviewOf r).decision = "approve" ↔
    strField r "decision" = some "approve" := by
  unfold reviewOf
  cases strField r "decision" <;> simp

theorem take_approvals : (pr.take principals r).humanApprovals =
    pr.humanApprovals ++ if isApprove principals r then [reviewOf r] else [] := by
  unfold PrView.take isApprove
  by_cases hkind : r.entry.kind = "review" <;>
    by_cases hdecision : strField r "decision" = some "approve" <;>
    cases hv : r.isVerified principals <;>
    simp [hkind, hdecision, decision_approve, takePatch_approvals]

theorem foldl_base : (ordered.foldl (PrView.take principals) pr).base =
    (lastBase ordered).or pr.base := by
  induction ordered generalizing pr with
  | nil => rfl
  | cons r ordered ih => rw [List.foldl_cons, ih, take_base, lastBase_cons, Option.or_assoc]

theorem foldl_approvals : (ordered.foldl (PrView.take principals) pr).humanApprovals =
    pr.humanApprovals ++ (ordered.filter (isApprove principals)).map reviewOf := by
  induction ordered generalizing pr with
  | nil => simp
  | cons r ordered ih =>
    rw [List.foldl_cons, ih, take_approvals, List.append_assoc, List.filter_cons]
    split <;> rfl

theorem prView_base : (prView principals entries).base = lastBase (thread entries) := by
  change ((thread entries).foldl (PrView.take principals) _).base = _
  rw [foldl_base, Option.or_none]

theorem countedApprovals_length : (countedApprovals (prView principals entries)).length =
    (approvalsOf principals entries).length := by
  change (List.filter _ ((thread entries).foldl (PrView.take principals) _).humanApprovals).length =
    _
  rw [foldl_approvals, List.nil_append, List.filter_map, List.length_map, List.filter_filter,
    (thread_perm.filter _).length_eq, approvalsOf]
  refine congrArg List.length (List.filter_congr fun r _ => ?_)
  cases happrove : isApprove principals r with
  | false => simp
  | true =>
    have hdecision : strField r "decision" = some "approve" := by
      simp only [isApprove, Bool.and_eq_true, beq_iff_eq] at happrove
      exact happrove.1.2
    simp [reviewOf, hdecision]

theorem allowed_iff {rules : MergeRules} : (mergeRuleEval rules pr).allowed = true ↔
    (rules.protects pr.base = true →
      rules.requireHumanApprovals ≤ (countedApprovals pr).length) := by
  unfold mergeRuleEval
  by_cases hbase : rules.protects pr.base = true
  · by_cases hcount : rules.requireHumanApprovals ≤ (countedApprovals pr).length <;>
      simp [hbase, hcount]
  · simp [hbase]

end Folds

section Rule

variable {principals : Principals} {rules : MergeRules} {entries added : List EntryRef}

def mergeAllowed (principals : Principals) (rules : MergeRules) (entries : List EntryRef) : Bool :=
  (mergeRuleEval rules (prView principals entries)).allowed

/-- A merge into a protected base has enough people behind it, and what is not verified does not
bring a merge about. -/
structure MergeRuleSound (principals : Principals) (entries added : List EntryRef)
    (rules : MergeRules) : Prop where
  approved : mergeAllowed principals rules entries = true →
    rules.protects (verifiedBase principals entries) = true →
      rules.requireHumanApprovals ≤ (approversOf principals entries).length
  kept : mergeAllowed principals rules entries = false →
    mergeAllowed principals rules (entries ++ added) = false

/-- If a base is named before, one that begins with it is named after. -/
def Extends (before after : Option String) : Prop :=
  ∀ b ∈ before, ∃ b' ∈ after, b.toList <+: b'.toList

theorem mergeAllowed_iff : mergeAllowed principals rules entries = true ↔
    (rules.protects (lastBase (thread entries)) = true →
      rules.requireHumanApprovals ≤ (approvalsOf principals entries).length) := by
  rw [mergeAllowed, allowed_iff, prView_base, countedApprovals_length]

theorem mergeAllowed_eq_false : mergeAllowed principals rules entries = false ↔
    rules.protects (lastBase (thread entries)) = true ∧
      (approvalsOf principals entries).length < rules.requireHumanApprovals := by
  rw [← Bool.not_eq_true, mergeAllowed_iff, Classical.not_imp, not_le]

theorem protects_iff {base : Option String} : rules.protects base = true ↔
    ∃ b ∈ base, ∃ p ∈ rules.protect, p.toList <+: b.toList := by
  simp only [MergeRules.protects, Option.any_eq_true, List.any_eq_true, Bool.or_eq_true,
    beq_iff_eq, List.isPrefixOf_iff_prefix]
  constructor
  · rintro ⟨b, hb, p, hp, rfl | hprefix⟩
    · exact ⟨p, hb, p, hp, List.prefix_rfl⟩
    · exact ⟨b, hb, p, hp, hprefix⟩
  · rintro ⟨b, hb, p, hp, hprefix⟩
    exact ⟨b, hb, p, hp, .inr hprefix⟩

theorem Extends.protects {before after : Option String} (h : Extends before after)
    (hbefore : rules.protects before = true) : rules.protects after = true := by
  obtain ⟨b, hb, p, hp, hprefix⟩ := protects_iff.mp hbefore
  obtain ⟨b', hb', hext⟩ := h b hb
  exact protects_iff.mpr ⟨b', hb', p, hp, hprefix.trans hext⟩

theorem extends_of_protects {before after : Option String} (n : ℕ)
    (h : ∀ b ∈ before, (MergeRules.mk [b] n).protects after = true) : Extends before after := by
  intro b hb
  obtain ⟨b', hb', p, hp, hprefix⟩ := protects_iff.mp (h b hb)
  rw [List.mem_singleton.mp hp] at hprefix
  exact ⟨b', hb', hprefix⟩

theorem approvalsOf_append (h : ∀ r ∈ added, r.isVerified principals = false) :
    approvalsOf principals (entries ++ added) = approvalsOf principals entries := by
  have hnone : approvalsOf principals added = [] := by
    refine List.filter_eq_nil_iff.mpr fun r hr => ?_
    simp [isApprove, h r hr]
  unfold approvalsOf at hnone ⊢
  rw [List.filter_append, hnone, List.append_nil]

def ApproveOnce (principals : Principals) (entries : List EntryRef) : Prop :=
  ((approvalsOf principals entries).map fun r => r.entry.actor).Nodup

theorem approveOnce_iff : ApproveOnce principals entries ↔
    (approvalsOf principals entries).length ≤ (approversOf principals entries).length := by
  unfold ApproveOnce approversOf
  constructor
  · intro hnodup
    rw [hnodup.dedup, List.length_map]
  · intro hle
    rw [← List.dedup_eq_self]
    refine (List.dedup_sublist _).eq_of_length_le ?_
    rwa [List.length_map]

theorem approved_iff : (∀ rules : MergeRules, mergeAllowed principals rules entries = true →
      rules.protects (verifiedBase principals entries) = true →
        rules.requireHumanApprovals ≤ (approversOf principals entries).length) ↔
    Extends (verifiedBase principals entries) (lastBase (thread entries)) ∧
      ((verifiedBase principals entries).isSome = true → ApproveOnce principals entries) := by
  constructor
  · intro h
    refine ⟨extends_of_protects ((approversOf principals entries).length + 1) fun b hb => ?_,
      fun hsome => approveOnce_iff.mpr ?_⟩
    · -- more approvals are asked for than there are people
      by_contra hfree
      have hallowed : mergeAllowed principals
          ⟨[b], (approversOf principals entries).length + 1⟩ entries = true :=
        mergeAllowed_iff.mpr fun hbase => absurd hbase hfree
      have hle := h _ hallowed (protects_iff.mpr ⟨b, hb, b, List.mem_singleton_self b,
        List.prefix_rfl⟩)
      exact absurd hle (Nat.not_succ_le_self _)
    · -- every base is protected, and all approvals are needed
      obtain ⟨b, hb⟩ := Option.isSome_iff_exists.mp hsome
      have hallowed : mergeAllowed principals
          ⟨[""], (approvalsOf principals entries).length⟩ entries = true :=
        mergeAllowed_iff.mpr fun _ => le_rfl
      exact h _ hallowed (protects_iff.mpr ⟨b, hb, "", List.mem_singleton_self _,
        List.nil_prefix⟩)
  · rintro ⟨hext, honce⟩ rules hallowed hbase
    have hcount := mergeAllowed_iff.mp hallowed (hext.protects hbase)
    obtain ⟨b, hb, -⟩ := protects_iff.mp hbase
    exact hcount.trans (approveOnce_iff.mp (honce (Option.isSome_of_mem hb)))

theorem kept_iff (h : ∀ r ∈ added, r.isVerified principals = false) :
    (∀ rules : MergeRules, mergeAllowed principals rules entries = false →
      mergeAllowed principals rules (entries ++ added) = false) ↔
    Extends (lastBase (thread entries)) (lastBase (thread (entries ++ added))) := by
  constructor
  · intro hkept
    refine extends_of_protects ((approvalsOf principals entries).length + 1) fun b hb => ?_
    have hdenied : mergeAllowed principals
        ⟨[b], (approvalsOf principals entries).length + 1⟩ entries = false :=
      mergeAllowed_eq_false.mpr ⟨protects_iff.mpr ⟨b, hb, b, List.mem_singleton_self b,
        List.prefix_rfl⟩, Nat.lt_succ_self _⟩
    exact (mergeAllowed_eq_false.mp (hkept _ hdenied)).1
  · intro hext rules hdenied
    obtain ⟨hbase, hfew⟩ := mergeAllowed_eq_false.mp hdenied
    rw [mergeAllowed_eq_false, approvalsOf_append h]
    exact ⟨hext.protects hbase, hfew⟩

end Rule

theorem merge_rule_sound_iff (principals : Principals) (entries added : List EntryRef)
    (h : ∀ r ∈ added, r.isVerified principals = false) :
    (∀ rules, MergeRuleSound principals entries added rules) ↔
      Extends (verifiedBase principals entries) (lastBase (thread entries)) ∧
      ((verifiedBase principals entries).isSome = true → ApproveOnce principals entries) ∧
      Extends (lastBase (thread entries)) (lastBase (thread (entries ++ added))) := by
  rw [← and_assoc, ← approved_iff, ← kept_iff h]
  constructor
  · exact fun hsound => ⟨fun rules => (hsound rules).approved, fun rules => (hsound rules).kept⟩
  · exact fun ⟨happroved, hkept⟩ rules => ⟨happroved rules, hkept rules⟩

section Examples

def prEntry (oid kind actor : String) (ts : ℤ) (base : Option String)
    (body : List (String × Json)) : EntryRef :=
  ⟨oid, actor, ⟨1, kind, "pr-1", actor, ts, "", some ⟨base, none⟩, .object body, ""⟩⟩

def patchEntry (oid actor : String) (ts : ℤ) (base : String) : EntryRef :=
  prEntry oid "patch" actor ts (some base) []

def approveEntry (oid actor : String) (ts : ℤ) : EntryRef :=
  prEntry oid "review" actor ts none [("decision", .string "approve")]

def EntryRef.plantedIn (r : EntryRef) (principal : String) : EntryRef :=
  { r with principal := principal }

/-- A review approved by two people, and a planted approval. -/
theorem merge_rule_sound_reviewed :
    ((approveEntry "a3" "dan" 3).plantedIn "eve").isVerified trusting = false ∧
    ∀ rules, MergeRuleSound trusting
      [patchEntry "p1" "ann" 0 "refs/heads/main", approveEntry "a1" "bob" 1,
        approveEntry "a2" "cyd" 2] [(approveEntry "a3" "dan" 3).plantedIn "eve"] rules := by
  have hbase : verifiedBase trusting [patchEntry "p1" "ann" 0 "refs/heads/main",
      approveEntry "a1" "bob" 1, approveEntry "a2" "cyd" 2] = some "refs/heads/main" := by
    decide +kernel
  have hlast : lastBase (thread [patchEntry "p1" "ann" 0 "refs/heads/main",
      approveEntry "a1" "bob" 1, approveEntry "a2" "cyd" 2]) = some "refs/heads/main" := by
    decide +kernel
  refine ⟨by decide, (merge_rule_sound_iff trusting _ _ (by decide)).mpr ⟨?_, fun _ => ?_, ?_⟩⟩
  · rw [hbase, hlast]
    exact fun b hb => ⟨b, hb, List.prefix_rfl⟩
  · unfold ApproveOnce
    decide +kernel
  · rw [hlast]
    exact fun b hb => ⟨b, by cases hb; decide +kernel, List.prefix_rfl⟩

/-- One person approves twice; and a planted patch names another base. -/
theorem merge_rule_unsound :
    ¬ (mergeAllowed trusting ⟨["refs/heads/main"], 2⟩
        [patchEntry "p1" "ann" 0 "refs/heads/main", approveEntry "a1" "bob" 1,
          approveEntry "a2" "bob" 2] = true →
      (MergeRules.mk ["refs/heads/main"] 2).protects (verifiedBase trusting
        [patchEntry "p1" "ann" 0 "refs/heads/main", approveEntry "a1" "bob" 1,
          approveEntry "a2" "bob" 2]) = true →
      2 ≤ (approversOf trusting [patchEntry "p1" "ann" 0 "refs/heads/main",
        approveEntry "a1" "bob" 1, approveEntry "a2" "bob" 2]).length) ∧
    ((patchEntry "p2" "dan" 3 "refs/heads/topic").plantedIn "eve").isVerified trusting = false ∧
    mergeAllowed trusting ⟨["refs/heads/main"], 1⟩ [patchEntry "p1" "ann" 0 "refs/heads/main"] =
      false ∧
    mergeAllowed trusting ⟨["refs/heads/main"], 1⟩ ([patchEntry "p1" "ann" 0 "refs/heads/main"] ++
      [(patchEntry "p2" "dan" 3 "refs/heads/topic").plantedIn "eve"]) = true := by
  decide +kernel

end Examples

end Walgit.Collab
