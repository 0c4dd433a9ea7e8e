import Walgit.Actors
import Walgit.Globs
import Walgit.Receive

/-!
# What the policy denies

The protect rules in words of their own: a rule stands in the way of an update
when its refs and its principals list it, its bypass list does not name the
principal, and it restricts what the update does. The evaluation denies exactly
those updates, and one more rule only denies more.
-/

namespace Walgit.Policy

section Spec

/-- Some inclusion, or none at all, and no exclusion. -/
def Listed (included excluded : String → Prop) (patterns : List String) : Prop :=
  ((∀ p ∈ patterns, ∃ rest, p = "^" ++ rest) ∨
    ∃ p ∈ patterns, (∀ rest, p ≠ "^" ++ rest) ∧ included p) ∧
  ∀ rest, "^" ++ rest ∈ patterns → ¬ excluded rest

def ListsRef (patterns : List String) (name : String) : Prop :=
  Listed (fun p => bytesOf name ∈ crossing (bytesOf p))
    (fun p => bytesOf name ∈ crossing (bytesOf p)) patterns

def ListsActor (groups : List Group) (patterns : List String) (principal : String) : Prop :=
  Listed (Admitted groups principal) (fun p => MissingGroup groups p ∨ Admitted groups principal p)
    patterns

/-- The operations a rule names; one that names none restricts all four. -/
def Names (protect : ProtectEffect) (op : Restrict) : Prop :=
  protect.restricts = none ∨ ∃ ops, protect.restricts = some ops ∧ op ∈ ops

/-- An update that is not a fast-forward, or retargets a tag, is also a force-push. -/
def Restricts (protect : ProtectEffect) (isForce : RefUpdate → Bool) (u : RefUpdate) : Prop :=
  (u.oldOid = "" ∧ u.newOid ≠ "" ∧ Names protect .create) ∨
  (u.oldOid ≠ "" ∧ u.newOid = "" ∧ Names protect .delete) ∨
  (u.oldOid ≠ "" ∧ u.newOid ≠ "" ∧ u.oldOid ≠ u.newOid ∧
    (Names protect .update ∨
      Names protect .forcePush ∧ (isForce u = true ∨ ∃ rest, u.name = "refs/tags/" ++ rest)))

def Denied (policy : RepoPolicy) (principal : String) (isForce : RefUpdate → Bool)
    (u : RefUpdate) : Prop :=
  ∃ r ∈ policy.rules, ∃ protect, r.protect = some protect ∧
    ListsRef r.scope.refs u.name ∧ ListsActor policy.groups r.scope.principals principal ∧
    ¬ (protect.bypass ≠ [] ∧ ListsActor policy.groups protect.bypass principal) ∧
    Restricts protect isForce u

end Spec

section Evaluation

variable {policy : RepoPolicy} {principal : String} {isForce : RefUpdate → Bool} {u : RefUpdate}
  {groups : List Group} {patterns : List String}

theorem stripPrefix?_eq_none {pre s : String} :
    stripPrefix? pre s = none ↔ ∀ rest, s ≠ pre ++ rest := by
  rw [Option.eq_none_iff_forall_ne_some]
  exact forall_congr' fun rest => not_congr stripPrefix?_eq_some

theorem listMatches_listed {included excluded : String → Bool} :
    listMatches included excluded patterns = true ↔
      Listed (fun p => included p = true) (fun p => excluded p = true) patterns := by
  rw [listMatches_iff, Listed]
  simp only [Option.ne_none_iff_exists', stripPrefix?_eq_some, stripPrefix?_eq_none]
  refine and_congr_right fun _ => ⟨fun h rest hmem => ?_, fun h p hp rest hrest => ?_⟩
  · simp [h _ hmem rest rfl]
  · exact Bool.eq_false_of_not_eq_true (h rest (hrest ▸ hp))

theorem listed_nil {included excluded : String → Prop} : Listed included excluded [] := by
  simp [Listed]

theorem mem_restrictSet {protect : ProtectEffect} {op : Restrict} :
    op ∈ restrictSet protect ↔ Names protect op := by
  unfold restrictSet Names
  cases protect.restricts with
  | none => cases op <;> simp
  | some ops => simp

theorem isTag_iff {name : String} : isTag name = true ↔ ∃ rest, name = "refs/tags/" ++ rest := by
  rw [isTag, Option.isSome_iff_exists]
  exact exists_congr fun rest => stripPrefix?_eq_some

theorem patternListMatches_iff {name : String} :
    patternListMatches patterns name = true ↔ ListsRef patterns name := by
  simp only [patternListMatches, listMatches_listed, globMatch_eq, globBytes_iff]
  exact Iff.rfl

theorem actorListMatches_iff :
    actorListMatches patterns principal groups = true ↔ ListsActor groups patterns principal := by
  simp only [actorListMatches, listMatches_listed, admits_iff, excludes_iff]
  exact Iff.rfl

theorem ruleMatches_iff {m : Match} {name : String} : ruleMatches m name principal groups = true ↔
    ListsRef m.refs name ∧ ListsActor groups m.principals principal := by
  have hrefs : m.refs = [] → ListsRef m.refs name := by
    intro h
    rw [h]
    exact listed_nil
  have hprincipals : m.principals = [] → ListsActor groups m.principals principal := by
    intro h
    rw [h]
    exact listed_nil
  simp only [ruleMatches, Bool.and_eq_true, Bool.or_eq_true, List.isEmpty_iff,
    patternListMatches_iff, actorListMatches_iff, or_iff_right_of_imp hrefs,
    or_iff_right_of_imp hprincipals]

theorem bypasses_iff {protect : ProtectEffect} : bypasses protect principal groups = true ↔
    protect.bypass ≠ [] ∧ ListsActor groups protect.bypass principal := by
  simp [bypasses, actorListMatches_iff]

theorem restrictHit_update {protect : ProtectEffect} {force : Bool} :
    restrictHit (restrictSet protect) .update force = true ↔
      Names protect .update ∨ Names protect .forcePush ∧ force = true := by
  cases force with
  | false => simp [restrictHit, mem_restrictSet]
  | true => simp [restrictHit, mem_restrictSet, or_comm]

theorem restrictHit_iff {protect : ProtectEffect} :
    (classify u.oldOid u.newOid ≠ .noOp ∧
      restrictHit (restrictSet protect) (classify u.oldOid u.newOid)
        (isForce u || isTag u.name) = true) ↔ Restricts protect isForce u := by
  unfold classify Restricts
  cases ho : u.oldOid.isEmpty with
  | true =>
    rw [String.isEmpty_iff] at ho
    cases hn : u.newOid.isEmpty with
    | true =>
      rw [String.isEmpty_iff] at hn
      simp [ho, hn]
    | false =>
      rw [← Bool.not_eq_true, String.isEmpty_iff] at hn
      simp [ho, hn, restrictHit, mem_restrictSet]
  | false =>
    rw [← Bool.not_eq_true, String.isEmpty_iff] at ho
    cases hn : u.newOid.isEmpty with
    | true =>
      rw [String.isEmpty_iff] at hn
      simp [ho, hn, restrictHit, mem_restrictSet]
    | false =>
      rw [← Bool.not_eq_true, String.isEmpty_iff] at hn
      by_cases heq : u.oldOid = u.newOid
      · simp [hn, heq]
      · simp [ho, hn, heq, restrictHit_update, isTag_iff]

theorem rejects_iff {r : Rule} {op : RefOp} {force : Bool} :
    r.rejects groups principal u.name op force = true ↔ ∃ protect, r.protect = some protect ∧
      ListsRef r.scope.refs u.name ∧ ListsActor groups r.scope.principals principal ∧
      ¬ (protect.bypass ≠ [] ∧ ListsActor groups protect.bypass principal) ∧
      restrictHit (restrictSet protect) op force = true := by
  unfold Rule.rejects
  cases r.protect with
  | none => simp
  | some protect =>
    simp [ruleMatches_iff, ← bypasses_iff, and_assoc]

theorem denied_iff :
    (denyReason policy principal isForce u).isSome = true ↔ Denied policy principal isForce u := by
  unfold denyReason Denied
  simp only [← restrictHit_iff]
  by_cases hop : classify u.oldOid u.newOid = .noOp
  · simp [hop]
  · simp [hop, List.find?_isSome, rejects_iff]

instance : DecidablePred (Denied policy principal isForce) := fun _ => decidable_of_iff _ denied_iff

theorem Denied.mono {rules : List Rule} (h : Denied policy principal isForce u)
    (hr : ∀ r ∈ policy.rules, r ∈ rules) :
    Denied { policy with rules := rules } principal isForce u := by
  obtain ⟨r, hmem, hdenies⟩ := h
  exact ⟨r, hr r hmem, hdenies⟩

theorem verdictOf_denied : (∃ msg, verdictOf (denyReason policy principal isForce) u = .error msg) ↔
    Denied policy principal isForce u := by
  rw [← denied_iff, verdictOf]
  cases denyReason policy principal isForce u <;> simp

theorem isNone_denyReason :
    (denyReason policy principal isForce u).isNone =
      decide (¬ Denied policy principal isForce u) := by
  rw [Bool.eq_iff_iff, decide_eq_true_eq, ← denied_iff]
  cases denyReason policy principal isForce u <;> simp

theorem any_denied {us : List RefUpdate} :
    ((us.map fun u => (u.name, verdictOf (denyReason policy principal isForce) u)).any
      fun r => !isOk r.2) = true ↔ ∃ u ∈ us, Denied policy principal isForce u := by
  simp only [List.any_map, List.any_eq_true, Function.comp_apply, ← verdictOf_denied]
  refine exists_congr fun u => and_congr_right fun _ => ?_
  cases verdictOf (denyReason policy principal isForce) u <;> simp [isOk]

theorem evaluate_publish (txn : RefTransaction) :
    (evaluate (denyReason policy principal isForce) txn).publish.updates =
      if txn.atomic = true ∧ ∃ u ∈ txn.updates, Denied policy principal isForce u then []
      else txn.updates.filter fun u => ¬ Denied policy principal isForce u := by
  simp only [evaluate, Bool.and_eq_true, any_denied, isNone_denyReason]
  split <;> rfl

end Evaluation

/-- One line per update, an error exactly for those denied; published are the others, or nothing of
an atomic push; and what some rules deny, more rules deny. -/
theorem policy_evaluation (policy : RepoPolicy) (principal : String) (isForce : RefUpdate → Bool)
    (txn : RefTransaction) :
    let e := evaluate (denyReason policy principal isForce) txn
    e.perRef.map Prod.fst = txn.updates.map RefUpdate.name ∧
    (∀ (i : ℕ) (u : RefUpdate), txn.updates[i]? = some u →
      ((∃ msg, e.perRef[i]? = some (u.name, .error msg)) ↔ Denied policy principal isForce u)) ∧
    (e.publish.updates =
      if txn.atomic = true ∧ ∃ u ∈ txn.updates, Denied policy principal isForce u then []
      else txn.updates.filter fun u => ¬ Denied policy principal isForce u) ∧
    ∀ rules, (∀ r ∈ policy.rules, r ∈ rules) → ∀ u, Denied policy principal isForce u →
      let more := denyReason { policy with rules := rules } principal isForce
      Denied { policy with rules := rules } principal isForce u ∧
        u ∉ (evaluate more txn).publish.updates := by
  have hper : (evaluate (denyReason policy principal isForce) txn).perRef =
      txn.updates.map fun u => (u.name, verdictOf (denyReason policy principal isForce) u) := by
    simp only [evaluate]
    split <;> rfl
  refine ⟨?_, fun i u hu => ?_, evaluate_publish txn, fun rules hr u hd => ⟨hd.mono hr, ?_⟩⟩
  · rw [hper, List.map_map]
    rfl
  · rw [← verdictOf_denied, hper, List.getElem?_map, hu]
    simp
  · rw [evaluate_publish]
    split
    · exact List.not_mem_nil
    · simp [hd.mono hr]

end Walgit.Policy
