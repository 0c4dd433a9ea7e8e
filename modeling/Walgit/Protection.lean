import Walgit.Linear
import Walgit.Policy
import Walgit.Receive

/-!
# Branch protection

The policy classifies an update by the old value that the client claims; the
publisher compares that value with the refs it commits over. What is committed
has the class the policy saw, and the policy would have let it through had it
been told the true old value.
-/

namespace Walgit.Policy

open Interleaving Replay

inductive OpClass
  | noOp | create | delete | update | force
  deriving DecidableEq, Repr

def opClass (op : RefOp) (force : Bool) : OpClass :=
  match op with
  | .noOp => .noOp
  | .create => .create
  | .delete => .delete
  | .update => if force then .force else .update

/-- Zero oids of the wire are cleared: the publisher knows the empty oid. -/
def clearZero (hex : String) : String := if isNullOid hex then "" else hex

def clearZeros (u : RefUpdate) : RefUpdate :=
  { u with oldOid := clearZero u.oldOid, newOid := clearZero u.newOid }

/-- A push as `receive_pack_process` has it: the parsed commands and the policy of the
repository. `isAncestor` is what `merge-base --is-ancestor` answers after the ingest, an error
counting as no. -/
structure GuardedPush where
  policy : RepoPolicy
  principal : String
  commands : List RefUpdate
  parsed : ∀ u ∈ commands, u.isSymbolic = false ∧ validateRefUpdate u = true
  atomic : Bool
  isAncestor : String → String → Bool
  pack : Option String
  refused : Option String
  sideBand : Bool

namespace GuardedPush

def txn (q : GuardedPush) : RefTransaction := ⟨q.commands.map clearZeros, q.atomic⟩

/-- The names of the updates that are no fast-forward; nobody asks without a protect rule. -/
def forces (q : GuardedPush) : List String :=
  if q.policy.hasProtect then
    (q.txn.updates.filter fun u =>
      classify u.oldOid u.newOid = .update && !q.isAncestor u.oldOid u.newOid).map RefUpdate.name
  else []

def isForce (q : GuardedPush) (u : RefUpdate) : Bool := u.name ∈ q.forces

def request (q : GuardedPush) : Receive :=
  ⟨q.txn, denyReason q.policy q.principal q.isForce, q.pack, q.refused, q.sideBand⟩

/-- The class that `deny_reason` compares with the restricts of a rule. -/
def seenClass (q : GuardedPush) (u : RefUpdate) : OpClass :=
  opClass (classify u.oldOid u.newOid) (q.isForce u || isTag u.name)

def trueClass (q : GuardedPush) (prior : String) (u : RefUpdate) : OpClass :=
  opClass (classify prior u.newOid) (!q.isAncestor prior u.newOid || isTag u.name)

/-- The verdict of the policy on an update told with its true old value. -/
def trueVerdict (q : GuardedPush) (prior : String) (u : RefUpdate) : Option String :=
  denyReason q.policy q.principal (fun v => !q.isAncestor v.oldOid v.newOid)
    { u with oldOid := prior }

end GuardedPush

/-- The value of a ref, no ref reading as the empty oid. -/
def oidOf (s : RefState) (name : String) : String := (s (.ref name)).getD ""

/-- One committed update of a push, `s` being the refs it was applied to. The force flag is
looked at where the policy protects anything. -/
structure Unbypassed (q : GuardedPush) (s : RefState) (u : RefUpdate) : Prop where
  op : classify u.oldOid u.newOid = classify (oidOf s u.name) u.newOid
  force : q.policy.hasProtect = true → q.seenClass u = q.trueClass (oidOf s u.name) u
  allowed : q.trueVerdict (oidOf s u.name) u = none

/-- So are all committed updates: those of any entry with the transaction of any push, each
taken in the refs that the earlier entries and the earlier updates of its own entry leave. -/
def Protected (log : List LogEntry) : Prop :=
  ∀ (q : GuardedPush) (p : PublishRequest), q.request.publishes = some p →
    ∀ pre e post, log = pre ++ e :: post → e.refTxn = some p.txn →
      ∀ us u vs, e.updates = us ++ u :: vs →
        Unbypassed q (replay (replayEntries LogEntry.writes RefState.init pre)
          (us.flatMap RefUpdate.writes)) u

section Classes

variable {policy : RepoPolicy} {principal : String} {f g : RefUpdate → Bool} {u v : RefUpdate}

theorem denyReason_congr (hname : u.name = v.name)
    (hclass : opClass (classify u.oldOid u.newOid) (f u || isTag u.name) =
      opClass (classify v.oldOid v.newOid) (g v || isTag v.name)) :
    denyReason policy principal f u = denyReason policy principal g v := by
  unfold denyReason
  rw [hname] at hclass ⊢
  generalize classify u.oldOid u.newOid = a at hclass ⊢
  generalize classify v.oldOid v.newOid = b at hclass ⊢
  generalize (f u || isTag v.name) = x at hclass ⊢
  generalize (g v || isTag v.name) = y at hclass ⊢
  have hop : a = b := by
    revert hclass
    cases a <;> cases b <;> cases x <;> cases y <;> simp [opClass]
  subst hop
  by_cases hflag : a = .update
  · -- only here does the flag count
    subst hflag
    have hxy : x = y := by
      revert hclass
      cases x <;> cases y <;> simp [opClass]
    rw [hxy]
  · have hrej : ∀ r : Rule, r.rejects policy.groups principal v.name a x =
        r.rejects policy.groups principal v.name a y := by
      intro r
      unfold Rule.rejects
      cases r.protect with
      | none => rfl
      | some protect =>
        cases a with
        | update => exact absurd rfl hflag
        | _ => rfl
    simp only [hrej]

theorem denyReason_unprotected (h : policy.hasProtect = false) :
    denyReason policy principal f u = none := by
  unfold denyReason
  dsimp only
  split
  · rfl
  · rw [Option.map_eq_none_iff, List.find?_eq_none]
    intro r hr
    have hnone : r.protect.isSome ≠ true := List.any_eq_false.mp h r hr
    unfold Rule.rejects
    cases hp : r.protect with
    | none => simp
    | some protect => simp [hp] at hnone

end Classes

section Commands

variable {q : GuardedPush} {p : PublishRequest} {u : RefUpdate} {s : RefState}

theorem isNullOid_clearZero {hex : String} : isNullOid (clearZero hex) = true ↔
    clearZero hex = "" := by
  unfold clearZero
  split
  · exact ⟨fun _ => rfl, fun _ => rfl⟩
  · rename_i h
    refine ⟨fun hn => absurd hn h, fun he => ?_⟩
    rw [he]
    rfl

theorem mem_txn (hu : u ∈ q.txn.updates) : u.isSymbolic = false ∧
    (isNullOid u.oldOid = true ↔ u.oldOid = "") := by
  obtain ⟨v, hv, rfl⟩ := List.mem_map.mp hu
  exact ⟨(q.parsed v hv).1, isNullOid_clearZero⟩

theorem oidOf_eq (hu : u ∈ q.txn.updates) (h : OldMatches s u) : oidOf s u.name = u.oldOid := by
  unfold OldMatches at h
  unfold oidOf
  split at h
  · rename_i hnull
    rw [h, (mem_txn hu).2.mp hnull]
    rfl
  · rw [h]
    rfl

theorem published_updates (h : q.request.publishes = some p) :
    p.txn.updates = q.txn.updates.filter fun u => (q.request.deny u).isNone := by
  have hne : q.request.eval.publish.updates ≠ [] := by
    unfold Receive.publishes at h
    split at h
    · cases h
    · rename_i hc
      exact fun hnil => hc (.inr hnil)
  rw [Receive.publishes_eq h]
  simp only [Receive.eval, evaluate] at hne ⊢
  split at hne
  · exact absurd rfl hne
  · rename_i hc
    rw [if_neg hc]
    rfl

theorem names_nodup {e : LogEntry} (hrep : ¬ e.repeatsRef) (hp : q.request.publishes = some p)
    (he : e.refTxn = some p.txn) : (p.txn.updates.map RefUpdate.name).Nodup := by
  have hupdates : e.updates = p.txn.updates := by rw [LogEntry.updates, he]; rfl
  have hrep := not_not.mp hrep
  rw [hupdates, List.filter_eq_self.mpr] at hrep
  · exact hrep
  · intro u hu
    rw [published_updates hp] at hu
    rw [(mem_txn (List.mem_filter.mp hu).1).1]
    rfl

theorem isForce_eq (h : q.request.publishes = some p)
    (hn : (p.txn.updates.map RefUpdate.name).Nodup) (hu : u ∈ p.txn.updates)
    (hprotect : q.policy.hasProtect = true) (hop : classify u.oldOid u.newOid = .update) :
    q.isForce u = !q.isAncestor u.oldOid u.newOid := by
  have hpub := published_updates h
  obtain ⟨huq, hallowed⟩ := List.mem_filter.mp (hpub ▸ hu)
  have hmem : ∀ {name : String}, name ∈ q.forces ↔ ∃ v ∈ q.txn.updates,
      classify v.oldOid v.newOid = .update ∧ q.isAncestor v.oldOid v.newOid = false ∧
        v.name = name := by
    intro name
    simp [GuardedPush.forces, hprotect, and_assoc]
  cases hanc : q.isAncestor u.oldOid u.newOid with
  | false => exact decide_eq_true (hmem.mpr ⟨u, huq, hop, hanc, rfl⟩)
  | true =>
    refine decide_eq_false fun hforced => ?_
    obtain ⟨v, hv, hvop, hvanc, hname⟩ := hmem.mp hforced
    -- the update that forces the name is of the same class, hence published beside `u`
    have hdeny : q.request.deny v = q.request.deny u := by
      refine denyReason_congr hname ?_
      rw [hop, hvop, GuardedPush.isForce, GuardedPush.isForce, hname]
    have hvp : v ∈ p.txn.updates := by
      rw [hpub]
      exact List.mem_filter.mpr ⟨hv, by rw [hdeny]; exact hallowed⟩
    obtain rfl : v = u := List.inj_on_of_nodup_map hn hvp hu hname
    rw [hvanc] at hanc
    cases hanc

theorem unbypassed (h : q.request.publishes = some p)
    (hn : (p.txn.updates.map RefUpdate.name).Nodup) (hu : u ∈ p.txn.updates)
    (hold : OldMatches s u) : Unbypassed q s u := by
  obtain ⟨huq, hallowed⟩ := List.mem_filter.mp ((published_updates h) ▸ hu)
  have hprior : oidOf s u.name = u.oldOid := oidOf_eq huq hold
  have hclass : q.policy.hasProtect = true → q.seenClass u = q.trueClass u.oldOid u := by
    intro hprotect
    unfold GuardedPush.seenClass GuardedPush.trueClass
    cases hop : classify u.oldOid u.newOid with
    | update => rw [isForce_eq h hn hu hprotect hop]
    | _ => rfl
  refine ⟨by rw [hprior], by rw [hprior]; exact hclass, ?_⟩
  rw [hprior]
  have hallowed : denyReason q.policy q.principal q.isForce u = none :=
    Option.isNone_iff_eq_none.mp hallowed
  by_cases hprotect : q.policy.hasProtect = true
  · have hverdict : denyReason q.policy q.principal q.isForce u =
        denyReason q.policy q.principal (fun v => !q.isAncestor v.oldOid v.newOid) u :=
      denyReason_congr rfl (hclass hprotect)
    rw [← hallowed, hverdict]
    rfl
  · exact denyReason_unprotected (by simpa using hprotect)

end Commands

section Runs

variable {cfg : Config} {s : Sys}

theorem committed_names_nodup (h : Reachable cfg casHazards s) :
    ∀ e ∈ s.world.log, ¬ e.repeatsRef := by
  refine RunIf.keeps (L := casHazards) (J := fun σ => ∀ e ∈ σ.log, ¬ e.repeatsRef) pairLevel_cas
    (fun _ _ _ hok => hok) (by simp [log_init]) ?_ h
  intro t o c σ a σ' _ _ _ hok hex hJ
  have hsame : σ'.commits = σ.commits → ∀ e ∈ σ'.log, ¬ e.repeatsRef := by
    intro hc
    rw [World.log, hc]
    exact hJ
  cases exec_store hex with
  | same hc => exact hsame hc
  | write seq entries _ _ hσ => exact hsame (hσ ▸ rfl)
  | remove seq hσ => exact hsame (hσ ▸ rfl)
  | commit base op slot ho hσ =>
    subst hσ
    have hlog : (σ.commit t base op slot).log = σ.log ++ slot.elim [] Slot.entries := rfl
    intro e he hrep
    rw [hlog] at he
    rcases List.mem_append.mp he with he | he
    · exact hJ e he hrep
    · cases slot with
      | none => cases he
      | some slot => exact hok .repeatedRef (by decide) ⟨_, base, op, slot, ho, e, he, hrep⟩

theorem protection_not_bypassed (h : Reachable cfg casHazards s) : Protected s.world.log := by
  have hi := h.inv pairLevel_cas
  have hlin : Linearized s.world.log := (hi.cas casLevel).linearized hi.linked.log_pairwise
  intro q p hp pre e post hlog he us u vs hus
  have hupdates : e.updates = p.txn.updates := by rw [LogEntry.updates, he]; rfl
  have hu : u ∈ p.txn.updates := by simp [← hupdates, hus]
  have hel : e ∈ s.world.log := by simp [hlog]
  have hn := names_nodup (committed_names_nodup h e hel) hp he
  have hsym : u.isSymbolic = false :=
    (mem_txn (List.mem_filter.mp ((published_updates hp) ▸ hu)).1).1
  exact unbypassed hp hn hu (hlin.old pre e post hlog us u vs hus hsym)

def branchRule (restricts : List Restrict) : RepoPolicy :=
  ⟨[], [⟨"frozen", ⟨["refs/heads/*"], []⟩, some ⟨some restricts, []⟩⟩]⟩

def zeroOid : String := "0000000000000000000000000000000000000000"

def fastForward : GuardedPush where
  policy := branchRule [.delete, .forcePush]
  principal := "dev"
  commands := [⟨mainRef, oidA, oidB, ""⟩]
  parsed := by decide
  atomic := false
  isAncestor old new := old == oidA && new == oidB
  pack := none
  refused := none
  sideBand := true

theorem protection_not_bypassed_everyday : ∃ s, Reachable plainConfig casHazards s ∧
    s.world.commits.length = 4 ∧ fastForward.request.publishes = some (pushRef mainRef oidA oidB) ∧
    Protected s.world.log := by
  obtain ⟨s, hr, hs⟩ := everyday_reachable (L := casHazards) (by decide)
  refine ⟨s, hr, ?_, by decide, protection_not_bypassed hr⟩
  simpa using congrArg List.length hs

/-- Branches may be created and not updated; one push creates a branch twice. -/
def createsTwice : GuardedPush where
  policy := branchRule [.update]
  principal := "dev"
  commands := [⟨mainRef, zeroOid, oidA, ""⟩, ⟨mainRef, zeroOid, oidB, ""⟩]
  parsed := by decide
  atomic := true
  isAncestor _ _ := false
  pack := none
  refused := none
  sideBand := true

theorem protection_bypassed : ∃ cfg s, Run cfg s ∧ ¬ Protected s.world.log ∧
    createsTwice.request.publishes = some ⟨none, ⟨createdTwice, true⟩, true, none⟩ ∧
    createsTwice.trueVerdict oidA ⟨mainRef, "", oidB, ""⟩ = some "rejected by rule 'frozen'" := by
  obtain ⟨s, hr, hs⟩ := exists_run plainConfig doubleCreate
    (p := fun s => s.world.log.map LogEntry.refTxn = [some ⟨createdTwice, true⟩])
    (by decide +kernel)
  have hpub : createsTwice.request.publishes = some ⟨none, ⟨createdTwice, true⟩, true, none⟩ := by
    decide
  refine ⟨plainConfig, s, hr, fun hx => ?_, hpub, by decide⟩
  obtain ⟨e, hlog, he⟩ := List.map_eq_singleton_iff.mp (of_decide_eq_true hs)
  have hupdates : e.updates = createdTwice := by rw [LogEntry.updates, he]; rfl
  have hop := (hx createsTwice _ hpub [] e [] hlog he [⟨mainRef, "", oidA, ""⟩]
    ⟨mainRef, "", oidB, ""⟩ [] hupdates).op
  exact absurd hop (by decide)

end Runs

end Walgit.Policy
