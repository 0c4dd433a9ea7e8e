import Walgit.Safety
import Walgit.Trace

/-!
# Reports of receive-pack

A push is checked against the policy, published, and reported ref by ref. The
report starts from the policy's verdicts and takes over those of the publish,
ref name by ref name. What it says is compared with what was committed.
-/

namespace Walgit

open Interleaving

abbrev Report := List (String × Except String Unit)

structure Eval where
  publish : RefTransaction
  perRef : Report

def verdictOf (deny : RefUpdate → Option String) (u : RefUpdate) : Except String Unit :=
  match deny u with
  | none => .ok ()
  | some msg => .error msg

/-- `policy::evaluate`; `deny` is `deny_reason` for the policy, the principal and the forced
refs of the push. -/
def evaluate (deny : RefUpdate → Option String) (txn : RefTransaction) : Eval :=
  let perRef := txn.updates.map fun u => (u.name, verdictOf deny u)
  if txn.atomic && perRef.any fun r => !isOk r.2 then ⟨⟨[], true⟩, perRef⟩
  else ⟨⟨txn.updates.filter fun u => (deny u).isNone, txn.atomic⟩, perRef⟩

def RefError.text : RefError → String
  | .conflict expected actual => "conflict: expected " ++ expected ++ ", got " ++ actual
  | .rejected => "rejected"

def textResult : Except RefError Unit → Except String Unit
  | .ok () => .ok ()
  | .error e => .error e.text

/-- The first line for the name takes the result; without one it is added. -/
def setResult (name : String) (res : Except String Unit) : Report → Report
  | [] => [(name, res)]
  | r :: rs => if r.1 = name then (r.1, res) :: rs else r :: setResult name res rs

def mergeResults (policy published : Report) : Report :=
  published.foldl (fun report r => setResult r.1 r.2 report) policy

def refusalReport (txn : RefTransaction) (msg : String) : Report :=
  txn.updates.map fun u => (u.name, .error msg)

/-- A push request as it arrives: `refused` is what stopped it before the policy check, if
anything did; without the side band, a failed publish is an HTTP error and has no report. -/
structure Receive where
  txn : RefTransaction
  deny : RefUpdate → Option String
  pack : Option String
  refused : Option String
  sideBand : Bool

namespace Receive

def eval (q : Receive) : Eval := evaluate q.deny q.txn

/-- The request that reaches the publisher, if one does. -/
def publishes (q : Receive) : Option PublishRequest :=
  if q.refused.isSome ∨ q.eval.publish.updates = [] then none
  else some ⟨q.pack, q.eval.publish, true, none⟩

def unpublishedReport (q : Receive) : Report :=
  match q.refused with
  | some msg => refusalReport q.txn msg
  | none => q.eval.perRef

def publishedReport (describe : FailCause → String) (q : Receive) : Reply → Report
  | .done _ perRef => mergeResults q.eval.perRef (perRef.map fun r => (r.1, textResult r.2))
  | .failed cause => if q.sideBand then refusalReport q.txn (describe cause) else []

end Receive

def Report.Ok (report : Report) (u : RefUpdate) : Prop := (u.name, .ok ()) ∈ report

instance {report : Report} {u : RefUpdate} : Decidable (report.Ok u) :=
  inferInstanceAs (Decidable ((u.name, Except.ok ()) ∈ report))

def Report.Ng (report : Report) (u : RefUpdate) : Prop := ∃ msg, (u.name, .error msg) ∈ report

/-- The batch of task `t` committed the request answered with `reply`. -/
def World.Carries (σ : World) (t : ℕ) (req : PublishRequest) (reply : Reply) : Prop :=
  ∃ c ∈ σ.commits, c.task = some t ∧ ∃ e ∈ c.entries, e.txn = some req.txn ∧
    ∃ perRef, reply = .done e.seq perRef

/-- Reports and commits agree, for the pushes in `P`. -/
structure AckExact (P : Receive → Prop) (σ : World) : Prop where
  /-- a push that publishes nothing reports nothing as done -/
  unpublished : ∀ q, P q → q.publishes = none → ∀ u ∈ q.txn.updates,
    ¬ Report.Ok q.unpublishedReport u
  /-- an update reported as done was committed -/
  ok : ∀ r ∈ σ.replies, ∀ a ∈ r.answers, ∀ describe q, P q → q.publishes = some a.1 →
    ∀ u ∈ q.txn.updates, Report.Ok (q.publishedReport describe a.2) u →
      u ∈ a.1.txn.updates ∧ σ.Carries r.task a.1 a.2
  /-- every committed entry is that of an answered push, and no update of it is refused -/
  ng : ∀ r ∈ σ.replies, ∀ c ∈ σ.commits, c.task = some r.task → ∀ e ∈ c.entries,
    ∃ a ∈ r.answers, e.txn = some a.1.txn ∧ (∃ perRef, a.2 = .done e.seq perRef) ∧
      ∀ describe q, P q → q.publishes = some a.1 → ∀ u ∈ a.1.txn.updates,
        ¬ Report.Ng (q.publishedReport describe a.2) u

section Merge

variable {name : String} {res : Except String Unit} {report published : Report}
  {x : String × Except String Unit}

theorem setResult_names (h : name ∈ report.map Prod.fst) :
    (setResult name res report).map Prod.fst = report.map Prod.fst := by
  induction report with
  | nil => cases h
  | cons r rs ih =>
    unfold setResult
    split
    · rfl
    · rename_i hne
      rw [List.map_cons, List.map_cons, ih]
      exact (List.mem_cons.mp h).resolve_left (Ne.symm hne)

theorem mem_setResult (hn : (report.map Prod.fst).Nodup) (h : name ∈ report.map Prod.fst) :
    x ∈ setResult name res report ↔ x = (name, res) ∨ (x ∈ report ∧ x.1 ≠ name) := by
  induction report with
  | nil => cases h
  | cons r rs ih =>
    obtain ⟨hr, hrs⟩ := List.nodup_cons.mp hn
    unfold setResult
    split
    · rename_i heq
      subst heq
      have hother : x ∈ rs → x.1 ≠ r.1 := fun hx he => hr (he ▸ List.mem_map_of_mem hx)
      constructor
      · intro hx
        rcases List.mem_cons.mp hx with rfl | hx
        · exact .inl rfl
        · exact .inr ⟨List.mem_cons_of_mem r hx, hother hx⟩
      · rintro (rfl | ⟨hx, hne⟩)
        · exact List.mem_cons_self
        · rcases List.mem_cons.mp hx with rfl | hx
          · exact absurd rfl hne
          · exact List.mem_cons_of_mem _ hx
    · rename_i hne
      have ih := ih hrs ((List.mem_cons.mp h).resolve_left (Ne.symm hne))
      rw [List.mem_cons, ih, List.mem_cons]
      constructor
      · rintro (rfl | hx | ⟨hx, hxn⟩)
        · exact .inr ⟨.inl rfl, hne⟩
        · exact .inl hx
        · exact .inr ⟨.inr hx, hxn⟩
      · rintro (hx | ⟨hx | hx, hxn⟩)
        · exact .inr (.inl hx)
        · exact .inl hx
        · exact .inr (.inr ⟨hx, hxn⟩)

theorem mem_mergeResults (hn : (report.map Prod.fst).Nodup)
    (hp : (published.map Prod.fst).Nodup) (hsub : published.map Prod.fst ⊆ report.map Prod.fst) :
    x ∈ mergeResults report published ↔
      x ∈ published ∨ (x ∈ report ∧ x.1 ∉ published.map Prod.fst) := by
  induction published generalizing report with
  | nil => simp [mergeResults]
  | cons r rs ih =>
    obtain ⟨hr, hrs⟩ := List.nodup_cons.mp hp
    have hmem : r.1 ∈ report.map Prod.fst := hsub List.mem_cons_self
    have hnames : (setResult r.1 r.2 report).map Prod.fst = report.map Prod.fst :=
      setResult_names hmem
    have hrest := ih (hnames ▸ hn) hrs fun y hy => hnames ▸ hsub (List.mem_cons_of_mem _ hy)
    change x ∈ mergeResults (setResult r.1 r.2 report) rs ↔ _
    rw [hrest, mem_setResult hn hmem, List.map_cons, List.mem_cons, List.mem_cons]
    constructor
    · rintro (hx | ⟨rfl | ⟨hx, hne⟩, hxn⟩)
      · exact .inl (.inr hx)
      · exact .inl (.inl rfl)
      · exact .inr ⟨hx, fun h => h.elim hne hxn⟩
    · rintro ((rfl | hx) | ⟨hx, hxn⟩)
      · exact .inr ⟨.inl rfl, hr⟩
      · exact .inl hx
      · exact .inr ⟨.inr ⟨hx, fun h => hxn (.inl h)⟩, fun h => hxn (.inr h)⟩

end Merge

/-- The pushes whose reports can be trusted: no ref named twice, and an atomic one allowed or
denied as a whole. -/
structure Receive.Plain (q : Receive) : Prop where
  names : (q.txn.updates.map RefUpdate.name).Nodup
  whole : q.txn.atomic = true →
    (∀ u ∈ q.txn.updates, q.deny u = none) ∨ ∀ u ∈ q.txn.updates, q.deny u ≠ none

namespace Receive

variable {q : Receive} {p : PublishRequest} {u : RefUpdate}

theorem eval_perRef : q.eval.perRef = q.txn.updates.map fun u => (u.name, verdictOf q.deny u) := by
  simp only [eval, evaluate]
  split <;> rfl

theorem eval_names : q.eval.perRef.map Prod.fst = q.txn.updates.map RefUpdate.name := by
  rw [eval_perRef, List.map_map]
  rfl

theorem verdictOf_ok : verdictOf q.deny u = .ok () ↔ q.deny u = none := by
  unfold verdictOf
  cases q.deny u <;> simp

theorem Plain.updates (h : q.Plain) :
    q.eval.publish.updates = q.txn.updates.filter fun u => (q.deny u).isNone := by
  simp only [eval, evaluate]
  split
  · rename_i hc
    obtain ⟨hatomic, hdenied⟩ := Bool.and_eq_true_iff.mp hc
    refine (List.filter_eq_nil_iff.mpr fun u hu => ?_).symm
    rcases h.whole hatomic with hall | hnone
    · -- nothing is denied, so the branch is not taken
      obtain ⟨r, hr, hbad⟩ := List.any_eq_true.mp hdenied
      obtain ⟨v, hv, rfl⟩ := List.mem_map.mp hr
      rw [show verdictOf q.deny v = .ok () from verdictOf_ok.mpr (hall v hv)] at hbad
      cases hbad
    · simpa [Option.isNone_iff_eq_none] using hnone u hu
  · rfl

theorem publishes_eq (h : q.publishes = some p) : p.txn = q.eval.publish := by
  unfold publishes at h
  split at h
  · cases h
  · cases h
    rfl

theorem Plain.published (hq : q.Plain) (h : q.publishes = some p) :
    p.txn.updates = q.txn.updates.filter fun u => (q.deny u).isNone := by
  rw [publishes_eq h, hq.updates]

theorem Plain.mem_published (hq : q.Plain) (h : q.publishes = some p) (hu : u ∈ q.txn.updates) :
    u.name ∈ p.txn.updates.map RefUpdate.name ↔ q.deny u = none := by
  rw [hq.published h]
  constructor
  · intro hm
    obtain ⟨v, hv, hname⟩ := List.mem_map.mp hm
    obtain ⟨hv, hallowed⟩ := List.mem_filter.mp hv
    rw [← List.inj_on_of_nodup_map hq.names hv hu hname]
    exact Option.isNone_iff_eq_none.mp hallowed
  · intro hnone
    exact List.mem_map_of_mem (List.mem_filter.mpr ⟨hu, Option.isNone_iff_eq_none.mpr hnone⟩)

theorem Plain.mem_perRef (hq : q.Plain) (hu : u ∈ q.txn.updates) {res : Except String Unit}
    (h : (u.name, res) ∈ q.eval.perRef) : res = verdictOf q.deny u := by
  rw [eval_perRef] at h
  obtain ⟨v, hv, heq⟩ := List.mem_map.mp h
  obtain ⟨hname, rfl⟩ := Prod.mk.inj heq
  rw [List.inj_on_of_nodup_map hq.names hv hu hname]

theorem Plain.not_ok_unpublished (hq : q.Plain) (h : q.publishes = none)
    (hu : u ∈ q.txn.updates) : ¬ Report.Ok q.unpublishedReport u := by
  intro hok
  unfold Report.Ok unpublishedReport at hok
  cases hr : q.refused with
  | some msg =>
    rw [hr] at hok
    obtain ⟨v, -, hv⟩ := List.mem_map.mp hok
    cases (Prod.mk.inj hv).2
  | none =>
    rw [hr] at hok
    have hallowed := verdictOf_ok.mp (hq.mem_perRef hu hok).symm
    have hnil : q.eval.publish.updates = [] := by
      unfold publishes at h
      split at h
      · rename_i hc
        exact hc.resolve_left (by simp [hr])
      · cases h
    rw [hq.updates] at hnil
    exact List.filter_eq_nil_iff.mp hnil u hu (Option.isNone_iff_eq_none.mpr hallowed)

section Published

variable {describe : FailCause → String} {seq : ℕ} {perRef : PerRef}

/-- The lines of a plain push that was answered: those of its published updates say what the
publish said, the others what the policy said. -/
theorem Plain.line (hq : q.Plain) (h : q.publishes = some p)
    (huni : (Reply.done seq perRef).Uniform p.txn) (hu : u ∈ q.txn.updates)
    {res : Except String Unit}
    (hline : (u.name, res) ∈ q.publishedReport describe (.done seq perRef)) :
    if q.deny u = none then isOk res = decide (seq ≠ 0) else res = verdictOf q.deny u := by
  have hnames : (perRef.map fun r => (r.1, textResult r.2)).map Prod.fst =
      p.txn.updates.map RefUpdate.name := by
    rw [List.map_map, ← huni.1]
    rfl
  have hsub : p.txn.updates.map RefUpdate.name ⊆ q.txn.updates.map RefUpdate.name := by
    rw [hq.published h]
    exact (List.filter_sublist.map _).subset
  have hnodup : (p.txn.updates.map RefUpdate.name).Nodup := by
    rw [hq.published h]
    exact hq.names.sublist (List.filter_sublist.map _)
  unfold publishedReport at hline
  rw [mem_mergeResults (eval_names ▸ hq.names) (hnames ▸ hnodup)
    (by rw [hnames, eval_names]; exact hsub), hnames, hq.mem_published h hu] at hline
  rcases hline with hline | ⟨hline, hdenied⟩
  · have hallowed : q.deny u = none := by
      rw [← hq.mem_published h hu, ← hnames]
      exact List.mem_map_of_mem hline
    rw [if_pos hallowed]
    obtain ⟨r, hr, heq⟩ := List.mem_map.mp hline
    obtain ⟨-, rfl⟩ := Prod.mk.inj heq
    rw [← huni.2 r hr]
    cases r.2 <;> rfl
  · rw [if_neg hdenied]
    exact hq.mem_perRef hu hline

end Published

end Receive

section Commits

variable {σ : World} {t seq : ℕ} {txn : Option RefTransaction}
  {answers : List (PublishRequest × Reply)}

theorem mem_acknowledged : (seq, txn) ∈ acknowledged answers ↔
    seq ≠ 0 ∧ ∃ a ∈ answers, txn = some a.1.txn ∧ ∃ perRef, a.2 = .done seq perRef := by
  unfold acknowledged
  rw [List.mem_filterMap]
  constructor
  · rintro ⟨⟨req, reply⟩, ha, h⟩
    cases reply with
    | failed cause => cases h
    | done n perRef =>
      simp only at h
      split at h
      · cases h
      · rename_i hn
        cases h
        exact ⟨hn, ⟨req, .done seq perRef⟩, ha, rfl, perRef, rfl⟩
  · rintro ⟨hn, ⟨req, reply⟩, ha, rfl, perRef, hdone⟩
    refine ⟨(req, reply), ha, ?_⟩
    obtain rfl : reply = .done seq perRef := hdone
    simp [hn]

theorem mem_committedBy : (seq, txn) ∈ σ.committedBy t ↔
    ∃ c ∈ σ.commits, c.task = some t ∧ ∃ e ∈ c.entries, e.seq = seq ∧ e.txn = txn := by
  unfold World.committedBy
  simp only [List.mem_flatMap, List.mem_filter, List.mem_map, decide_eq_true_eq, Prod.mk.injEq,
    and_assoc]

end Commits

section Acknowledgement

variable {cfg : Config} {s : Sys}

def ackHazards : List Hazard := pairHazards ++ [.landedTrimmed, .landedUnread, .mixedVerdict]

theorem replyLevel_ack : ReplyLevel ackHazards := ⟨by decide, by decide, by decide⟩

theorem report_acknowledges_exactly (h : Reachable cfg ackHazards s) :
    AckExact Receive.Plain s.world := by
  have hi := h.inv (.of_subset (List.subset_append_left _ _))
  refine ⟨fun q hq hnone u hu => hq.not_ok_unpublished hnone hu, ?_, ?_⟩
  · intro r hr a ha describe q hq hpub u hu hok
    have hreply := hi.replies r hr
    have huni := hreply.uniform replyLevel_ack a ha
    obtain ⟨p, reply⟩ := a
    cases reply with
    | failed cause =>
      simp only [Report.Ok, Receive.publishedReport] at hok
      split at hok
      · obtain ⟨v, -, hv⟩ := List.mem_map.mp hok
        cases (Prod.mk.inj hv).2
      · cases hok
    | done seq perRef =>
      have hline := hq.line hpub huni hu hok
      split at hline
      · rename_i hallowed
        have hseq : seq ≠ 0 := of_decide_eq_true hline.symm
        have hmem : (seq, some p.txn) ∈ s.world.committedBy r.task := by
          rw [← hreply.exact replyLevel_ack]
          exact mem_acknowledged.mpr ⟨hseq, _, ha, rfl, perRef, rfl⟩
        obtain ⟨c, hc, hct, e, he, rfl, hetxn⟩ := mem_committedBy.mp hmem
        refine ⟨?_, c, hc, hct, e, he, hetxn, perRef, rfl⟩
        rw [hq.published hpub]
        exact List.mem_filter.mpr ⟨hu, Option.isNone_iff_eq_none.mpr hallowed⟩
      · rename_i hdenied
        exact absurd (Receive.verdictOf_ok.mp hline.symm) hdenied
  · intro r hr c hc hct e he
    have hreply := hi.replies r hr
    have hmem : (e.seq, e.txn) ∈ acknowledged r.answers := by
      rw [hreply.exact replyLevel_ack]
      exact mem_committedBy.mpr ⟨c, hc, hct, e, he, rfl, rfl⟩
    obtain ⟨hseq, a, ha, hatxn, perRef, hdone⟩ := mem_acknowledged.mp hmem
    refine ⟨a, ha, hatxn, ⟨perRef, hdone⟩, ?_⟩
    rintro describe q hq hpub u hu ⟨msg, hng⟩
    have huni := hreply.uniform replyLevel_ack a ha
    rw [hq.published hpub] at hu
    obtain ⟨hu, hallowed⟩ := List.mem_filter.mp hu
    rw [hdone] at huni hng
    have hline := hq.line hpub huni hu hng
    rw [if_pos (Option.isNone_iff_eq_none.mp hallowed)] at hline
    exact hseq (of_decide_eq_false hline.symm |> not_not.mp)

/-- A push of several commands that the policy allows. -/
def allowedPush (updates : List RefUpdate) : Receive :=
  ⟨⟨updates, false⟩, fun _ => none, none, none, true⟩

theorem report_acknowledges_exactly_everyday : ∃ s, Reachable plainConfig ackHazards s ∧
    s.world.replies.map (fun r => r.answers.map Prod.fst) =
      [[pushRef mainRef oidA oidB], [pushRef mainRef "" oidA]] ∧
    (allowedPush [⟨mainRef, "", oidA, ""⟩]).Plain ∧
    (allowedPush [⟨mainRef, "", oidA, ""⟩]).publishes = some (pushRef mainRef "" oidA) ∧
    AckExact Receive.Plain s.world := by
  obtain ⟨s, hr, hs⟩ := exists_clean (L := ackHazards) (by decide) plainConfig everyday
    (p := fun s => s.world.replies.map (fun r => r.answers.map Prod.fst) =
      [[pushRef mainRef oidA oidB], [pushRef mainRef "" oidA]]) (by decide +kernel)
  refine ⟨s, hr, of_decide_eq_true hs, ⟨by decide, fun _ => .inl fun _ _ => rfl⟩, rfl,
    report_acknowledges_exactly hr⟩

/-- A creation and a command whose old value is stale. -/
def staleSibling : List RefUpdate :=
  [⟨mainRef, "", oidA, ""⟩, ⟨devRef, oidC, oidB, ""⟩]

def halfStale : List Step :=
  .spawn (.publish 0 [⟨none, ⟨staleSibling, false⟩, true, none⟩]) :: steps 0 6

/-- Nothing is committed, and the creation is reported as done; so it is for an atomic push
whose other command the policy denies. -/
theorem report_acknowledges_falsely :
    (∃ cfg s, Run cfg s ∧ ¬ AckExact (fun _ => True) s.world ∧
      ∃ r ∈ s.world.replies, ∃ a ∈ r.answers,
        (allowedPush staleSibling).publishes = some a.1 ∧
        Report.Ok ((allowedPush staleSibling).publishedReport (fun _ => "") a.2)
          ⟨mainRef, "", oidA, ""⟩ ∧
        ∀ c ∈ s.world.commits, c.task = none) ∧
    ∃ q : Receive, q.publishes = none ∧
      Report.Ok q.unpublishedReport ⟨mainRef, "", oidA, ""⟩ ∧ q.txn.atomic = true := by
  refine ⟨?_, ⟨⟨staleSibling, true⟩, fun u => if u.name = mainRef then none else some "rejected",
    none, none, true⟩, by decide, by decide, rfl⟩
  obtain ⟨s, hr, hs⟩ := exists_run plainConfig halfStale
    (p := fun s => (∀ c ∈ s.world.commits, c.task = none) ∧
      s.world.replies.any fun r => r.answers.any fun a =>
        (allowedPush staleSibling).publishes = some a.1 ∧
        Report.Ok ((allowedPush staleSibling).publishedReport (fun _ => "") a.2)
          ⟨mainRef, "", oidA, ""⟩)
    (by decide +kernel)
  obtain ⟨hnone, hreply⟩ := of_decide_eq_true hs
  obtain ⟨r, hr', hans⟩ := List.any_eq_true.mp hreply
  obtain ⟨a, ha, hboth⟩ := List.any_eq_true.mp hans
  obtain ⟨hpub, hok⟩ := of_decide_eq_true hboth
  refine ⟨plainConfig, s, hr, fun hexact => ?_, r, hr', a, ha, hpub, hok, hnone⟩
  obtain ⟨-, c, hc, hct, -⟩ := hexact.ok r hr' a ha (fun _ => "") (allowedPush staleSibling) trivial
    hpub ⟨mainRef, "", oidA, ""⟩ List.mem_cons_self hok
  rw [hnone c hc] at hct
  cases hct

end Acknowledgement

end Walgit
