import Walgit.Connected
import Walgit.CompactionRuns
import Walgit.Manifests
import Walgit.Receive
import Walgit.FetchModels

/-!
# Pushes and dangling refs

A push with objects is checked against the object database of the process that
receives it, before its pack is published; a push without objects is published
as it is. What is committed is compared with the packs of the manifest: every
object that a committed ref update reaches should be in one of them.
-/

namespace Walgit.Objects

open Interleaving

variable {O : Type}

/-- The objects of the packs. Hex ids are read by `ObjectId::from_hex`. -/
structure PackedObjects (O : Type) where
  graph : Graph O
  fromHex : String → Option O
  packed : String → O → Prop
  packed_obj : ∀ {checksum : String} {x : O}, packed checksum x → (graph.obj x).isSome

namespace PackedObjects

variable (S : PackedObjects O)

/-- The object is in one of the packs. -/
def Live (packs : List PackRef) (x : O) : Prop := ∃ p ∈ packs, S.packed p.checksum x

/-- The object is reached by a ref. -/
def RefsReach (refs : RefState) (x : O) : Prop :=
  ∃ name tip o, refs (.ref name) = some tip ∧ S.fromHex tip = some o ∧ S.graph.Reach o x

/-- The new oid of the update names an object; a zero oid deletes. -/
def Names (u : RefUpdate) (o : O) : Prop := isNullOid u.newOid = false ∧ S.fromHex u.newOid = some o

/-- The closure of what the update names is in the packs. -/
def Backs (packs : List PackRef) (u : RefUpdate) : Prop :=
  ∃ o, S.fromHex u.newOid = some o ∧ ∀ x, S.graph.Reach o x → S.Live packs x

/-- Every committed update but the deletions is backed by the packs of its manifest. -/
def NoDangling (σ : World) : Prop :=
  ∀ c ∈ σ.commits, ∀ e ∈ c.entries, ∀ u ∈ e.updates, isNullOid u.newOid = false →
    S.Backs c.manifest.packs u

end PackedObjects

def ConnectivityError.text (toHex : O → String) : ConnectivityError O → String
  | .missing oid => "missing object " ++ toHex oid
  | .tooDeep oid => "invalid input: tag chain too deep at " ++ toHex oid
  | .gix => "gix error"

/-- A push as it is received with `check_connectivity` on. `ingest` is what became of its pack: an
error, the checksum of an indexed pack, or nothing when it had no objects. `isLocal` and `refs` are
the object database and the refs of the process once the pack is in. -/
structure Push (S : PackedObjects O) where
  txn : RefTransaction
  deny : RefUpdate → Option String
  ingest : Except String (Option String)
  isLocal : O → Bool
  refs : List O
  walk : CommitWalk (Repo.localGraph ⟨S.graph, isLocal⟩)
  toHex : O → String
  sideBand : Bool

namespace Push

variable {S : PackedObjects O} (q : Push S)

/-- Oids that do not parse are left out. -/
def tips : List O :=
  (q.txn.updates.filter fun u => !isNullOid u.newOid).filterMap fun u => S.fromHex u.newOid

def refused [DecidableEq O] : Option String :=
  match q.ingest with
  | .error msg => some ("unpack failed: " ++ msg)
  | .ok none => none
  | .ok (some _) =>
    if q.tips = [] then none
    else
      match checkConnectivity ⟨S.graph, q.isLocal⟩ q.walk q.refs q.tips true with
      | .ok () => none
      | .error e => some ("connectivity: " ++ e.text q.toHex)

def request [DecidableEq O] : Receive :=
  ⟨q.txn, q.deny, q.ingest.toOption.join, q.refused, q.sideBand⟩

def Carries [DecidableEq O] (e : LogEntry) : Prop :=
  ∃ req, q.request.publishes = some req ∧ e.txn = some req.txn ∧
    e.pack.map PackRef.checksum = req.pack

end Push

section Conditions

variable [DecidableEq O] (S : PackedObjects O)

/-- An entry of a batch that is committed over `σ`, and its push. -/
structure Backed (σ : World) (batch : List LogEntry) (e : LogEntry) (q : Push S) : Prop where
  carries : q.Carries e
  parsed : ∀ u ∈ e.updates, isNullOid u.newOid = false → (S.fromHex u.newOid).isSome
  /-- what the check takes for present, in the object database or behind a local ref, is behind a
  committed ref, or in a pack that is live or becomes live with the batch -/
  present : e.pack.isSome → ∀ t ∈ q.tips, ∀ x, S.graph.Reach t x →
    (q.isLocal x = true ∨ ∃ r ∈ q.refs, S.graph.Reach r x) →
    S.RefsReach σ.committedRefs x ∨
      S.Live (σ.current.manifest.packs ++ batch.filterMap LogEntry.pack) x
  /-- a push without objects names what a committed ref or a checked tip of the batch reaches -/
  known : e.pack = none → ∀ u ∈ e.updates, ∀ o, S.Names u o →
    S.RefsReach σ.committedRefs o ∨ ∃ e' ∈ batch, e'.pack.isSome ∧ ∃ u' ∈ e'.updates, ∃ o',
      S.Names u' o' ∧ S.graph.Reach o' o

/-- The condition on a put that commits: the entries of a push are backed, and a compaction drops
nothing that the refs reach. -/
def PutBacked (op : ManifestOp) (slot : Option Slot) (σ : World) : Prop :=
  match op with
  | .push _ _ => ∀ e ∈ slot.elim [] Slot.entries, ∃ q : Push S,
      Backed S σ (slot.elim [] Slot.entries) e q
  | .compact pack supersedes _ => ∀ x, S.RefsReach σ.committedRefs x →
      S.Live σ.current.manifest.packs x →
      S.Live (compactPacks pack supersedes σ.current.manifest.packs) x
  | _ => True

/-- The pair is not torn and what is committed is backed. -/
def PushesBacked (o : Op) (ch : Choice) (σ : World) : Prop :=
  Avoids pairHazards o ch σ ∧ ∀ base op slot,
    o = .putManifest (some σ.current.version) base op slot → PutBacked S op slot σ

def FromPushes (o : Op) (_ : Choice) (σ : World) : Prop :=
  ∀ base packs seg slot, o = .putManifest (some σ.current.version) base (.push packs seg) slot →
    ∀ e ∈ slot.elim [] Slot.entries, ∃ q : Push S, q.Carries e

end Conditions

variable {S : PackedObjects O}

theorem PackedObjects.Live.mono {ps qs : List PackRef} {x : O} (h : S.Live ps x)
    (hsub : ∀ p ∈ ps, ∃ p' ∈ qs, p'.checksum = p.checksum) : S.Live qs x := by
  obtain ⟨p, hp, hx⟩ := h
  obtain ⟨p', hp', heq⟩ := hsub p hp
  exact ⟨p', hp', heq ▸ hx⟩

theorem Push.mem_tips {q : Push S} {u : RefUpdate} {o : O} (hu : u ∈ q.txn.updates)
    (ho : S.Names u o) : o ∈ q.tips :=
  List.mem_filterMap.mpr ⟨u, List.mem_filter.mpr ⟨hu, by rw [ho.1]; rfl⟩, ho.2⟩

theorem evaluate_updates {deny : RefUpdate → Option String} {txn : RefTransaction}
    {u : RefUpdate} (hu : u ∈ (evaluate deny txn).publish.updates) : u ∈ txn.updates := by
  unfold evaluate at hu
  dsimp only at hu
  split at hu
  · cases hu
  · exact (List.mem_filter.mp hu).1

section Checked

variable [DecidableEq O] {q : Push S} {e : LogEntry} {u : RefUpdate} {o x : O} {σ : World}
  {batch : List LogEntry}

theorem Push.Carries.mem_updates (h : q.Carries e) (hk : e.kind = .push) (hu : u ∈ e.updates) :
    u ∈ q.txn.updates := by
  obtain ⟨req, hpub, htxn, -⟩ := h
  have hupdates : e.updates = req.txn.updates := by
    rw [LogEntry.updates, LogEntry.refTxn, hk, htxn]
    rfl
  rw [hupdates, Receive.publishes_eq hpub] at hu
  exact evaluate_updates hu

theorem Push.Carries.accepted (h : q.Carries e) :
    q.refused = none ∧ e.pack.map PackRef.checksum = q.ingest.toOption.join := by
  obtain ⟨req, hpub, -, hpack⟩ := h
  unfold Receive.publishes at hpub
  split at hpub
  · cases hpub
  · rename_i hc
    cases hpub
    refine ⟨?_, hpack⟩
    by_contra hne
    exact hc (.inl (Option.isSome_iff_ne_none.mpr hne))

theorem Push.Carries.checked (h : q.Carries e) (hp : e.pack.isSome) (hto : o ∈ q.tips) :
    checkConnectivity ⟨S.graph, q.isLocal⟩ q.walk q.refs q.tips true = .ok () := by
  obtain ⟨href, hpack⟩ := h.accepted
  obtain ⟨p, hp⟩ := Option.isSome_iff_exists.mp hp
  unfold Push.refused at href
  cases hin : q.ingest with
  | error msg => simp [hin] at href
  | ok pack =>
    cases pack with
    | none => simp [hin, hp, Except.toOption] at hpack
    | some checksum =>
      have hne : q.tips ≠ [] := List.ne_nil_of_mem hto
      simp only [hin, hne, if_false] at href
      cases hcheck : checkConnectivity ⟨S.graph, q.isLocal⟩ q.walk q.refs q.tips true with
      | ok _ => rfl
      | error e => simp [hcheck] at href

variable (S) in
/-- What the refs reach is in live packs. -/
def Covered (σ : World) : Prop :=
  ∀ x, S.RefsReach σ.committedRefs x → S.Live σ.current.manifest.packs x

theorem Backed.live_checked (h : Backed S σ batch e q) (hc : Covered S σ) (hk : e.kind = .push)
    (hp : e.pack.isSome) (hu : u ∈ e.updates) (ho : S.Names u o) (hox : S.graph.Reach o x) :
    S.Live (σ.current.manifest.packs ++ batch.filterMap LogEntry.pack) x := by
  have htip : o ∈ q.tips := Push.mem_tips (h.carries.mem_updates hk hu) ho
  have hpresent : q.isLocal x = true ∨ ∃ r ∈ q.refs, S.graph.Reach r x := by
    rcases checkConnectivity_sound (h.carries.checked hp htip) htip hox with hlocal | hrefs
    · left
      by_contra hno
      simp [Repo.find, hno] at hlocal
    · exact .inr hrefs
  rcases h.present hp o htip x hox hpresent with hrefs | hlive
  · exact (hc x hrefs).mono fun p hp => ⟨p, List.mem_append_left _ hp, rfl⟩
  · exact hlive

theorem backs_of_backed (hall : ∀ e ∈ batch, ∃ q : Push S, Backed S σ batch e q)
    (hk : ∀ e ∈ batch, e.kind = .push) (hc : Covered S σ) (he : e ∈ batch) (hu : u ∈ e.updates)
    (hnull : isNullOid u.newOid = false) :
    S.Backs (σ.current.manifest.packs ++ batch.filterMap LogEntry.pack) u := by
  obtain ⟨q, hq⟩ := hall e he
  obtain ⟨o, ho⟩ := Option.isSome_iff_exists.mp (hq.parsed u hu hnull)
  refine ⟨o, ho, fun x hox => ?_⟩
  by_cases hp : e.pack.isSome = true
  · exact hq.live_checked hc (hk e he) hp hu ⟨hnull, ho⟩ hox
  · have hnone : e.pack = none := by simpa using hp
    rcases hq.known hnone u hu o ⟨hnull, ho⟩ with hrefs | ⟨e', he', hp', u', hu', o', ho', hreach⟩
    · obtain ⟨name, tip, a, htip, ha, hao⟩ := hrefs
      exact (hc x ⟨name, tip, a, htip, ha, hao.trans hox⟩).mono fun p hp =>
        ⟨p, List.mem_append_left _ hp, rfl⟩
    · obtain ⟨q', hq'⟩ := hall e' he'
      exact hq'.live_checked hc (hk e' he') hp' hu' ho' (hreach.trans hox)

end Checked

/-! ## Runs -/

section Steps

variable {t : ℕ} {op : ManifestOp} {slot : Option Slot} {σ : World}

theorem mem_updates_of_write {e : LogEntry} {w : RefKey × Option String} {name v : String}
    (hw : w ∈ e.writes) (hk : w.1 = .ref name) (hv : w.2 = some v) :
    ∃ u ∈ e.updates, isNullOid u.newOid = false ∧ u.newOid = v := by
  unfold LogEntry.writes at hw
  cases htxn : e.refTxn with
  | none => simp [htxn] at hw
  | some txn =>
    simp only [htxn, Option.elim_some] at hw
    obtain ⟨u, hu, hw⟩ := List.mem_flatMap.mp hw
    refine ⟨u, by rwa [LogEntry.updates, htxn], ?_⟩
    unfold RefUpdate.writes at hw
    split at hw
    · split at hw
      · obtain rfl := List.mem_singleton.mp hw
        cases hk
      · cases hw
    · obtain rfl := List.mem_singleton.mp hw
      have hval : u.value = some v := hv
      unfold RefUpdate.value at hval
      split at hval
      · cases hval
      · rename_i hnull
        exact ⟨by simpa using hnull, Option.some.inj hval⟩

theorem silent_of_logs {es : List LogEntry} (h : op.Logs es)
    (hop : ∀ packs seg, op ≠ .push packs seg) {e : LogEntry} (he : e ∈ es) : e.refTxn = none := by
  cases op with
  | push packs seg => exact absurd rfl (hop packs seg)
  | compact pack supersedes seg =>
    obtain ⟨e', rfl, hk, -⟩ := h
    rw [List.mem_singleton.mp he, LogEntry.refTxn, hk]
  | settings doc seg => rw [LogEntry.refTxn, h e he]
  | create | checkpoint cp | annotate _ _ _ _ =>
    obtain rfl : es = [] := h
    cases he

theorem live_apply [DecidableEq O] (hput : PutBacked S op slot σ)
    (hop : ∀ packs seg, op ≠ .push packs seg) (hnew : op ≠ .create) {x : O}
    (hx : S.RefsReach σ.committedRefs x)
    (hlive : S.Live σ.current.manifest.packs x) :
    S.Live (op.apply σ.current.manifest).packs x := by
  cases op with
  | push packs seg => exact absurd rfl (hop packs seg)
  | create => exact absurd rfl hnew
  | compact pack supersedes seg =>
    exact (hput x hx hlive).mono fun p hp => ⟨p, mem_sortPacks.mpr hp, rfl⟩
  | settings doc seg => exact hlive
  | checkpoint cp => exact hlive
  | annotate checksum rev bitmap graph =>
    refine hlive.mono fun p hp => ?_
    obtain ⟨p', hp', -, heq⟩ := mem_annotatePack hp
    exact ⟨p', hp', heq⟩

variable (S) in
/-- Nothing committed dangles, and what the refs reach is in live packs. -/
structure Sound (σ : World) : Prop where
  backed : S.NoDangling σ
  covered : Covered S σ

theorem Sound.of_commits {σ' : World} (hc : σ'.commits = σ.commits) (h : Sound S σ) :
    Sound S σ' := by
  refine ⟨fun c hmem => h.backed c (hc ▸ hmem), fun x hx => ?_⟩
  have hcur : σ'.current = σ.current := by rw [World.current, hc, World.current]
  have hrefs : σ'.committedRefs = σ.committedRefs := by
    rw [World.committedRefs, World.log, hc, World.committedRefs, World.log]
  rw [hcur]
  exact h.covered x (hrefs ▸ hx)

theorem reached_commit {base : Manifest} {x : O}
    (hx : S.RefsReach (σ.commit t base op slot).committedRefs x) :
    S.RefsReach σ.committedRefs x ∨ ∃ e ∈ slot.elim [] Slot.entries, ∃ u ∈ e.updates, ∃ o,
      S.Names u o ∧ S.graph.Reach o x := by
  obtain ⟨name, tip, o, htip, ho, hox⟩ := hx
  rw [committedRefs_commit] at htip
  rcases replay_some htip with hold | ⟨w, hw, hk, hv⟩
  · exact .inl ⟨name, tip, o, hold, ho, hox⟩
  · obtain ⟨e, he, hwe⟩ := List.mem_flatMap.mp hw
    obtain ⟨u, hu, hnull, rfl⟩ := mem_updates_of_write hwe hk hv
    exact .inr ⟨e, he, u, hu, o, ⟨hnull, ho⟩, hox⟩

theorem Sound.commit [DecidableEq O] {base : Manifest}
    (hl : Linked (σ.commit t base op slot).commits)
    (hput : PutBacked S op slot σ) (h : Sound S σ) : Sound S (σ.commit t base op slot) := by
  obtain ⟨p, older, hc, hf⟩ : ∃ p older, σ.commits = p :: older ∧
      Follows ⟨σ.next, base, op.apply base, op, slot, some t⟩ p older := by
    cases hc : σ.commits with
    | nil =>
      have : (⟨σ.next, base, op.apply base, op, slot, some t⟩ : Commit) = .created := by
        simpa [World.commit, hc, Linked] using hl
      cases congrArg Commit.task this
    | cons p older =>
      rw [World.commit, hc] at hl
      exact ⟨p, older, rfl, hl.1⟩
  have hbase : base = σ.current.manifest := by
    rw [World.current, hc]
    exact hf.base
  subst hbase
  have hlogs : op.Logs (slot.elim [] Slot.entries) := hf.logs
  have hnew : op ≠ .create := hf.notCreate
  -- the updates of the put are backed by its manifest
  have hupdates : ∀ e ∈ slot.elim [] Slot.entries, ∀ u ∈ e.updates, isNullOid u.newOid = false →
      S.Backs (op.apply σ.current.manifest).packs u := by
    intro e he u hu hnull
    by_cases hop : ∃ packs seg, op = .push packs seg
    · obtain ⟨packs, seg, rfl⟩ := hop
      obtain ⟨rfl, hkinds⟩ := hlogs
      obtain ⟨o, ho, hlive⟩ := backs_of_backed hput hkinds h.covered he hu hnull
      exact ⟨o, ho, fun x hx => (hlive x hx).mono fun p hp => ⟨p, mem_sortPacks.mpr hp, rfl⟩⟩
    · have hnone := silent_of_logs hlogs (fun packs seg heq => hop ⟨packs, seg, heq⟩) he
      simp [LogEntry.updates, hnone] at hu
  refine ⟨fun c hmem => ?_, fun x hx => ?_⟩
  · rcases List.mem_cons.mp hmem with rfl | hmem
    · exact hupdates
    · exact h.backed c hmem
  · rcases reached_commit hx with hold | ⟨e, he, u, hu, o, ⟨hnull, ho⟩, hox⟩
    · by_cases hop : ∃ packs seg, op = .push packs seg
      · obtain ⟨packs, seg, rfl⟩ := hop
        exact (h.covered x hold).mono fun p hp =>
          ⟨p, mem_sortPacks.mpr (List.mem_append_left _ hp), rfl⟩
      · exact live_apply hput (fun packs seg heq => hop ⟨packs, seg, heq⟩) hnew hold
          (h.covered x hold)
    · obtain ⟨o', ho', hlive⟩ := hupdates e he u hu hnull
      obtain rfl : o' = o := Option.some.inj (ho'.symm.trans ho)
      exact hlive x hox

end Steps

section Runs

variable {cfg : Config} {s : Sys}

theorem sound_init : Sound S World.init := by
  refine ⟨fun c hc e he => ?_, ?_⟩
  · rw [List.mem_singleton.mp hc] at he
    cases he
  · rintro x ⟨name, tip, o, htip, -⟩
    cases htip

theorem sound_step [DecidableEq O] {t : ℕ} {o : Op} {ch : Choice} {σ σ' : World} {r : o.Res}
    (hi : Inv pairHazards σ') (hok : PushesBacked S o ch σ) (hex : exec t o ch σ = some (r, σ'))
    (h : Sound S σ) : Sound S σ' := by
  cases exec_store hex with
  | same hc => exact h.of_commits hc
  | write seq entries _ _ hσ => exact h.of_commits (hσ ▸ rfl)
  | remove seq hσ => exact h.of_commits (hσ ▸ rfl)
  | commit base op slot ho hσ =>
    subst hσ
    exact h.commit hi.linked (hok.2 base op slot ho)

/-- In runs whose commits are backed no committed ref dangles. -/
theorem pushes_not_dangling [DecidableEq O] (h : RunIf cfg (PushesBacked S) s) :
    S.NoDangling s.world :=
  (h.keeps (L := pairHazards) (J := Sound S) .refl (fun _ _ _ hok => hok.1) sound_init
    fun _ _ _ _ _ _ _ hi' _ hok hex => sound_step hi' hok hex).backed

end Runs

section Examples

variable {S : PackedObjects ℕ} {o : Op} {ch : Choice} {σ : World} {e : LogEntry} {u : RefUpdate}

/-- A commit with an empty tree, in one pack, and a blob in another. -/
def initialObjs : List (Obj ℕ) := [.tree [], .commit 0 [], .blob 3]

def initialPacks : List (String × ℕ) := [("pa", 0), ("pa", 1), ("pb", 2)]

/-- `oidA` is the commit; `oidB` names nothing. -/
def initialCommit : PackedObjects ℕ where
  graph := Graph.ofTable initialObjs (by decide)
  fromHex hex := if hex = oidA then some 1 else if hex = oidB then some 7 else none
  packed checksum x := (checksum, x) ∈ initialPacks
  packed_obj {checksum x} h := by
    have hlt : x < 3 := by
      have hall : ∀ e ∈ initialPacks, e.2 < 3 := by decide
      exact hall _ h
    exact Option.isSome_iff_exists.mpr ⟨_, List.getElem?_eq_getElem hlt⟩

def pushOf (req : PublishRequest) (isLocal : ℕ → Bool) : Push initialCommit where
  txn := req.txn
  deny _ := none
  ingest := .ok req.pack
  isLocal := isLocal
  refs := []
  walk := (RevWalk.down _).toCommitWalk
  toHex := toString
  sideBand := true

/-- The push of a new ref with a pack. -/
def creation (pack : Option String) (name new : String) : PublishRequest :=
  ⟨pack, ⟨[⟨name, "", new, ""⟩], false⟩, true, none⟩

def LogEntry.isOf (req : PublishRequest) (e : LogEntry) : Bool :=
  e.txn = some req.txn ∧ e.pack.map PackRef.checksum = req.pack

theorem carries_of_isOf {req : PublishRequest} {q : Push S}
    (hq : q.request.publishes = some req) (h : LogEntry.isOf req e = true) : q.Carries e :=
  ⟨req, hq, of_decide_eq_true h⟩

def Op.publishesOnly (req : PublishRequest) : Op → Bool
  | .putManifest _ _ (.push _ _) slot => (slot.elim [] Slot.entries).all (LogEntry.isOf req)
  | _ => true

theorem fromPushes_of_test {req : PublishRequest} {q : Push S}
    (hq : q.request.publishes = some req) (h : Op.publishesOnly req o = true) :
    FromPushes S o ch σ := by
  rintro base packs seg slot rfl e he
  exact ⟨q, carries_of_isOf hq (List.all_eq_true.mp h e he)⟩

/-- An update with the new oid `tip` was committed when the live packs were `packs`. -/
def committedOver (tip : String) (packs : List String) (σ : World) : Bool :=
  σ.commits.any fun c => decide (c.manifest.packs.map PackRef.checksum = packs) &&
    c.entries.any fun e => e.updates.any fun u => u.newOid = tip

theorem not_noDangling {tip : String} {packs : List String} {x y : ℕ}
    (h : committedOver tip packs σ = true) (hnull : isNullOid tip = false)
    (hx : S.fromHex tip = some x) (hxy : S.graph.Reach x y)
    (hno : ∀ c ∈ packs, ¬ S.packed c y) : ¬ S.NoDangling σ := by
  intro hall
  obtain ⟨c, hc, hover⟩ := List.any_eq_true.mp h
  obtain ⟨hpacks, hentry⟩ := Bool.and_eq_true_iff.mp hover
  obtain ⟨e, he, hupdate⟩ := List.any_eq_true.mp hentry
  obtain ⟨u, hu, htip⟩ := List.any_eq_true.mp hupdate
  have htip : u.newOid = tip := of_decide_eq_true htip
  obtain ⟨x', hx', hlive⟩ := hall c hc e he u hu (htip ▸ hnull)
  obtain rfl : x' = x := Option.some.inj (hx'.symm.trans (htip ▸ hx))
  obtain ⟨p, hp, hpacked⟩ := hlive y hxy
  exact hno _ (of_decide_eq_true hpacks ▸ List.mem_map_of_mem hp) hpacked

theorem exists_published (req : PublishRequest) {q : Push S}
    (hq : q.request.publishes = some req) (es : List Step) {p : Sys → Bool}
    (h : (Pool.testedRuns exec (Job.run plainConfig) (fun _ o _ _ => Op.publishesOnly req o)
      Sys.init es).any p = true) : ∃ s, RunIf plainConfig (FromPushes S) s ∧ p s = true :=
  exists_runIf (fun o _ _ => Op.publishesOnly req o) (fun _ _ _ => fromPushes_of_test hq)
    plainConfig es h

/-- A push without objects that names an object nobody has, and one whose pack lacks what it
names: that is in the object database, but in no pack that is live. -/
theorem dangling_refs_published :
    (∃ s, RunIf plainConfig (FromPushes initialCommit) s ∧
      committedOver oidB [] s.world = true ∧ ¬ initialCommit.NoDangling s.world) ∧
    ∃ s, RunIf plainConfig (FromPushes initialCommit) s ∧
      committedOver oidA ["pb"] s.world = true ∧ ¬ initialCommit.NoDangling s.world := by
  constructor
  · obtain ⟨s, hr, hs⟩ := exists_published (q := pushOf (creation none mainRef oidB) fun _ => true)
      (creation none mainRef oidB) rfl
      (.spawn (.publish 0 [creation none mainRef oidB]) :: steps 0 20)
      (p := fun s => committedOver oidB [] s.world) (by decide +kernel)
    exact ⟨s, hr, hs, not_noDangling hs (by decide) (x := 7) (by decide) .refl (by simp)⟩
  · obtain ⟨s, hr, hs⟩ := exists_published
      (q := pushOf (creation (some "pb") mainRef oidA) fun _ => true)
      (creation (some "pb") mainRef oidA) (by decide)
      (.spawn (.publish 0 [creation (some "pb") mainRef oidA]) :: steps 0 21)
      (p := fun s => committedOver oidA ["pb"] s.world) (by decide +kernel)
    refine ⟨s, hr, hs, not_noDangling hs (by decide) (x := 1) (by decide) .refl ?_⟩
    intro c hc hpacked
    obtain rfl := List.mem_singleton.mp hc
    exact absurd (show ("pb", 1) ∈ initialPacks from hpacked) (by decide)

/-- The first push brings the commit, the second names it again. -/
def firstPush : PublishRequest := creation (some "pa") mainRef oidA

def secondPush : PublishRequest := creation none devRef oidA

def backedTest (σ : World) : Op → Bool
  | .putManifest _ _ (.push _ _) slot => (slot.elim [] Slot.entries).all fun e =>
    LogEntry.isOf firstPush e ||
      (LogEntry.isOf secondPush e && decide (σ.committedRefs (.ref mainRef) = some oidA))
  | .putManifest _ _ (.compact _ _ _) _ => false
  | _ => true

theorem mem_updates_of_isOf {req : PublishRequest} (h : LogEntry.isOf req e = true)
    (hu : u ∈ e.updates) : u ∈ req.txn.updates := by
  have htxn : e.txn = some req.txn := (of_decide_eq_true h).1
  unfold LogEntry.updates LogEntry.refTxn at hu
  cases hk : e.kind <;> simp_all

theorem initialCommit_reach {x : ℕ} (h : initialCommit.graph.Reach 1 x) : x < 2 := by
  have hle : ∀ {a b}, initialCommit.graph.Reach a b → b ≤ a := by
    intro a b hab
    induction hab with
    | refl => exact Nat.le_refl _
    | tail _ hlink ih => exact (Nat.le_of_lt hlink.height_lt).trans ih
  exact Nat.lt_succ_of_le (hle h)

theorem backed_firstPush {batch : List LogEntry} (he : e ∈ batch)
    (h : LogEntry.isOf firstPush e = true) :
    Backed initialCommit σ batch e (pushOf firstPush fun x => x < 2) where
  carries := carries_of_isOf (by decide) h
  parsed u hu _ := by
    obtain rfl := List.mem_singleton.mp (mem_updates_of_isOf h hu)
    decide
  present hp t ht x hx _ := by
    obtain rfl : t = 1 := by
      have : (pushOf firstPush fun x => decide (x < 2)).tips = [1] := by decide
      rw [this] at ht
      exact List.mem_singleton.mp ht
    have hlt := initialCommit_reach hx
    obtain ⟨p, hp⟩ := Option.isSome_iff_exists.mp hp
    have hpack : some p.checksum = some "pa" := by
      have := (of_decide_eq_true h).2
      rwa [hp] at this
    refine .inr ⟨p, List.mem_append_right _ (List.mem_filterMap.mpr ⟨e, he, hp⟩), ?_⟩
    rw [Option.some.inj hpack]
    have hpa : ∀ y < 2, ("pa", y) ∈ initialPacks := by decide
    exact hpa x hlt
  known hnone := by
    have := (of_decide_eq_true h).2
    rw [hnone] at this
    cases this

theorem backed_secondPush {batch : List LogEntry} (h : LogEntry.isOf secondPush e = true)
    (href : σ.committedRefs (.ref mainRef) = some oidA) :
    Backed initialCommit σ batch e (pushOf secondPush fun x => x < 2) where
  carries := carries_of_isOf (by decide) h
  parsed u hu _ := by
    obtain rfl := List.mem_singleton.mp (mem_updates_of_isOf h hu)
    decide
  present hp := by
    have := (of_decide_eq_true h).2
    obtain ⟨p, hp⟩ := Option.isSome_iff_exists.mp hp
    rw [hp] at this
    cases this
  known _ u hu o ho := by
    obtain rfl := List.mem_singleton.mp (mem_updates_of_isOf h hu)
    exact .inl ⟨mainRef, oidA, o, href, ho.2, .refl⟩

theorem pushesBacked_of_test (h : (o.clean ch σ && backedTest σ o) = true) :
    PushesBacked initialCommit o ch σ := by
  obtain ⟨hc, ht⟩ := Bool.and_eq_true_iff.mp h
  refine ⟨avoids_of_clean (by decide) hc, ?_⟩
  rintro base op slot rfl
  cases op with
  | push packs seg =>
    intro e he
    rcases Bool.or_eq_true_iff.mp (List.all_eq_true.mp ht e he) with hfirst | hsecond
    · exact ⟨_, backed_firstPush he hfirst⟩
    · obtain ⟨hof, href⟩ := Bool.and_eq_true_iff.mp hsecond
      exact ⟨_, backed_secondPush hof (of_decide_eq_true href)⟩
  | compact _ _ _ => cases ht
  | _ => trivial

theorem pushes_not_dangling_twice : ∃ s, RunIf plainConfig (PushesBacked initialCommit) s ∧
    s.world.committedRefs (.ref mainRef) = some oidA ∧
    s.world.committedRefs (.ref devRef) = some oidA ∧ initialCommit.NoDangling s.world := by
  obtain ⟨s, hr, hs⟩ := exists_runIf (fun o ch σ => o.clean ch σ && backedTest σ o)
    (fun _ _ _ => pushesBacked_of_test) plainConfig
    (.spawn (.sync 0) :: steps 0 19 ++ .spawn (.publish 0 [firstPush]) :: steps 1 21 ++
      .spawn (.publish 0 [secondPush]) :: steps 2 20)
    (p := fun s => s.world.committedRefs (.ref mainRef) = some oidA ∧
      s.world.committedRefs (.ref devRef) = some oidA) (by decide +kernel)
  obtain ⟨hmain, hdev⟩ := of_decide_eq_true hs
  exact ⟨s, hr, hmain, hdev, pushes_not_dangling hr⟩

end Examples

end Walgit.Objects
