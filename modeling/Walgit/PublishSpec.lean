import Walgit.LocalSpec

/-!
# The publisher's batch

What a batch writes, what it answers, and that every path of an attempt ends in
an answer that fits what was committed.
-/

namespace Walgit

open Interleaving Replay

variable {L : List Hazard} {t h : ℕ} {m : Manifest} {R : World → Prop} {σ σ' : World}
  {batch : List PublishRequest} {verified : List Verified}

section Entries

variable {now first : ℕ} {reqs : List PublishRequest}

theorem buildEntries_length : (buildEntries now first reqs).length = reqs.length := by
  induction reqs generalizing first with
  | nil => rfl
  | cons req reqs ih => rw [buildEntries, List.length_cons, List.length_cons, ih]

theorem buildEntries_seqs :
    (buildEntries now first reqs).map LogEntry.seq = List.range' first reqs.length := by
  induction reqs generalizing first with
  | nil => rfl
  | cons req reqs ih =>
    rw [buildEntries, List.map_cons, ih, List.length_cons, List.range'_succ]

theorem buildEntries_refTxn :
    (buildEntries now first reqs).filterMap LogEntry.refTxn = reqs.map PublishRequest.txn := by
  induction reqs generalizing first with
  | nil => rfl
  | cons req reqs ih =>
    rw [buildEntries, List.map_cons, List.filterMap_cons, ih]
    rfl

theorem buildEntries_packs {now' : ℕ} : (buildEntries now first reqs).filterMap LogEntry.pack =
    (buildEntries now' first reqs).filterMap LogEntry.pack := by
  induction reqs generalizing first with
  | nil => rfl
  | cons req reqs ih => rw [buildEntries, buildEntries, List.filterMap_cons,
      List.filterMap_cons, ih]

theorem buildEntries_kind {e : LogEntry} (he : e ∈ buildEntries now first reqs) :
    e.kind = .push := by
  induction reqs generalizing first with
  | nil => cases he
  | cons req reqs ih =>
    rcases List.mem_cons.mp he with rfl | he
    · rfl
    · exact ih he

theorem dense_buildEntries {s : Slot} (hs : s.entries = buildEntries now s.seq reqs)
    (hne : reqs ≠ []) : s.Dense := by
  refine ⟨fun hnil => hne ?_, ?_⟩
  · have := congrArg List.length hnil
    rw [hs, buildEntries_length] at this
    exact List.length_eq_zero_iff.mp this
  · rw [hs, buildEntries_seqs, buildEntries_length]

end Entries

section Answers

variable {first : ℕ}

theorem acknowledged_answers {now : ℕ} (hpos : 0 < first) :
    acknowledged (answers first (batch.zip verified)) =
      (buildEntries now first (validRequests batch verified)).map fun e => (e.seq, e.txn) := by
  induction batch generalizing first verified with
  | nil => rfl
  | cons req batch ih =>
    cases verified with
    | nil => rfl
    | cons v verified =>
      rw [List.zip_cons_cons, validRequests_cons, answers]
      split
      · rw [buildEntries, List.map_cons, ← ih (Nat.succ_pos first), acknowledged,
          List.filterMap_cons]
        simp only [Nat.ne_of_gt hpos, if_false]
        rfl
      · rw [← ih hpos, acknowledged, List.filterMap_cons]
        rfl

theorem acknowledged_rejections : acknowledged (rejections batch verified) = [] := by
  unfold acknowledged rejections
  rw [List.filterMap_map]
  exact List.filterMap_eq_nil_iff.mpr fun _ _ => rfl

theorem acknowledged_failures {cause : FailCause} :
    acknowledged (batch.map fun req => (req, .failed cause)) = [] := by
  unfold acknowledged
  rw [List.filterMap_map]
  exact List.filterMap_eq_nil_iff.mpr fun _ _ => rfl

/-- A request's verdict names its refs and is the conjunction of theirs. -/
structure Verified.For (v : Verified) (req : PublishRequest) : Prop where
  names : v.perRef.map Prod.fst = req.txn.updates.map RefUpdate.name
  valid : v.valid = allOk v.perRef

theorem verifyRequest_for {view : RefView} {floor : Option ℕ} {req : PublishRequest} :
    Verified.For (verifyRequest view floor req).1 req := by
  refine ⟨?_, rfl⟩
  unfold verifyRequest
  simp only
  split
  · rw [List.map_map]
    simp only [verifyTxn, List.map_map]
    rfl
  · rw [verifyTxn, List.map_map]
    rfl

theorem verifyBatch_for {view : RefView} {floor : Option ℕ} :
    ∀ r ∈ batch.zip (verifyBatch view floor batch), r.2.For r.1 := by
  induction batch generalizing view floor with
  | nil => exact fun r hr => by cases hr
  | cons req batch ih =>
    intro r hr
    rw [verifyBatch, List.zip_cons_cons] at hr
    rcases List.mem_cons.mp hr with rfl | hr
    · exact verifyRequest_for
    · exact ih r hr

theorem Verified.uniform {v : Verified} {req : PublishRequest} {seq : ℕ} (hf : v.For req)
    (hm : ¬ v.Mixed) (hseq : seq ≠ 0 ↔ v.valid = true) :
    (Reply.done seq v.perRef).Uniform req.txn := by
  refine ⟨hf.names, fun r hr => ?_⟩
  cases hv : v.valid with
  | true =>
    rw [decide_eq_true (hseq.mpr hv)]
    rw [hf.valid] at hv
    exact List.all_eq_true.mp hv r hr
  | false =>
    have hz : ¬ seq ≠ 0 := fun hne => by
      rw [hseq.mp hne] at hv
      cases hv
    rw [decide_eq_false hz]
    cases hr' : isOk r.2 with
    | false => rfl
    | true => exact absurd ⟨hv, r, hr, hr'⟩ hm

theorem mem_answers {rs : List (PublishRequest × Verified)} (hpos : 0 < first)
    {a : PublishRequest × Reply} (ha : a ∈ answers first rs) :
    ∃ r ∈ rs, ∃ seq, a = (r.1, .done seq r.2.perRef) ∧ (seq ≠ 0 ↔ r.2.valid = true) := by
  induction rs generalizing first with
  | nil => cases ha
  | cons r rs ih =>
    obtain ⟨req, v⟩ := r
    rw [answers] at ha
    split at ha
    · rename_i hv
      rcases List.mem_cons.mp ha with rfl | ha
      · exact ⟨_, List.mem_cons_self, first, rfl, fun _ => hv, fun _ => Nat.ne_of_gt hpos⟩
      · obtain ⟨r, hr, hx⟩ := ih (Nat.succ_pos first) ha
        exact ⟨r, List.mem_cons_of_mem _ hr, hx⟩
    · rename_i hv
      rcases List.mem_cons.mp ha with rfl | ha
      · exact ⟨_, List.mem_cons_self, 0, rfl, fun h => absurd rfl h, fun h => absurd h hv⟩
      · obtain ⟨r, hr, hx⟩ := ih hpos ha
        exact ⟨r, List.mem_cons_of_mem _ hr, hx⟩

end Answers

section Replies

theorem filter_eq_singleton {α β : Type} [DecidableEq β] {f : α → β} {l : List α} {a : α}
    (hl : l.Pairwise fun x y => f x ≠ f y) (ha : a ∈ l) : l.filter (fun x => f x = f a) = [a] := by
  induction l with
  | nil => cases ha
  | cons x l ih =>
    obtain ⟨hx, hl⟩ := List.pairwise_cons.mp hl
    rcases List.mem_cons.mp ha with rfl | ha
    · rw [List.filter_cons_of_pos (by simp), List.filter_eq_nil_iff.mpr]
      intro y hy
      simpa using (hx y hy).symm
    · rw [List.filter_cons_of_neg (by simpa using hx a ha), ih hl ha]

theorem NoCommit.committedBy (hn : NoCommit t σ) : σ.committedBy t = [] := by
  rw [World.committedBy, List.filter_eq_nil_iff.mpr]
  · rfl
  · exact fun c hc => by simpa using hn c hc

theorem Landed.committedBy {op : ManifestOp} {s : Slot} (hi : Inv L σ)
    (hl : Landed t m op (some s) σ) :
    σ.committedBy t = s.entries.map fun e => (e.seq, e.txn) := by
  obtain ⟨v, hc⟩ := hl.commit
  have := filter_eq_singleton (f := Commit.task) hi.once hc
  rw [World.committedBy, this]
  exact List.append_nil _

theorem spec_respond {P : World → Prop} {as : List (PublishRequest × Reply)}
    (h : ∀ σ, Inv L σ → P σ → ReplyOk L σ ⟨t, as⟩) :
    Spec L t (call (.respond as)) P fun _ _ => True := by
  refine Discipline.Triple.perform (fun _ => Discipline.Stable.const) (fun _ _ _ => trivial) ?_
  intro σ c r σ' hi hp hok hex
  cases hex
  exact ⟨(Keeps.reply (h σ hi hp)).inv hi, .reply rfl, trivial⟩

theorem spec_finishWithError {P : World → Prop} {cause : FailCause}
    (hno : ∀ σ, P σ → ReplyLevel L → NoCommit t σ)
    (hun : ∀ σ, P σ → cause.uncommitted → Hazard.landedTrimmed ∈ L → NoCommit t σ) :
    Spec L t (finishWithError batch cause) P fun _ _ => True := by
  refine spec_respond fun σ hi hp => ⟨fun hL => ?_, fun hL a ha => ?_,
    fun hL a ha cause' he hu => ?_⟩
  · exact acknowledged_failures.trans (hno σ hp hL).committedBy.symm
  · obtain ⟨req, -, rfl⟩ := List.mem_map.mp ha
    trivial
  · obtain ⟨req, -, rfl⟩ := List.mem_map.mp ha
    cases he
    exact hun σ hp hu hL

end Replies

section Attempt

variable {s : LogSlot} {committed : Manifest} {known : Option ℕ} {view : RefState}
  {floor : Option ℕ} {again : Task Unit}

/-- What a batch writes at a claimed slot past `m`. -/
abbrev BatchSlot (m : Manifest) (known : Option ℕ) (batch : List PublishRequest)
    (verified : List Verified) (s : LogSlot) : Prop :=
  ClaimOk m.headSeq known (fun now first => buildEntries now first (validRequests batch verified)) s

theorem BatchSlot.last (hs : BatchSlot m known batch verified s) :
    s.slot.last = s.slot.seq + (validRequests batch verified).length - 1 := by
  obtain ⟨now, he⟩ := hs.entries
  rw [Slot.last, he, buildEntries_length]

theorem BatchSlot.dense (hs : BatchSlot m known batch verified s)
    (hne : validRequests batch verified ≠ []) : s.slot.Dense := by
  obtain ⟨now, he⟩ := hs.entries
  exact dense_buildEntries he hne

theorem BatchSlot.txns (hs : BatchSlot m known batch verified s) :
    (validRequests batch verified).map PublishRequest.txn =
      s.slot.entries.filterMap LogEntry.refTxn := by
  obtain ⟨now, he⟩ := hs.entries
  rw [he, buildEntries_refTxn]

theorem buildEntries_txn {now first : ℕ} {reqs : List PublishRequest} {e : LogEntry}
    (he : e ∈ buildEntries now first reqs) : e.refTxn = e.txn := by
  rw [LogEntry.refTxn, buildEntries_kind he]

theorem BatchSlot.orderly {packs : List PackRef} {seg : LogSegmentRef}
    (hs : BatchSlot m known batch verified s) :
    Orderly known m (.push packs seg) (some s.slot) := by
  refine ⟨fun v x hv hx => ?_, fun x hx e hmem => ?_, fun cp old => nofun⟩
  · cases hx
    exact hs.after v hv
  · cases hx
    obtain ⟨now, he⟩ := hs.entries
    rw [he] at hmem
    exact buildEntries_txn hmem

theorem spec_noteEntryTimes {es : List LogEntry} (hR : Calm L t R) :
    Spec L t (noteEntryTimes h es) R fun _ => R := by
  induction es with
  | nil => exact Spec.ret fun _ _ hx => hx
  | cons e es ih => exact Spec.bind (spec_noteTime hR) fun _ => ih

/-- The verdicts of a batch, none of them mixed where that is avoided. -/
structure BatchOk (L : List Hazard) (batch : List PublishRequest) (verified : List Verified) :
    Prop where
  each : ∀ r ∈ batch.zip verified, r.2.For r.1
  mixed : Hazard.mixedVerdict ∈ L → ∀ v ∈ verified, ¬ v.Mixed

theorem BatchOk.uniform (hb : BatchOk L batch verified) (hL : Hazard.mixedVerdict ∈ L)
    {r : PublishRequest × Verified} (hr : r ∈ batch.zip verified) {seq : ℕ}
    (hseq : seq ≠ 0 ↔ r.2.valid = true) : (Reply.done seq r.2.perRef).Uniform r.1.txn :=
  Verified.uniform (hb.each r hr) (hb.mixed hL _ (List.of_mem_zip hr).2) hseq

theorem spec_answer {op : ManifestOp} (hb : BatchOk L batch verified)
    (hs : BatchSlot m known batch verified s) (hl : ∀ σ, R σ → Landed t m op (some s.slot) σ) :
    Spec L t (call (.respond (answers s.slot.seq (batch.zip verified)))) R fun _ _ => True := by
  have hpos : 0 < s.slot.seq := Nat.zero_lt_of_lt hs.past
  refine spec_respond fun σ hi hr => ⟨fun _ => ?_, fun hL a ha => ?_, fun _ a ha cause he => ?_⟩
  · obtain ⟨now, hes⟩ := hs.entries
    rw [(hl σ hr).committedBy hi, hes]
    exact acknowledged_answers hpos
  · obtain ⟨r, hmem, seq, rfl, hseq⟩ := mem_answers hpos ha
    exact hb.uniform hL.2.2 hmem hseq
  · obtain ⟨r, -, seq, rfl, -⟩ := mem_answers hpos ha
    cases he

theorem spec_published {packs : List PackRef} {entries : List LogEntry} {version last : ℕ}
    (hp : PairLevel L) (hb : BatchOk L batch verified) (hs : BatchSlot m known batch verified s)
    (hne : validRequests batch verified ≠ [])
    (hlast : last = s.slot.seq + (validRequests batch verified).length - 1)
    {op : ManifestOp} (hop : .push packs ⟨s.slot.seq, s.slot.seq, last⟩ = op) (hR : Calm L t R)
    (hc : ∀ σ, R σ → Carries L t h m op (some s.slot) committed version σ) :
    Spec L t (published h batch verified s entries last committed version) R fun _ _ => True := by
  subst hop
  have hseq := (hs.dense hne).seq_le_last
  rw [hs.last, ← hlast] at hseq
  have hpast := hs.past
  unfold published
  rw [hs.txns]
  refine Spec.bind (spec_localCommit hp hR hc nofun ?_ ?_) fun _ => ?_
  · change m.headSeq ≤ last
    omega
  · intro σ hr hL
    rw [(hc σ hr).same hL]
    rfl
  refine Spec.bind (spec_sweepBurned hR fun σ hr b hmem => ?_) fun _ => ?_
  · exact (hc σ hr).landed.dead _ rfl b (hs.burned b hmem).1 (hs.burned b hmem).2
  refine Spec.bind (spec_noteEntryTimes hR) fun _ => ?_
  exact spec_answer hb hs fun σ hr => (hc σ hr).landed

/-- The refs a batch is verified against are near those of `m`. -/
def View (m : Manifest) (view : RefState) (σ : World) : Prop :=
  Has m σ ∧ ∃ k ≤ σ.head, NearFold σ.log view m.headSeq k

theorem lasting_view : Lasting L (View m view) := by
  refine .of_extends fun σ σ' hi _ he ⟨hm, k, hk, hn⟩ => ⟨he.has hm, k, hk.trans he.head, ?_⟩
  exact he.near (hm.headSeq_le hi) hn

theorem View.cas {now first : ℕ} (hv : View m view σ) (hhead : σ.head = m.headSeq)
    (hplain : ∀ e ∈ buildEntries now first (validRequests batch
      (verifyBatch ⟨view, []⟩ floor batch)), ¬ e.setsHead ∧ ¬ e.repeatsRef) :
    CasOk (foldUpto σ.log m.headSeq)
      (buildEntries now first (validRequests batch (verifyBatch ⟨view, []⟩ floor batch))) := by
  obtain ⟨-, k, hk, hn⟩ := hv
  have hexact : view = foldUpto σ.log m.headSeq := Near.exact hn (hhead ▸ hk)
  refine casOk_of_verifyBatch ?_ noNull_foldUpto hplain
  rw [← hexact]
  exact shows_base view

/-- What an attempt has read before it verifies its batch. -/
structure Attempt (L : List Hazard) (h : ℕ) (m : Manifest) (known : Option ℕ) (view : RefState)
    (σ : World) : Prop where
  pair : PairOf m known σ
  atLeast : AtLeast h m.revision σ
  view : CasLevel L → View m view σ

theorem lasting_attempt : Lasting L (Attempt L h m known view) :=
  fun t' σ σ' hi hi' hg ha =>
    ⟨lasting_pairOf t' σ σ' hi hi' hg ha.pair, lasting_atLeast t' σ σ' hi hi' hg ha.atLeast,
      fun hL => lasting_view t' σ σ' hi hi' hg (ha.view hL)⟩

theorem spec_publishClaimed (hp : PairLevel L) (hv : verified = verifyBatch ⟨view, []⟩ floor batch)
    (hb : BatchOk L batch verified) (hs : BatchSlot m known batch verified s)
    (hne : validRequests batch verified ≠ [])
    (hagain : Spec L t again (Fresh t) fun _ _ => True) :
    Spec L t (publishClaimed h batch verified m known s again)
      (fun σ => Attempt L h m known view σ ∧ Fresh t σ ∧ Mine t s.slot σ) fun _ _ => True := by
  have hslot : ∀ x, some s.slot = some x → m.headSeq < x.seq ∧ x.Dense := by
    rintro x hx
    cases hx
    exact ⟨hs.past, hs.dense hne⟩
  unfold publishClaimed
  simp only
  refine Spec.bind (Spec.skip rfl (lasting_attempt.calm.stable.and
    (calm_fresh.stable.and stable_mine))) fun now => ?_
  generalize hlast : s.slot.seq + (validRequests batch verified).length - 1 = last
  generalize hop : ManifestOp.push ((buildEntries now s.slot.seq
    (validRequests batch verified)).filterMap LogEntry.pack) ⟨s.slot.seq, s.slot.seq, last⟩ = op
  have hseg : op.segment = (some s.slot).map Slot.ref := by
    rw [← hop, Option.map_some, Slot.ref, hs.last, hlast]
    rfl
  have hlogs : op.Logs s.slot.entries := by
    obtain ⟨nw, hes⟩ := hs.entries
    rw [← hop, hes]
    exact ⟨buildEntries_packs, fun e he => buildEntries_kind he⟩
  refine Spec.bind ((spec_putManifest (R := Attempt L h m known view) lasting_attempt
    (by rw [← hop]; exact fun h => by cases h) hseg hlogs hslot (hop ▸ hs.orderly)
      (fun σ hr => hr.pair) ?_ ?_).pre
    ?_) fun r => ?_
  · rintro σ - cp hcp
    rw [← hop] at hcp
    cases hcp
  · rintro σ - hr hhead hL x hx hplain
    cases hx
    obtain ⟨nw, hes⟩ := hs.entries
    rw [hes, hv] at hplain ⊢
    exact (hr.view hL).cas hhead hplain
  · rintro σ - ⟨hr, hf, hm⟩
    refine ⟨hr, hf, fun x hx => ?_⟩
    cases hx
    exact hm
  have hpub : ∀ {committed : Manifest} {version : ℕ}, Spec L t
      (published h batch verified s (buildEntries now s.slot.seq (validRequests batch verified))
        last committed version) (Carries L t h m op (some s.slot) committed version)
      fun _ _ => True := by
    intro committed version
    exact spec_published hp hb hs hne hlast.symm hop lasting_carries.calm fun σ hc => hc
  rcases r with (_ | _) | version
  · refine Spec.bind ((spec_dropOwnSlot calm_fresh).pre ?_) fun _ => hagain
    exact fun σ _ hx => ⟨hx.2.1, hx.2.2 _ rfl⟩
  · refine Spec.bind ((spec_casLanded (R := Attempt L h m known view) m op lasting_attempt).pre ?_)
      fun r => ?_
    · rintro σ - ⟨hr, hx⟩
      exact ⟨hr, hx.imp_left fun hx => ⟨hx.1, hx.2 _ rfl⟩⟩
    rcases r with e | _ | fresh
    · exact spec_finishWithError (fun σ hx hL => hx.2 hL.2.1) fun _ _ hu => hu.elim
    · exact spec_finishWithError (fun σ hx hL => hx.2 hL.1) fun σ hx _ hL => hx.2 hL
    · refine Spec.bind (spec_headManifest hp (lasting_attempt.and
        (lasting_landed.and (lasting_has.and .const))).calm.stable) fun r => ?_
      rcases r with e | _ | version
      · exact spec_finishWithError (fun σ hx hL => absurd hL.2.1 hx.2) fun _ _ hu => hu.elim
      · exact spec_finishWithError (fun σ hx => hx.2.elim) fun _ _ hu => hu.elim
      · refine hpub.pre ?_
        rintro σ - ⟨⟨hr, hl, -, hsame⟩, hpair⟩
        exact ⟨hl, hr.pair.has, hpair, hr.atLeast, hsame⟩
  · refine hpub.pre ?_
    rintro σ - ⟨hr, hl, hpair⟩
    exact ⟨hl, hr.pair.has, hpair, hr.atLeast, fun _ => rfl⟩

theorem spec_publishVerified {cfg : Config} (hp : PairLevel L)
    (hv : verified = verifyBatch ⟨view, []⟩ floor batch) (hb : BatchOk L batch verified)
    (hagain : Spec L t again (Fresh t) fun _ _ => True) :
    Spec L t (publishVerified cfg h batch verified m known again)
      (fun σ => Attempt L h m known view σ ∧ Fresh t σ) fun _ _ => True := by
  have hcalm : Calm L t fun σ => Attempt L h m known view σ ∧ Fresh t σ :=
    lasting_attempt.calm.and calm_fresh
  have herr : ∀ {P : World → Prop} {cause : FailCause}, (∀ σ, P σ → Fresh t σ) →
      Spec L t (finishWithError batch cause) P fun _ _ => True := fun hP =>
    spec_finishWithError (fun σ hx _ => (hP σ hx).commits) fun σ hx _ _ => (hP σ hx).commits
  unfold publishVerified
  simp only
  split
  · -- every request is rejected
    refine spec_respond fun σ hi hx => ⟨fun _ => ?_, fun hL a ha => ?_, fun _ a ha cause he => ?_⟩
    · have hn : NoCommit t σ := hx.2.commits
      exact acknowledged_rejections.trans hn.committedBy.symm
    · obtain ⟨r, hr, rfl⟩ := List.mem_map.mp ha
      rename_i hempty
      refine hb.uniform hL.2.2 hr ⟨fun h => absurd rfl h, fun hvalid => ?_⟩
      have hmem : r.1 ∈ validRequests batch verified :=
        List.mem_map.mpr ⟨r, List.mem_filter.mpr ⟨hr, hvalid⟩, rfl⟩
      rw [List.isEmpty_iff.mp hempty] at hmem
      cases hmem
    · obtain ⟨r, -, rfl⟩ := List.mem_map.mp ha
      cases he
  · rename_i hne
    refine Spec.bind (R := fun _ σ => Attempt L h m known view σ ∧ Fresh t σ) ?_ fun upload => ?_
    · unfold uploadPacks
      split
      · exact Spec.skip rfl hcalm.stable
      · exact Spec.ret fun _ _ hx => hx
    refine Spec.bind (spec_claimLogSlot m.headSeq hcalm (fun σ hx => hx.1.pair) (Nat.lt_succ_self _)
      fun b hb => by cases hb) fun claim => ?_
    rcases upload with e | u
    · exact herr fun σ hx => hx.1.2
    · rcases claim with e | (s | _)
      · exact herr fun σ hx => hx.1.2
      · refine (Spec.knowing fun hs => spec_publishClaimed hp hv hb hs ?_ hagain).pre ?_
        · exact fun hnil => hne (List.isEmpty_iff.mpr hnil)
        · exact fun σ _ hx => ⟨⟨hx.1.1, hx.1.2, hx.2.1⟩, hx.2.2⟩
      · exact hagain.pre fun σ _ hx => hx.1.2

theorem spec_manifest {P : World → Prop} (hP : Keeping L t P) :
    Spec L t (call (.manifest h)) P fun m σ => P σ ∧ Has m σ ∧ AtLeast h m.revision σ := by
  refine Spec.read (o := .manifest h) rfl hP (fun _ => lasting_has.and lasting_atLeast) ?_
  intro σ c m hi _ _ hex
  obtain ⟨-, hd, hh, rfl⟩ := read_eq hex
  obtain ⟨a, ha, hman, -⟩ := (hi.handles h hd hh).pair
  exact ⟨⟨a, ha, hman⟩, hd, hh, Nat.le_refl _⟩

theorem spec_versionFor {P : World → Prop} (hp : PairLevel L) (hP : Keeping L t P) :
    Spec L t (call (.versionFor h m)) P fun known σ => P σ ∧ PairOf m known σ := by
  refine Spec.read (o := .versionFor h m) rfl hP (fun _ => lasting_pairOf) ?_
  intro σ c known hi _ hok hex
  obtain ⟨-, hd, hh, rfl⟩ := read_eq hex
  have hman : hd.manifest = m := by
    by_contra hne
    exact hok .tornRead hp.tornRead ⟨h, m, rfl, hd, hh, hne⟩
  rw [← hman]
  exact (hi.handles h hd hh).pair

theorem spec_refView {P : World → Prop} (hP : Keeping L t P) (hm : ∀ σ, P σ → Has m σ) :
    Spec L t (call (.refView h m)) P fun r σ => P σ ∧ ∀ view, r = .ok view → CasLevel L →
      View m view σ := by
  refine Spec.read (o := .refView h m) rfl hP (fun _ => .all fun _ => lasting_view.imp.imp) ?_
  rintro σ c r hi hx hok hex view rfl hL
  obtain ⟨-, hd, hh, hr⟩ := read_eq hex
  obtain rfl := Choice.get_ok hr.symm
  have hproven : hd.provenAt m.headSeq := by
    by_contra hne
    exact hok .staleView hL.2.1 ⟨h, m, rfl, hd, hh, hne⟩
  obtain ⟨-, k, hk, hn, -⟩ := (hi.handles h hd hh).near hL.1 hproven.1
  refine ⟨hm σ hx, k, hk, ?_⟩
  rwa [← hproven.2]

theorem spec_publishAttempt {cfg : Config} {attempts : ℕ} (hp : PairLevel L)
    (hagain : Spec L t again (Fresh t) fun _ _ => True) :
    Spec L t (publishAttempt cfg h batch attempts again) (Fresh t) fun _ _ => True := by
  have hfresh : Keeping L t (Fresh t) := calm_fresh.stable
  have herr : ∀ {P : World → Prop} {cause : FailCause}, (∀ σ, P σ → Fresh t σ) →
      Spec L t (finishWithError batch cause) P fun _ _ => True := fun hP =>
    spec_finishWithError (fun σ hx _ => (hP σ hx).commits) fun σ hx _ _ => (hP σ hx).commits
  unfold publishAttempt
  refine Spec.bind (R := fun _ => Fresh t) ?_ fun synced => ?_
  · unfold syncFirst
    split
    · exact spec_syncRefsPhase hp calm_fresh
    · exact Spec.ret fun _ _ hx => hx
  rcases synced with e | u
  · exact herr fun _ hx => hx
  refine Spec.bind (spec_manifest hfresh) fun m => ?_
  have hm : Keeping L t fun σ => Fresh t σ ∧ Has m σ ∧ AtLeast h m.revision σ :=
    hfresh.and (lasting_has.and lasting_atLeast).calm.stable
  refine Spec.bind (spec_versionFor hp hm) fun known => ?_
  have hk := hm.and (lasting_pairOf.calm.stable : Keeping L t (PairOf m known))
  refine Spec.bind (spec_refView hk fun σ hx => hx.2.has) fun r => ?_
  rcases r with e | view
  · exact herr fun _ hx => hx.1.1.1
  refine Spec.bind (R := fun floor σ => (Attempt L h m known view σ ∧ Fresh t σ) ∧
    BatchOk L batch (verifyBatch ⟨view, []⟩ floor batch)) ?_ fun floor => ?_
  · refine (Spec.read (o := .lastEntryTime h view batch) rfl
      (lasting_attempt.calm.stable.and hfresh)
      (F := fun floor _ => BatchOk L batch (verifyBatch ⟨view, []⟩ floor batch))
      (fun _ => .const) ?_).pre ?_
    · intro σ c floor hi _ hok hex
      obtain ⟨-, hd, hh, rfl⟩ := read_eq hex
      refine ⟨verifyBatch_for, fun hL v hv hmix => ?_⟩
      exact hok _ hL ⟨h, view, batch, rfl, hd, hh, v, hv, hmix⟩
    · rintro σ - ⟨⟨⟨hf, -, hat⟩, hpair⟩, hview⟩
      exact ⟨⟨hpair, hat, hview view rfl⟩, hf⟩
  · exact Spec.knowing fun hb => spec_publishVerified hp rfl hb hagain

theorem spec_processBatchFrom {cfg : Config} {left attempts : ℕ} (hp : PairLevel L) :
    Spec L t (processBatchFrom cfg h batch left attempts) (Fresh t) fun _ _ => True := by
  induction left generalizing attempts with
  | zero =>
    refine spec_publishAttempt hp (spec_finishWithError ?_ ?_)
    · exact fun σ hx _ => hx.commits
    · exact fun σ hx _ _ => hx.commits
  | succ left ih => exact spec_publishAttempt hp ih

end Attempt

theorem spec_updateIf {o : Op} {f : Handle → Handle} (hn : ∀ σ, o.needs t σ) (hR : Calm L t R)
    (hex : ∀ c σ (r : o.Res) σ', exec t o c σ = some (r, σ') →
      ∃ hd, σ.handles h = some hd ∧ σ' = σ.setHandle h (f hd))
    (hf : ∀ hd, SameCore hd (f hd) ∧ (f hd).version = hd.version ∧
      (f hd).syncMutex = hd.syncMutex) :
    Spec L t (call o) R fun _ => R := by
  refine Discipline.Triple.perform (fun _ => hR.stable) (fun σ _ _ => hn σ) ?_
  intro σ c r σ' hi hr _ he
  obtain ⟨hd, hh, rfl⟩ := hex c σ r σ' he
  obtain ⟨hs, hv, hm⟩ := hf hd
  have hq : Quiet L t σ (σ.setHandle h (f hd)) := .setHandle hi hh
    ((hi.handles h hd hh).of_same hs hv fun h => by rwa [hm] at h) (.of_same hs hm)
  exact ⟨hq.inv', hq.guar, hR.quiet σ _ hq hr⟩

theorem spec_processBatch {cfg : Config} (hp : PairLevel L) :
    Spec L t (processBatch cfg h batch) (Fresh t) fun _ _ => True := by
  unfold processBatch
  refine Spec.bind (spec_updateIf (h := h) (f := fun hd => { hd with publishing := true })
    (fun _ => trivial) calm_fresh ?_ fun hd => ⟨⟨rfl, rfl, rfl, rfl⟩, rfl, rfl⟩) fun _ => ?_
  · intro c σ r σ' hex
    obtain ⟨hd, hh, -, rfl⟩ := updateIf_eq hex
    exact ⟨hd, hh, rfl⟩
  refine Spec.bind (spec_processBatchFrom hp) fun _ => ?_
  refine Spec.free (o := .endBatch h) (fun _ => trivial)
    (fun _ hd => ((), { hd with publishing := false }))
    (fun _ _ => rfl) Lasting.const.calm ?_
  intro σ c hd _ _ _ _ hinv
  exact ⟨hinv.of_same ⟨rfl, rfl, rfl, rfl⟩ rfl id, .of_same ⟨rfl, rfl, rfl, rfl⟩ rfl⟩

end Walgit
