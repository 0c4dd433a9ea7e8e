import Walgit.Compaction
import Walgit.Puts
import Walgit.Trace

/-!
# What compactions keep

What is reachable at some commit stays covered: by the objects reachable then
and by the packs of the entries after its head. A pack that has all of the
former, as that of a full repack has, may take the place of every pack up to
that head; a pack that has the objects of others may take their place.
-/

namespace Walgit

open Interleaving

variable {G : ObjectGraph} {t s₀ : ℕ} {B : String → Prop}

section Covering

variable {σ σ' : World}

/-- What is reachable is in `B` or in a live pack of an entry past `s₀`. -/
structure Since (G : ObjectGraph) (s₀ : ℕ) (B : String → Prop) (σ : World) : Prop where
  head : s₀ ≤ σ.head
  covered : ∀ oid, G.Reached σ.committedRefs oid →
    B oid ∨ ∃ p ∈ σ.current.manifest.packs, s₀ < p.seq ∧ G.packed p.checksum oid

theorem Since.mono {s₁ : ℕ} {B' : String → Prop} (h : Since G s₁ B σ) (hs : s₀ ≤ s₁)
    (hB : ∀ oid, B oid → B' oid) : Since G s₀ B' σ where
  head := hs.trans h.head
  covered oid ho := by
    rcases h.covered oid ho with hb | ⟨p, hp, hlt, hpo⟩
    · exact .inl (hB oid hb)
    · exact .inr ⟨p, hp, hs.trans_lt hlt, hpo⟩

theorem Since.of_commits (hc : σ'.commits = σ.commits) (h : Since G s₀ B σ) : Since G s₀ B σ' := by
  have hcur : σ'.current = σ.current := by rw [World.current, hc, World.current]
  have hrefs : σ'.committedRefs = σ.committedRefs := by
    rw [World.committedRefs, World.log, hc, World.committedRefs, World.log]
  refine ⟨?_, ?_⟩
  · rw [World.head, hcur]
    exact h.head
  · rw [hrefs, hcur]
    exact h.covered

theorem complete_of_since (h : Since G 0 (fun _ => False) σ) : Complete G σ := by
  intro oid ho
  rcases h.covered oid ho with hf | ⟨p, hp, -, hpo⟩
  · exact hf.elim
  · exact ⟨p, hp, hpo⟩

/-- The pack may take the place of the packs it supersedes. -/
def Replaces (G : ObjectGraph) (pack : String) (supersedes : List String) (σ : World) : Prop :=
  (∀ c ∈ supersedes, ∀ oid, G.packed c oid → G.packed pack oid) ∨
    ∃ s₁, Since G s₁ (G.packed pack) σ ∧
      ∀ p ∈ σ.current.manifest.packs, p.checksum ∈ supersedes → p.seq ≤ s₁

def Upholds (G : ObjectGraph) (op : ManifestOp) (slot : Option Slot) (σ : World) : Prop :=
  match op with
  | .push packs _ => ∀ oid,
      G.Reached (Replay.replay σ.committedRefs
        ((slot.elim [] Slot.entries).flatMap LogEntry.writes)) oid →
      G.Reached σ.committedRefs oid ∨ ∃ p ∈ packs, G.packed p.checksum oid
  | .compact pack supersedes _ => Replaces G pack.checksum supersedes σ
  | _ => True

theorem mem_sortPacks {packs : List PackRef} {p : PackRef} : p ∈ sortPacks packs ↔ p ∈ packs := by
  simp [sortPacks]

theorem mem_annotatePack {checksum : String} {rev bitmap graph : Bool} {packs : List PackRef}
    {p : PackRef} (hp : p ∈ packs) : ∃ q ∈ annotatePack checksum rev bitmap graph packs,
      q.seq = p.seq ∧ q.checksum = p.checksum := by
  induction packs with
  | nil => cases hp
  | cons a packs ih =>
    unfold annotatePack
    split
    · rcases List.mem_cons.mp hp with rfl | hp
      · exact ⟨_, List.mem_cons_self, rfl, rfl⟩
      · exact ⟨p, List.mem_cons_of_mem _ hp, rfl, rfl⟩
    · rcases List.mem_cons.mp hp with rfl | hp
      · exact ⟨p, List.mem_cons_self, rfl, rfl⟩
      · obtain ⟨q, hq, hqs⟩ := ih hp
        exact ⟨q, List.mem_cons_of_mem _ hq, hqs⟩

theorem committedRefs_commit {base : Manifest} {op : ManifestOp} {slot : Option Slot} :
    (σ.commit t base op slot).committedRefs = Replay.replay σ.committedRefs
      ((slot.elim [] Slot.entries).flatMap LogEntry.writes) := by
  have hlog : (σ.commit t base op slot).log = σ.log ++ slot.elim [] Slot.entries := rfl
  rw [World.committedRefs, hlog, List.flatMap_append, Replay.replay_append, World.committedRefs]

theorem committedRefs_same {base : Manifest} {op : ManifestOp} {slot : Option Slot}
    (h : WritesNoRefs slot) : (σ.commit t base op slot).committedRefs = σ.committedRefs := by
  have hnil : (slot.elim [] Slot.entries).flatMap LogEntry.writes = [] := by
    cases slot with
    | none => rfl
    | some s => exact List.flatMap_eq_nil_iff.mpr (h s rfl)
  rw [committedRefs_commit, hnil, Replay.replay]

theorem Since.keep {base : Manifest} {op : ManifestOp} {slot : Option Slot}
    (h : Since G s₀ B σ) (hs : WritesNoRefs slot) (hhead : base.headSeq ≤ (op.apply base).headSeq)
    (hbase : base = σ.current.manifest)
    (hp : ∀ oid, B oid ∨ (∃ p ∈ base.packs, s₀ < p.seq ∧ G.packed p.checksum oid) →
      G.Reached σ.committedRefs oid →
      B oid ∨ ∃ p ∈ (op.apply base).packs, s₀ < p.seq ∧ G.packed p.checksum oid) :
    Since G s₀ B (σ.commit t base op slot) where
  head := by
    have hle := h.head
    rw [World.head, ← hbase] at hle
    exact hle.trans hhead
  covered oid ho := by
    rw [committedRefs_same hs] at ho
    exact hp oid (hbase ▸ h.covered oid ho) ho

theorem writesNoRefs_none : WritesNoRefs none := nofun

theorem Since.commit {base : Manifest} {op : ManifestOp} {slot : Option Slot}
    (h : Since G s₀ B σ) (hbase : base = σ.current.manifest) (hput : PutFrom base op slot)
    (hk : Upholds G op slot σ) : Since G s₀ B (σ.commit t base op slot) := by
  have hs₀ : s₀ ≤ base.headSeq := by
    rw [hbase]
    exact h.head
  cases op with
  | create => exact hput.elim
  | push packs seg =>
    obtain ⟨hlast, hseqs⟩ := hput
    refine ⟨hs₀.trans hlast, fun oid ho => ?_⟩
    rw [committedRefs_commit] at ho
    rcases hk oid ho with ho | ⟨p, hp, hpo⟩
    · rcases h.covered oid ho with hb | ⟨p, hp, hlt, hpo⟩
      · exact .inl hb
      · rw [← hbase] at hp
        exact .inr ⟨p, mem_sortPacks.mpr (List.mem_append_left _ hp), hlt, hpo⟩
    · exact .inr ⟨p, mem_sortPacks.mpr (List.mem_append_right _ hp),
        hs₀.trans_lt (hseqs p hp), hpo⟩
  | compact pack supersedes seg =>
    obtain ⟨hlast, hseq, hsil⟩ := hput
    refine h.keep hsil hlast hbase fun oid hcov hreach => ?_
    have hnew : G.packed pack.checksum oid →
        ∃ p ∈ (ManifestOp.apply base (.compact pack supersedes seg)).packs,
          s₀ < p.seq ∧ G.packed p.checksum oid := fun hpo =>
      ⟨pack, mem_sortPacks.mpr (List.mem_append_right _ (List.mem_singleton.mpr rfl)),
        hs₀.trans_lt hseq, hpo⟩
    have hold : ∀ p ∈ base.packs, p.checksum ∉ supersedes → s₀ < p.seq →
        G.packed p.checksum oid →
          ∃ p ∈ (ManifestOp.apply base (.compact pack supersedes seg)).packs,
          s₀ < p.seq ∧ G.packed p.checksum oid := by
      intro p hp hsup hlt hpo
      by_cases hpk : p.checksum = pack.checksum
      · exact hnew (hpk ▸ hpo)
      · refine ⟨p, mem_sortPacks.mpr (List.mem_append_left _ ?_), hlt, hpo⟩
        exact List.mem_filter.mpr ⟨hp, by simp [hsup, hpk]⟩
    rcases hk with hall | ⟨s₁, hsince, hseqs⟩
    · rcases hcov with hb | ⟨p, hp, hlt, hpo⟩
      · exact .inl hb
      · by_cases hsup : p.checksum ∈ supersedes
        · exact .inr (hnew (hall _ hsup oid hpo))
        · exact .inr (hold p hp hsup hlt hpo)
    · rw [← hbase] at hseqs
      -- the packs past the later of the two seqs stay
      rcases Nat.lt_or_ge s₁ s₀ with hlt₁ | hle
      · rcases hcov with hb | ⟨p, hp, hlt, hpo⟩
        · exact .inl hb
        · refine .inr (hold p hp (fun hsup => ?_) hlt hpo)
          have := hseqs p hp hsup
          omega
      · rcases hsince.covered oid hreach with hpo | ⟨p, hp, hlt, hpo⟩
        · exact .inr (hnew hpo)
        · rw [← hbase] at hp
          refine .inr (hold p hp (fun hsup => ?_) (hle.trans_lt hlt) hpo)
          have := hseqs p hp hsup
          omega
  | settings doc seg => exact h.keep hput.2 hput.1 hbase fun _ hcov _ => hcov
  | checkpoint cp =>
    obtain rfl : slot = none := hput
    exact h.keep writesNoRefs_none (Nat.le_refl _) hbase fun _ hcov _ => hcov
  | annotate checksum rev bitmap graph =>
    obtain rfl : slot = none := hput
    refine h.keep writesNoRefs_none (Nat.le_refl _) hbase fun oid hcov _ => hcov.imp_right ?_
    rintro ⟨p, hp, hlt, hpo⟩
    obtain ⟨q, hq, hqs, hqc⟩ := mem_annotatePack hp
    exact ⟨q, hq, hqs ▸ hlt, hqc ▸ hpo⟩

end Covering

section Discipline

variable {σ σ' : World × Rebuilds} {place : ℕ} {marker : Marker}

/-- A scratch copy, and a base that was made from one, cover what the rebuild started from. -/
structure MarkerOk (G : ObjectGraph) (marker : Marker) (scratch : Option RefState) (σ : World) :
    Prop where
  copied : marker.phase = .copied → ∀ refs, scratch = some refs →
    Since G marker.startedHeadSeq (G.Reached refs) σ
  repacked : marker.phase ≠ .copied → ∃ b rest, marker.newPacks = b :: rest ∧
    Since G marker.startedHeadSeq (G.packed b) σ

structure CompactInv (G : ObjectGraph) (σ : World × Rebuilds) : Prop where
  complete : Since G 0 (fun _ => False) σ.1
  past : ∀ cs, cs <:+ σ.1.commits → Since G (headOf cs) (G.Reached (refsOf cs)) σ.1
  markers : ∀ place marker, σ.2.marker place = some marker →
    MarkerOk G marker (σ.2.scratch place) σ.1

/-- What is covered stays covered, and the files belong to the holder of the lease. -/
structure CompactGuar (G : ObjectGraph) (t : ℕ) (σ σ' : World × Rebuilds) : Prop where
  since : ∀ s₀ B, Since G s₀ B σ.1 → Since G s₀ B σ'.1
  started : ∀ t' ≠ t, σ'.2.started t' = σ.2.started t'
  files : ∀ t' ≠ t, σ'.2.lease = some t' → σ.2.lease = some t' ∧
    σ'.2.scratch = σ.2.scratch ∧ σ'.2.marker = σ.2.marker

def compactDiscipline (G : ObjectGraph) :
    Discipline (Op ⊕ RebuildOp) (Both Op.Res RebuildOp.Res) (World × Rebuilds) Choice where
  exec := compactExec
  ok t o _ σ := GitOk G o σ.2 ∧ CompactsOk G t o σ
  needs _ _ _ := True
  inv := CompactInv G
  guar := CompactGuar G
  fresh _ _ := True

theorem MarkerOk.grows {scratch : Option RefState} {w w' : World}
    (hg : ∀ s₀ B, Since G s₀ B w → Since G s₀ B w') (h : MarkerOk G marker scratch w) :
    MarkerOk G marker scratch w' where
  copied hp refs hs := hg _ _ (h.copied hp refs hs)
  repacked hp := by
    obtain ⟨b, rest, hb, hsince⟩ := h.repacked hp
    exact ⟨b, rest, hb, hg _ _ hsince⟩

theorem not_reached_init {oid : String} : ¬ G.Reached RefState.init oid := by
  rintro ⟨name, tip, hn, -⟩
  cases hn

theorem since_init {s₁ : ℕ} (hs : s₁ ≤ 0) : Since G s₁ B World.init :=
  ⟨hs, fun _ ho => (not_reached_init ho).elim⟩

theorem compactInv_init : CompactInv G (World.init, Rebuilds.init) where
  complete := since_init (Nat.le_refl _)
  past cs hcs := by
    refine since_init ?_
    rcases List.suffix_cons_iff.mp hcs with rfl | hnil
    · exact Nat.le_refl _
    · rw [List.suffix_nil.mp hnil]
      exact Nat.le_refl _
  markers _ _ h := by cases h

/-- What task `t` is about to publish may take the place of what it supersedes. -/
def Plan (G : ObjectGraph) (t : ℕ) (pack : String) (supersedes : List String)
    (σ : World × Rebuilds) : Prop :=
  (∀ c ∈ supersedes, ∀ oid, G.packed c oid → G.packed pack oid) ∨
    ∃ s₁, σ.2.started t = some s₁ ∧ Since G s₁ (G.packed pack) σ.1

theorem since_current {w : World} : Since G w.head (G.Reached w.committedRefs) w :=
  ⟨Nat.le_refl _, fun _ ho => .inl ho⟩

section Server

variable {o : Op} {c : Choice} {r : o.Res} {w : World} {f : ManifestOp → Prop}

theorem upholds_of_ok {known : Option ℕ} {base : Manifest} {op : ManifestOp} {slot : Option Slot}
    (hf : ∀ pack supersedes seg, f (.compact pack supersedes seg) →
      Plan G t pack.checksum supersedes σ)
    (hop : f op) (hbase : base = σ.1.current.manifest) (hok : PutOk G t known base op slot σ) :
    Upholds G op slot σ.1 := by
  cases op with
  | push packs seg => exact hok.2
  | compact pack supersedes seg =>
    rcases hf pack supersedes seg hop with hall | ⟨s₁, hs₁, hsince⟩
    · exact .inl hall
    · refine .inr ⟨s₁, hsince, fun p hp hsup => ?_⟩
      rw [← hbase] at hp
      exact hok.2 s₁ hs₁ p hp hsup
  | _ => trivial

theorem server_step (hi : CompactInv G σ) (ho : Puts f o)
    (hf : ∀ pack supersedes seg, f (.compact pack supersedes seg) →
      Plan G t pack.checksum supersedes σ)
    (hok : CompactsOk G t (.inl o) σ) (hex : exec t o c σ.1 = some (r, w)) :
    CompactInv G (w, σ.2) ∧ ∀ s₀ B, Since G s₀ B σ.1 → Since G s₀ B w := by
  have hsame : w.commits = σ.1.commits → CompactInv G (w, σ.2) ∧
      ∀ s₀ B, Since G s₀ B σ.1 → Since G s₀ B w := by
    intro hc
    have hg : ∀ s₀ B, Since G s₀ B σ.1 → Since G s₀ B w := fun _ _ h => h.of_commits hc
    refine ⟨⟨hg _ _ hi.complete, fun cs hcs => hg _ _ (hi.past cs ?_), fun place marker hm =>
      (hi.markers place marker hm).grows hg⟩, hg⟩
    rwa [hc] at hcs
  cases exec_objects hex with
  | same hc _ _ _ _ => exact hsame hc
  | refs seq snap _ _ hσ => exact hsame (hσ ▸ rfl)
  | checkpoint seq cp _ _ hσ => exact hsame (hσ ▸ rfl)
  | commit base op slot heq hσ =>
    subst heq hσ
    have hbase : base = σ.1.current.manifest := hok.1 rfl
    have hg : ∀ s₀ B, Since G s₀ B σ.1 → Since G s₀ B (σ.1.commit t base op slot) :=
      fun _ _ h => h.commit hbase ho.1 (upholds_of_ok hf ho.2 hbase hok)
    refine ⟨⟨hg _ _ hi.complete, fun cs hcs => ?_, fun place marker hm =>
      (hi.markers place marker hm).grows hg⟩, hg⟩
    rcases List.suffix_cons_iff.mp hcs with rfl | hcs
    · exact since_current (w := σ.1.commit t base op slot)
    · exact hg _ _ (hi.past cs hcs)

end Server

end Discipline

section Specs

variable {α β : Type} {cfg : Config} {h place : ℕ} {P : World × Rebuilds → Prop}

abbrev CompactSpec (G : ObjectGraph) (t : ℕ) (p : CompactTask α) (P : World × Rebuilds → Prop)
    (Q : α → World × Rebuilds → Prop) : Prop :=
  (compactDiscipline G).Triple t p P Q

/-- Neither the other tasks nor the task's own server calls break the assertion. -/
structure Enduring (G : ObjectGraph) (t : ℕ) (P : World × Rebuilds → Prop) : Prop where
  stable : (compactDiscipline G).Stable t P
  server : ∀ σ w, (∀ s₀ B, Since G s₀ B σ.1 → Since G s₀ B w) → P σ → P (w, σ.2)

theorem enduring_true : Enduring G t fun _ => True :=
  ⟨Discipline.Stable.const, fun _ _ _ _ => trivial⟩

theorem Enduring.and {Q : World × Rebuilds → Prop} (hP : Enduring G t P) (hQ : Enduring G t Q) :
    Enduring G t fun σ => P σ ∧ Q σ :=
  ⟨hP.stable.and hQ.stable, fun σ w hg h => ⟨hP.server σ w hg h.1, hQ.server σ w hg h.2⟩⟩

theorem enduring_since : Enduring G t fun σ => Since G s₀ B σ.1 :=
  ⟨fun _ _ _ _ _ _ hg h => hg.since _ _ h, fun _ _ hg h => hg _ _ h⟩

theorem enduring_started {s₁ : ℕ} : Enduring G t fun σ => σ.2.started t = some s₁ :=
  ⟨fun _ _ _ ht _ _ hg h => (hg.started t (Ne.symm ht)).trans h, fun _ _ _ h => h⟩

theorem enduring_leased {Q : (ℕ → Option RefState) → (ℕ → Option Marker) → World → Prop}
    (hQ : ∀ scratch marker w w', (∀ s₀ B, Since G s₀ B w → Since G s₀ B w') →
      Q scratch marker w → Q scratch marker w') :
    Enduring G t fun σ => σ.2.lease = some t → Q σ.2.scratch σ.2.marker σ.1 where
  stable t' σ σ' ht _ _ hg hq hl := by
    obtain ⟨hl', hs, hm⟩ := hg.files t (Ne.symm ht) hl
    rw [hs, hm]
    exact hQ _ _ _ _ hg.since (hq hl')
  server σ w hg hq hl := hQ _ _ _ _ hg (hq hl)

theorem spec_serverPart {p : Task α} {f : ManifestOp → Prop} (hP : Enduring G t P)
    (hp : p.Puts f) (hf : ∀ σ, P σ → ∀ pack supersedes seg, f (.compact pack supersedes seg) →
      Plan G t pack.checksum supersedes σ) : CompactSpec G t (serverPart p) P fun _ => P := by
  refine Discipline.Triple.within (p := fun o => ∃ o', o = .inl o' ∧ Puts f o') hP.stable ?_
    (Prog.within_lift (Prog.Within.mono (fun o ho => ⟨o, rfl, ho⟩) hp))
  rintro _ ⟨o, rfl, ho⟩
  refine ⟨fun _ _ _ => trivial, fun σ c r σ' hi hpσ hok hex => ?_⟩
  obtain ⟨⟨r', w⟩, he, heq⟩ := Option.map_eq_some_iff.mp hex
  cases heq
  obtain ⟨hi', hg⟩ := server_step hi ho (hf σ hpσ) hok.2 he
  exact ⟨hi', ⟨hg, fun _ _ => rfl, fun _ _ hl => ⟨hl, rfl, rfl⟩⟩, hP.server σ w hg hpσ⟩

def NotCompact (op : ManifestOp) : Prop := ∀ pack supersedes seg, op ≠ .compact pack supersedes seg

theorem spec_server {p : Task α} (hP : Enduring G t P) (hp : p.Puts NotCompact) :
    CompactSpec G t (serverPart p) P fun _ => P :=
  spec_serverPart hP hp fun _ _ pack supersedes seg hn => absurd rfl (hn pack supersedes seg)

theorem puts_job (job : Job) (hj : job.compacts = false) : (job.run cfg).Puts NotCompact := by
  cases job with
  | openRepo h old => exact puts_openRepo.bind fun _ => Prog.within_pure
  | sync h => exact puts_enter puts_syncRefsPhase
  | publish h batch => exact puts_processBatch fun _ _ => nofun
  | compact h pack supersedes tier => cases hj
  | settings h toml author message => exact puts_enter (puts_publishSettings fun _ _ => nofun)
  | annotate h checksum rev bitmap graph => exact puts_enter (puts_annotatePackImpl nofun)
  | checkpoint h => exact puts_enter (puts_writeCheckpoint fun _ => nofun)

theorem spec_publishPack {pack : PackInfo} {supersedes : List String} {tier : ℕ}
    (hP : Enduring G t P) (hplan : ∀ σ, P σ → Plan G t pack.checksum supersedes σ) :
    CompactSpec G t (serverPart (publishCompact cfg h pack supersedes tier)) P fun _ => P := by
  refine spec_serverPart hP puts_publishCompact fun σ hpσ p sup seg hc => ?_
  obtain ⟨hpack, rfl⟩ := hc p sup seg rfl
  rw [hpack]
  exact hplan σ hpσ

theorem andThen_spec {ε : Type} {p : CompactTask (Except ε α)} {f : α → CompactTask (Except ε β)}
    {R : Except ε α → World × Rebuilds → Prop} {Q : Except ε β → World × Rebuilds → Prop}
    (hp : CompactSpec G t p P R) (hf : ∀ a, CompactSpec G t (f a) (R (.ok a)) Q)
    (herr : ∀ e σ, R (.error e) σ → Q (.error e) σ) :
    CompactSpec G t (CompactTask.andThen p f) P Q := by
  refine Discipline.Triple.bind hp fun r => ?_
  cases r with
  | ok a => exact hf a
  | error e => exact fun σ _ hr => herr e σ hr

theorem spec_rebuildCall {o : RebuildOp} {Q : o.Res → World × Rebuilds → Prop}
    (hQ : ∀ r, (compactDiscipline G).Stable t (Q r))
    (hstep : ∀ σ c r x, CompactInv G σ → P σ → GitOk G (.inr o) σ.2 → CompactsOk G t (.inr o) σ →
      rebuildStep t c σ.1 σ.2 o = some (r, x) →
      (∀ place marker, x.marker place = some marker → MarkerOk G marker (x.scratch place) σ.1) ∧
      CompactGuar G t σ (σ.1, x) ∧ Q r (σ.1, x)) : CompactSpec G t (rebuildCall o) P Q := by
  refine Discipline.Triple.perform hQ (fun _ _ _ => trivial) fun σ c r σ' hi hpσ hok hex => ?_
  obtain ⟨⟨r', x⟩, he, heq⟩ := Option.map_eq_some_iff.mp hex
  cases heq
  obtain ⟨hm, hg, hq⟩ := hstep σ c _ x hi hpσ hok.1 hok.2 he
  exact ⟨⟨hi.complete, hi.past, hm⟩, hg, hq⟩

theorem guar_same {σ : World × Rebuilds} : CompactGuar G t σ σ :=
  ⟨fun _ _ h => h, fun _ _ => rfl, fun _ _ hl => ⟨hl, rfl, rfl⟩⟩

theorem guar_leased {σ : World × Rebuilds} {scratch : ℕ → Option RefState}
    {marker : ℕ → Option Marker} (hl : σ.2.lease = some t) :
    CompactGuar G t σ (σ.1, { σ.2 with scratch := scratch, marker := marker }) := by
  refine ⟨fun _ _ h => h, fun _ _ => rfl, fun t' ht hl' => ?_⟩
  exact absurd (Option.some.inj (hl'.symm.trans hl)) ht

section Fold

/-- The first of the packs still to publish has what is to be superseded. -/
def FirstHas (G : ObjectGraph) (ps : List PackInfo) (supersedes : List String) : Prop :=
  supersedes = [] ∨ ∀ p, ps.head? = some p →
    ∀ c ∈ supersedes, ∀ oid, G.packed c oid → G.packed p.checksum oid

theorem FirstHas.head {p : PackInfo} {ps : List PackInfo} {supersedes : List String}
    (h : FirstHas G (p :: ps) supersedes) :
    ∀ c ∈ supersedes, ∀ oid, G.packed c oid → G.packed p.checksum oid := by
  rcases h with rfl | h
  · exact fun c hc => by cases hc
  · exact h p rfl

theorem spec_publishPacks {ps : List PackInfo} {supersedes : List String}
    (h₀ : FirstHas G ps supersedes) :
    CompactSpec G t (publishPacks cfg h ps supersedes) (fun _ => True) fun _ _ => True := by
  induction ps generalizing supersedes with
  | nil => exact fun _ _ _ => trivial
  | cons p ps ih =>
    refine Discipline.Triple.bind (spec_publishPack enduring_true fun _ _ => .inl h₀.head)
      fun _ => ih (.inl rfl)

theorem firstCovers_head {r : RepackResult} {old : String → Prop} (hcov : r.Covers G old)
    (hfirst : r.FirstCovers G old) {p : PackInfo} (hp : r.newPacks.head? = some p) :
    ∀ oid, old oid → G.packed p.checksum oid := by
  rcases hfirst with hlen | hfirst
  · intro oid ho
    obtain ⟨q, hq, hqo⟩ := hcov oid ho
    obtain ⟨ps, hps⟩ := List.head?_eq_some_iff.mp hp
    rw [hps] at hlen hq
    obtain rfl : ps = [] := by simpa using hlen
    rw [List.mem_singleton.mp hq] at hqo
    exact hqo
  · exact hfirst p hp

theorem spec_repackGeometric {result : RepackResult} :
    CompactSpec G t (rebuildCall (.repackGeometric result)) (fun _ => True) fun r _ =>
      ∀ r', r = .ok r' → ∀ p, r'.newPacks.head? = some p → ∀ oid, r'.Removes G oid →
        G.packed p.checksum oid := by
  refine spec_rebuildCall (fun _ => Discipline.Stable.const) ?_
  intro σ c r x hi _ hgit hok hex
  cases hex
  refine ⟨hi.markers, guar_same, fun r' hr p hp => ?_⟩
  unfold Choice.get at hr
  split at hr
  · cases hr
    exact firstCovers_head hgit hok hp
  · cases hr

theorem spec_foldPacks {m : Manifest} {result : RepackResult} :
    CompactSpec G t (foldPacks cfg h m result) (fun _ => True) fun _ _ => True := by
  refine Discipline.Triple.bind spec_repackGeometric fun r => ?_
  match r with
  | .error e => exact fun _ _ _ => trivial
  | .ok r =>
    refine (Discipline.Triple.fact fun hhead => spec_publishPacks ?_).pre
      fun _ _ hr => ⟨hr r rfl, trivial⟩
    refine .inr fun p hp c hc oid ho => hhead p hp oid ⟨c, ?_, ho⟩
    exact (List.mem_filter.mp hc).1

end Fold

section Lease

theorem spec_acquireLease :
    CompactSpec G t (rebuildCall .acquireLease) (fun _ => True) fun _ _ => True := by
  refine spec_rebuildCall (fun _ => Discipline.Stable.const) ?_
  intro σ c r x hi _ _ _ hex
  change (if σ.2.lease.isSome && c.ttlActive then some (false, σ.2)
    else some (true, { σ.2 with lease := some t })) = some (r, x) at hex
  split at hex
  · cases hex
    exact ⟨hi.markers, guar_same, trivial⟩
  · cases hex
    refine ⟨hi.markers, ⟨fun _ _ h => h, fun _ _ => rfl, fun t' ht hl => ?_⟩, trivial⟩
    exact absurd (Option.some.inj hl).symm ht

theorem spec_releaseLease :
    CompactSpec G t (rebuildCall .releaseLease) (fun _ => True) fun _ _ => True := by
  refine spec_rebuildCall (fun _ => Discipline.Stable.const) ?_
  intro σ c r x hi _ _ _ hex
  cases hex
  refine ⟨hi.markers, ⟨fun _ _ h => h, fun _ _ => rfl, fun t' _ hl => ⟨?_, rfl, rfl⟩⟩, trivial⟩
  change (if σ.2.lease = some t then none else σ.2.lease) = some t' at hl
  split at hl
  · cases hl
  · exact hl

end Lease

section Rebuild

variable {marker : Marker} {m : Manifest} {g : RebuildAnswers}

def Unmarked (t place : ℕ) (σ : World × Rebuilds) : Prop :=
  σ.2.lease = some t → σ.2.marker place = none

def Scratched (G : ObjectGraph) (t place s₀ : ℕ) (σ : World × Rebuilds) : Prop :=
  σ.2.lease = some t → ∃ refs, σ.2.scratch place = some refs ∧ Since G s₀ (G.Reached refs) σ.1

def Rebased (G : ObjectGraph) (marker : Marker) (σ : World × Rebuilds) : Prop :=
  ∃ b rest, marker.newPacks = b :: rest ∧ Since G marker.startedHeadSeq (G.packed b) σ.1

def Resumed (G : ObjectGraph) (t place : ℕ) (marker : Marker) (σ : World × Rebuilds) : Prop :=
  if marker.phase = .copied then Scratched G t place marker.startedHeadSeq σ
  else Rebased G marker σ

theorem enduring_unmarked : Enduring G t (Unmarked t place) :=
  enduring_leased (Q := fun _ marker _ => marker place = none) fun _ _ _ _ _ h => h

theorem enduring_scratched : Enduring G t (Scratched G t place s₀) := by
  refine enduring_leased (Q := fun scratch _ w =>
    ∃ refs, scratch place = some refs ∧ Since G s₀ (G.Reached refs) w) ?_
  rintro scratch _ w w' hg ⟨refs, hs, hsince⟩
  exact ⟨refs, hs, hg _ _ hsince⟩

theorem enduring_rebased : Enduring G t (Rebased G marker) := by
  have hgrows : ∀ w w' : World, (∀ s₀ B, Since G s₀ B w → Since G s₀ B w') → ∀ x x' : Rebuilds,
      Rebased G marker (w, x) → Rebased G marker (w', x') := by
    rintro w w' hg x x' ⟨b, rest, hb, hsince⟩
    exact ⟨b, rest, hb, hg _ _ hsince⟩
  exact ⟨fun _ σ σ' _ _ _ hg h => hgrows _ _ hg.since σ.2 σ'.2 h,
    fun σ w hg h => hgrows σ.1 w hg σ.2 σ.2 h⟩

theorem enduring_resumed : Enduring G t (Resumed G t place marker) := by
  unfold Resumed
  split
  · exact enduring_scratched
  · exact enduring_rebased

theorem Resumed.markerOk {σ : World × Rebuilds} (h : Resumed G t place marker σ)
    (hl : σ.2.lease = some t) : MarkerOk G marker (σ.2.scratch place) σ.1 where
  copied hp refs hs := by
    rw [Resumed, if_pos hp] at h
    obtain ⟨refs', hs', hsince⟩ := h hl
    rw [hs'] at hs
    cases hs
    exact hsince
  repacked hp := by
    rw [Resumed, if_neg hp] at h
    exact h

theorem spec_readMarker :
    CompactSpec G t (rebuildCall (.readMarker place)) (fun _ => True) fun r σ =>
      σ.2.lease = some t → σ.2.marker place = r := by
  refine spec_rebuildCall (fun r => ?_) ?_
  · exact (enduring_leased (Q := fun _ marker _ => marker place = r) fun _ _ _ _ _ h => h).stable
  · intro σ c r x hi _ _ _ hex
    cases hex
    exact ⟨hi.markers, guar_same, fun _ => rfl⟩

theorem spec_hasScratch :
    CompactSpec G t (rebuildCall (.hasScratch place))
      (fun σ => σ.2.lease = some t → σ.2.marker place = some marker) fun r σ =>
        r = true → Resumed G t place marker σ := by
  refine spec_rebuildCall (fun r t' σ σ' ht hi hi' hg h hr => ?_) ?_
  · exact enduring_resumed.stable t' σ σ' ht hi hi' hg (h hr)
  · intro σ c r x hi hm _ hok hex
    cases hex
    refine ⟨hi.markers, guar_same, fun hr => ?_⟩
    obtain ⟨refs, hrefs⟩ := Option.isSome_iff_exists.mp hr
    have hmarker := hi.markers place marker (hm hok)
    unfold Resumed
    split
    · rename_i hp
      exact fun _ => ⟨refs, hrefs, hmarker.copied hp refs hrefs⟩
    · rename_i hp
      exact hmarker.repacked hp

theorem markers_set (place : ℕ) (scratch : Option RefState) (found : Option Marker)
    {σ : World × Rebuilds} (hi : CompactInv G σ)
    (hnew : ∀ marker, found = some marker → MarkerOk G marker scratch σ.1) :
    ∀ place' marker, setAt σ.2.marker place found place' = some marker →
      MarkerOk G marker (setAt σ.2.scratch place scratch place') σ.1 := by
  intro place' marker hm
  unfold setAt at hm ⊢
  split at hm
  · rename_i hp
    rw [if_pos hp]
    exact hnew marker hm
  · rename_i hp
    rw [if_neg hp]
    exact hi.markers place' marker hm

theorem setAt_self {α : Type} {f : ℕ → α} {i : ℕ} : setAt f i (f i) = f := by
  funext j
  unfold setAt
  split
  · rename_i hj
    rw [hj]
  · rfl

theorem spec_removeScratch (hP : (compactDiscipline G).Stable t P)
    (hkeep : ∀ σ scratch, P σ → P (σ.1, { σ.2 with scratch := scratch })) :
    CompactSpec G t (rebuildCall (.removeScratch place)) P fun _ => P := by
  refine spec_rebuildCall (fun _ => hP) ?_
  intro σ c r x hi hp _ hok hex
  cases hex
  refine ⟨?_, guar_leased hok, hkeep σ _ hp⟩
  have h := markers_set place none (σ.2.marker place) hi
    fun marker hm => ⟨fun _ _ => nofun, (hi.markers place marker hm).repacked⟩
  rwa [setAt_self] at h

theorem spec_removeMarker :
    CompactSpec G t (rebuildCall (.removeMarker place)) (fun _ => True) fun _ =>
      Unmarked t place := by
  refine spec_rebuildCall (fun _ => enduring_unmarked.stable) ?_
  intro σ c r x hi _ _ hok hex
  cases hex
  refine ⟨?_, guar_leased hok, fun _ => ?_⟩
  · have h := markers_set place (σ.2.scratch place) none hi nofun
    rwa [setAt_self] at h
  · exact if_pos rfl

theorem spec_copyScratch :
    CompactSpec G t (rebuildCall (.copyScratch h place s₀)) (Unmarked t place) fun r σ =>
      r = .ok () → Scratched G t place s₀ σ := by
  refine spec_rebuildCall (fun r t' σ σ' ht hi hi' hg h hr => ?_) ?_
  · exact enduring_scratched.stable t' σ σ' ht hi hi' hg (h hr)
  intro σ c r x hi hu _ hok hex
  obtain ⟨hd, hhd, heq⟩ := Option.map_eq_some_iff.mp hex
  obtain ⟨cs, hcs, hle, hreach⟩ := hok.2 hd hhd
  have hnone : σ.2.marker place = none := hu hok.1
  have hset : ∀ refs place' marker, σ.2.marker place' = some marker →
      MarkerOk G marker (setAt σ.2.scratch place (some refs) place') σ.1 := by
    intro refs
    have h := markers_set place (some refs) (σ.2.marker place) hi (by
      rw [hnone]
      exact nofun)
    rwa [setAt_self] at h
  unfold Rebuilds.copyScratch at heq
  split at heq
  · cases heq
    refine ⟨hset hd.refs, guar_leased hok.1, fun _ _ => ⟨hd.refs, if_pos rfl, ?_⟩⟩
    exact (hi.past cs hcs).mono hle hreach
  · cases heq
    exact ⟨hset .empty, guar_leased hok.1, nofun⟩

theorem spec_writeMarker :
    CompactSpec G t (rebuildCall (.writeMarker place marker)) (Resumed G t place marker) fun _ =>
      Resumed G t place marker := by
  refine spec_rebuildCall (fun _ => enduring_resumed.stable) ?_
  intro σ c r x hi hres _ hok hex
  change some (σ.2.writeMarker c place marker) = some (r, x) at hex
  unfold Rebuilds.writeMarker at hex
  split at hex
  · cases hex
    refine ⟨?_, guar_leased hok, hres⟩
    have h := markers_set place (σ.2.scratch place) (some marker) hi
      fun marker' hm => Option.some.inj hm ▸ hres.markerOk hok
    rwa [setAt_self] at h
  · cases hex
    exact ⟨hi.markers, guar_same, hres⟩

theorem spec_repackFull (s₀ : ℕ) (g : RebuildAnswers) {result : RepackResult} :
    CompactSpec G t (rebuildCall (.repackFull place result)) (Scratched G t place s₀) fun r σ =>
      ∀ r', r = .ok r' → ∀ b rest, g.newPacks r' = b :: rest → Since G s₀ (G.packed b) σ.1 := by
  refine spec_rebuildCall (fun r t' σ σ' ht hi hi' hg h r' hr b rest hb => ?_) ?_
  · exact hg.since _ _ (h r' hr b rest hb)
  intro σ c r x hi hsc hgit hok hex
  cases hex
  refine ⟨hi.markers, guar_same, fun r' hr b rest hb => ?_⟩
  obtain ⟨refs, hrefs, hsince⟩ := hsc hok.1
  obtain rfl : result = r' := by
    unfold Choice.get at hr
    split at hr
    · exact Except.ok.inj hr
    · cases hr
  refine hsince.mono (Nat.le_refl _) fun oid ho => ?_
  have hreach : σ.2.ScratchReaches G place oid := ⟨refs, hrefs, ho⟩
  unfold RebuildAnswers.newPacks at hb
  split at hb
  · rename_i hnil
    obtain ⟨p, hp, -⟩ := hgit oid hreach
    rw [List.isEmpty_iff.mp hnil] at hp
    cases hp
  · obtain ⟨p, ps, hps, rfl, -⟩ := List.map_eq_cons_iff.mp hb
    exact firstCovers_head hgit hok.2 (by rw [hps]; rfl) oid hreach

theorem spec_supersedeUpTo (s₀ : ℕ) (hP : Enduring G t P)
    (hkeep : ∀ σ started, P σ → P (σ.1, { σ.2 with started := started })) :
    CompactSpec G t (rebuildCall (.supersedeUpTo s₀)) P fun _ σ =>
      P σ ∧ σ.2.started t = some s₀ := by
  refine spec_rebuildCall (fun _ => hP.stable.and enduring_started.stable) ?_
  intro σ c r x hi hp _ _ hex
  cases hex
  refine ⟨hi.markers, ⟨fun _ _ h => h, fun t' ht => ?_, fun _ _ hl => ⟨hl, rfl, rfl⟩⟩,
    hkeep σ _ hp, ?_⟩
  · exact if_neg ht
  · exact if_pos rfl

theorem spec_startScratch :
    CompactSpec G t (startScratch h place m) (Unmarked t place) fun r σ =>
      ∀ marker, r = .ok marker → Resumed G t place marker σ := by
  refine andThen_spec (spec_server enduring_unmarked (puts_quiet rfl)) (fun _ => ?_)
    fun _ _ _ => nofun
  refine andThen_spec spec_copyScratch (fun _ => ?_) fun _ _ _ => nofun
  refine andThen_spec (spec_writeMarker.pre fun σ _ hs => ?_) (fun _ => ?_) fun _ _ _ => nofun
  · rw [Resumed, if_pos rfl]
    exact hs rfl
  · intro σ _ hres marker hr
    cases hr
    exact hres

theorem spec_resumeOrStart :
    CompactSpec G t (resumeOrStart h place m) (fun _ => True) fun r σ =>
      ∀ marker, r = .ok marker → Resumed G t place marker σ := by
  refine Discipline.Triple.bind spec_readMarker fun found => ?_
  match found with
  | some marker =>
    refine Discipline.Triple.bind spec_hasScratch fun present => ?_
    split
    · rename_i hres
      intro σ _ h marker' hr
      cases hr
      exact h hres.2
    · refine Discipline.Triple.bind ((spec_removeScratch Discipline.Stable.const
        fun _ _ h => h).pre fun _ _ _ => trivial) fun _ => ?_
      exact Discipline.Triple.bind spec_removeMarker fun _ => spec_startScratch
  | none =>
    refine Discipline.Triple.bind (spec_removeScratch enduring_unmarked.stable
      fun _ _ h => h) fun _ => spec_startScratch

theorem spec_repackPhase :
    CompactSpec G t (repackPhase place g marker) (Resumed G t place marker) fun r σ =>
      ∀ marker', r = .ok marker' → marker'.phase ≠ .copied ∧ Rebased G marker' σ := by
  unfold repackPhase
  split
  · rename_i hrank
    have hp : marker.phase = .copied := by
      cases hm : marker.phase <;> simp [hm, Phase.rank] at hrank ⊢
    refine andThen_spec ((spec_repackFull marker.startedHeadSeq g).pre
      fun σ _ hres => ?_) (fun r => ?_) fun _ _ _ => nofun
    · rwa [Resumed, if_pos hp] at hres
    split
    · exact fun _ _ _ => nofun
    · rename_i hne
      obtain ⟨b, rest, hb⟩ := List.exists_cons_of_ne_nil (mt List.isEmpty_iff.mpr hne)
      refine andThen_spec (spec_writeMarker.pre fun σ _ hs => ?_) (fun _ => ?_) fun _ _ _ => nofun
      · rw [Resumed, if_neg nofun]
        exact ⟨b, rest, hb, hs r rfl b rest hb⟩
      · intro σ _ hres marker' hr
        cases hr
        rw [Resumed, if_neg nofun] at hres
        exact ⟨nofun, hres⟩
  · rename_i hrank
    intro σ _ hres marker' hr
    cases hr
    have hp : marker.phase ≠ .copied := by
      intro hp
      rw [hp] at hrank
      exact hrank (by decide)
    rw [Resumed, if_neg hp] at hres
    exact ⟨hp, hres⟩

theorem spec_extraPhase {phase : Phase} {history : Option String} (hphase : phase ≠ .copied) :
    CompactSpec G t (extraPhase place phase history marker) (Rebased G marker) fun r σ =>
      ∀ marker', r = .ok marker' → Rebased G marker' σ := by
  unfold extraPhase
  split
  · refine andThen_spec (spec_writeMarker.pre fun σ _ hs => ?_) (fun _ => ?_) fun _ _ _ => nofun
    · rw [Resumed, if_neg hphase]
      exact hs
    · intro σ _ hres marker' hr
      cases hr
      rw [Resumed, if_neg hphase] at hres
      exact hres
  · intro σ _ hs marker' hr
    cases hr
    exact hs

theorem spec_publishRest {checksums : List String} :
    CompactSpec G t (publishBases cfg h g m checksums []) (fun _ => True) fun _ _ => True := by
  induction checksums with
  | nil => exact fun _ _ _ => trivial
  | cons c rest ih =>
    unfold publishBases
    split
    · exact fun _ _ _ => trivial
    · split
      · exact ih
      · exact andThen_spec (spec_publishPack enduring_true fun _ _ => .inl nofun) (fun _ => ih)
          fun _ _ _ => trivial

theorem spec_publishBases {b : String} {rest supersedes : List String} :
    CompactSpec G t (publishBases cfg h g m (b :: rest) supersedes)
      (fun σ => Since G s₀ (G.packed b) σ.1 ∧ σ.2.started t = some s₀) fun _ _ => True := by
  unfold publishBases
  split
  · exact fun _ _ _ => trivial
  · rename_i info hinfo
    have hb : info.checksum = b := by simpa using List.find?_some hinfo
    split
    · rename_i hskip
      rw [List.isEmpty_iff.mp hskip.2]
      exact spec_publishRest.pre fun _ _ _ => trivial
    · refine andThen_spec (R := fun _ _ => True) (Discipline.Triple.post
        (spec_publishPack (enduring_since.and enduring_started) fun σ hσ => ?_)
        fun _ _ _ _ => trivial) (fun _ => spec_publishRest) fun _ _ _ => trivial
      exact .inr ⟨s₀, hσ.2, hb ▸ hσ.1⟩

theorem spec_installAndPublish :
    CompactSpec G t (installAndPublish cfg h place g marker) (Rebased G marker)
      fun _ _ => True := by
  refine andThen_spec (spec_server enduring_rebased (puts_quiet rfl)) (fun _ => ?_)
    fun _ _ _ => trivial
  refine Discipline.Triple.bind (spec_server enduring_rebased (puts_quiet rfl)) fun m' => ?_
  refine Discipline.Triple.bind (spec_supersedeUpTo marker.startedHeadSeq enduring_rebased
    fun _ _ h => h) fun _ => ?_
  refine andThen_spec (R := fun _ _ => True) ?_ (fun _ => ?_) fun _ _ _ => trivial
  · refine (Discipline.Triple.given (P := fun b σ => ∃ rest, marker.newPacks = b :: rest ∧
      Since G marker.startedHeadSeq (G.packed b) σ.1 ∧
        σ.2.started t = some marker.startedHeadSeq) fun b => ?_).pre ?_
    · refine Discipline.Triple.given fun rest => Discipline.Triple.fact fun hb => ?_
      rw [Marker.toInstall, hb, List.cons_append]
      exact spec_publishBases
    · rintro σ _ ⟨⟨b, rest, hb, hsince⟩, hstarted⟩
      exact ⟨b, rest, hb, hsince, hstarted⟩
  · refine Discipline.Triple.bind (spec_removeScratch Discipline.Stable.const fun _ _ h => h)
      fun _ => ?_
    exact Discipline.Triple.bind spec_removeMarker fun _ _ _ _ => trivial

theorem spec_rebuildBase :
    CompactSpec G t (rebuildBase cfg h place g) (fun _ => True) fun _ _ => True := by
  refine Discipline.Triple.bind (spec_server enduring_true (puts_quiet rfl)) fun m => ?_
  refine andThen_spec spec_resumeOrStart (fun marker => ?_) fun _ _ _ => trivial
  refine andThen_spec (spec_repackPhase.pre fun _ _ hr => hr marker rfl) (fun marker => ?_)
    fun _ _ _ => trivial
  refine andThen_spec ((spec_extraPhase (by decide)).pre fun _ _ hr => (hr marker rfl).2)
    (fun marker => ?_) fun _ _ _ => trivial
  refine andThen_spec ((spec_extraPhase (by decide)).pre fun _ _ hr => hr marker rfl)
    (fun marker => ?_) fun _ _ _ => trivial
  exact spec_installAndPublish.pre fun _ _ hr => hr marker rfl

end Rebuild

theorem spec_compactRepo {req : CompactRequest} :
    CompactSpec G t (compactRepo cfg h req) (fun _ => True) fun _ _ => True := by
  refine Discipline.Triple.bind (spec_server enduring_true (puts_quiet rfl)) fun _ => ?_
  refine Discipline.Triple.bind (spec_server enduring_true puts_syncServe) fun synced => ?_
  match synced with
  | .error e => exact fun _ _ _ => trivial
  | .ok () =>
    refine Discipline.Triple.bind (spec_server enduring_true (puts_quiet rfl)) fun m => ?_
    refine Discipline.Triple.bind spec_acquireLease fun leased => ?_
    match leased with
    | false => exact fun _ _ _ => trivial
    | true =>
      match req with
      | .fold result => exact Discipline.Triple.bind spec_foldPacks fun _ => spec_releaseLease
      | .rebuildBase place g =>
        exact Discipline.Triple.bind spec_rebuildBase fun _ => spec_releaseLease

theorem spec_compactJob (job : CompactJob) :
    CompactSpec G t (job.run cfg) (fun _ => True) fun _ _ => True := by
  cases job with
  | server job hj => exact spec_server enduring_true (puts_job job hj)
  | compactRepo h req => exact spec_compactRepo

end Specs

end Walgit
