import Walgit.ImportInv

/-!
# What an import keeps

From its first put to its CAS an import is one of the `writers` at its seq.
As long as its base is the manifest, what it has put there is its own: no server
puts at a seq above every head, and no other import where one is still running.
-/

namespace Walgit

open Interleaving

variable {t : ℕ} {σ σ' : World × Imports}

section Calls

variable {c : Choice} {base : Option ℕ} {seq : ℕ} {snap : RefState}

structure CalmStep (σ σ' : World × Imports) : Prop extends Grown σ σ' where
  refs : ∀ seq, RefsKept σ σ' seq
  writers : ∀ w ∈ σ.2.writers, w ∈ σ'.2.writers

def Endures (t : ℕ) (P : World × Imports → Prop) : Prop :=
  ∀ t' σ σ', (t' ≠ t ∧ ImportGuar t' σ σ') ∨ CalmStep σ σ' → P σ → P σ'

theorem Endures.stable {P : World × Imports → Prop} (h : Endures t P) :
    importDiscipline.Stable t P :=
  fun t' σ σ' ht _ _ hg => h t' σ σ' (.inl ⟨ht, hg⟩)

theorem Endures.and {P Q : World × Imports → Prop} (hP : Endures t P) (hQ : Endures t Q) :
    Endures t fun σ => P σ ∧ Q σ :=
  fun t' σ σ' hg h => ⟨hP t' σ σ' hg h.1, hQ t' σ σ' hg h.2⟩

theorem Endures.const {p : Prop} : Endures t fun _ => p := fun _ _ _ _ h => h

theorem endures_based : Endures t fun σ => BasedOn base seq σ.1 := by
  rintro t' σ σ' (⟨-, hg⟩ | hg) h
  · exact h.grows hg.commits hg.next
  · exact h.grows hg.commits hg.next

/-- As long as its base is the manifest, what the import has put at its seq is its own. -/
def Wrote (ours : World × Imports → Prop) (t : ℕ) (base : Option ℕ) (seq : ℕ)
    (σ : World × Imports) : Prop :=
  BasedOn base seq σ.1 ∧ (t ∈ σ.2.dead ∨ ((t, seq) ∈ σ.2.writers ∧ (Still base σ.1 → ours σ)))

theorem Wrote.other {ours : World × Imports → Prop} {t' : ℕ} (hg : ImportGuar t' σ σ')
    (ht : t' ≠ t) (hours : ours σ → ours σ' ∨ WasHead σ.1 seq ∨ Alone t' σ.2 seq)
    (h : Wrote ours t base seq σ) : Wrote ours t base seq σ' := by
  obtain ⟨hb, hd | ⟨hw, ho⟩⟩ := h
  · exact ⟨hb.grows hg.commits hg.next, .inl (hg.dead t hd)⟩
  · refine ⟨hb.grows hg.commits hg.next, ?_⟩
    rcases hg.writers _ hw (Ne.symm ht) with hw' | hd
    · refine .inr ⟨hw', fun hs => ?_⟩
      have hstill := hg.commits.still hb.old hs
      rcases hours (ho hstill) with h | ⟨a, ha, he⟩ | ha
      · exact h
      · exact absurd he (hb.below hstill a ha).ne
      · exact absurd (ha _ hw rfl).symm ht
    · exact .inl hd

theorem Wrote.calm {ours : World × Imports → Prop} (hg : Grown σ σ')
    (hwr : ∀ w ∈ σ.2.writers, w ∈ σ'.2.writers) (hours : ours σ → ours σ')
    (h : Wrote ours t base seq σ) : Wrote ours t base seq σ' := by
  obtain ⟨hb, hd | ⟨hw, ho⟩⟩ := h
  · exact ⟨hb.grows hg.commits hg.next, .inl (hg.dead t hd)⟩
  · exact ⟨hb.grows hg.commits hg.next, .inr ⟨hwr _ hw,
      fun hs => hours (ho (hg.commits.still hb.old hs))⟩⟩

def WroteRefs (t : ℕ) (base : Option ℕ) (seq : ℕ) (snap : RefState) : World × Imports → Prop :=
  Wrote (fun σ => σ.1.cpRefs seq = some snap ∧ σ.2.refsBy seq = some (.importer t)) t base seq

def WroteCp (t : ℕ) (base : Option ℕ) (seq : ℕ) : World × Imports → Prop :=
  Wrote (fun σ => σ.2.cpBy seq = some (.importer t)) t base seq

theorem endures_wroteRefs : Endures t (WroteRefs t base seq snap) := by
  rintro t' σ σ' (⟨ht, hg⟩ | hg) h
  · refine Wrote.other hg ht (fun ho => ?_) h
    rcases hg.refs seq with hk | ⟨-, hw⟩ | ha
    · exact .inl ⟨hk.1.trans ho.1, hk.2.trans ho.2⟩
    · exact .inr (.inl hw)
    · exact .inr (.inr ha)
  · have hk := hg.refs seq
    exact Wrote.calm hg.toGrown hg.writers (fun ho => ⟨hk.1.trans ho.1, hk.2.trans ho.2⟩) h

theorem stable_wroteCp : importDiscipline.Stable t (WroteCp t base seq) := by
  intro t' σ σ' ht _ _ hg h
  refine Wrote.other hg ht (fun ho => ?_) h
  rcases hg.checkpoint seq with hk | ⟨-, hw⟩ | ha
  · exact .inl (hk.trans ho)
  · exact .inr (.inl hw)
  · exact .inr (.inr ha)

theorem importExec_import {o : ImportOp} {r : o.Res}
    (hex : importExec t (.inr o) c σ = some (r, σ')) :
    t ∉ σ.2.dead ∧ importStep t c σ.1 σ.2 o = some (r, σ') := by
  unfold importExec at hex
  split at hex
  · cases hex
  · exact ⟨by assumption, hex⟩

def ImportOp.calm : ImportOp → Bool
  | .uploadFile .. | .sourceWork | .getManifest | .hasHistory | .readMarker _ => true
  | .rereadMarker .. | .writeMarker .. | .removeMarker _ | .headFile _ | .putFile .. => true
  | _ => false

def MarkerNeeds (o : ImportOp) (σ : World × Imports) : Prop :=
  match o with
  | .writeMarker _ m => BasedOn m.baseManifestVersion m.seq σ.1
  | _ => True

structure SameRecords (x x' : Imports) : Prop where
  refsBy : x'.refsBy = x.refsBy
  cpBy : x'.cpBy = x.cpBy
  landed : x'.landed = x.landed
  writers : x'.writers = x.writers
  dead : x'.dead = x.dead

theorem SameRecords.refl {x : Imports} : SameRecords x x := ⟨rfl, rfl, rfl, rfl, rfl⟩

theorem put₂_eq {r : Except WalError Unit} {w : World × Imports} {x : Imports} {v : World}
    (h : c.put₂ v x w = (r, σ')) : (c.outcome = .err ∧ σ' = (v, x) ∧ r ≠ .ok ()) ∨
      (c.outcome ≠ .err ∧ σ' = w) := by
  unfold Choice.put₂ at h
  split at h
  · rename_i ho
    exact .inr ⟨by simp [ho], (congrArg Prod.snd h).symm⟩
  · rename_i ho
    cases h
    exact .inl ⟨ho, rfl, nofun⟩
  · rename_i ho
    exact .inr ⟨by simp [ho], (congrArg Prod.snd h).symm⟩

theorem calm_records {o : ImportOp} {r : o.Res} (ho : o.calm = true)
    (hex : importStep t c σ.1 σ.2 o = some (r, σ')) :
    σ'.1 = σ.1 ∧ SameRecords σ.2 σ'.2 ∧ ∀ source m, σ'.2.markers source = some m →
      σ.2.markers source = some m ∨ o = .writeMarker source m := by
  have hid : σ' = σ → σ'.1 = σ.1 ∧ SameRecords σ.2 σ'.2 ∧ ∀ source m,
      σ'.2.markers source = some m → σ.2.markers source = some m ∨ o = .writeMarker source m := by
    rintro rfl
    exact ⟨rfl, .refl, fun _ _ h => .inl h⟩
  cases o with
  | writeMarker source m =>
    rcases put₂_eq (Option.some.inj hex) with ⟨-, rfl, -⟩ | ⟨-, rfl⟩
    · exact hid rfl
    · refine ⟨rfl, ⟨rfl, rfl, rfl, rfl, rfl⟩, fun source' m' h => ?_⟩
      change (if source' = source then some m else σ.2.markers source') = some m' at h
      split at h
      · rename_i he
        cases h
        exact .inr (he ▸ rfl)
      · exact .inl h
  | removeMarker source =>
    cases hex
    refine ⟨rfl, ⟨rfl, rfl, rfl, rfl, rfl⟩, fun source' m' h => ?_⟩
    change (if source' = source then none else σ.2.markers source') = some m' at h
    split at h
    · cases h
    · exact .inl h
  | putFile key bytes =>
    rcases put₂_eq (Option.some.inj hex) with ⟨-, rfl, -⟩ | ⟨-, rfl⟩
    · exact hid rfl
    · exact ⟨rfl, ⟨rfl, rfl, rfl, rfl, rfl⟩, fun _ _ h => .inl h⟩
  | uploadFile key bytes =>
    cases hex
    refine ⟨rfl, ?_, fun source' m' h => .inl ?_⟩
    · dsimp only
      split
      · exact ⟨rfl, rfl, rfl, rfl, rfl⟩
      · exact .refl
    · dsimp only at h
      split at h <;> exact h
  | sourceWork | getManifest | hasHistory | readMarker | rereadMarker | headFile =>
    cases hex
    exact hid rfl
  | _ => cases ho

theorem calmStep {o : ImportOp} {r : o.Res} (ho : o.calm = true) (hi : ImportInv σ)
    (hn : MarkerNeeds o σ) (hex : importExec t (.inr o) c σ = some (r, σ')) :
    ImportInv σ' ∧ ImportGuar t σ σ' ∧ CalmStep σ σ' := by
  obtain ⟨-, hex⟩ := importExec_import hex
  obtain ⟨w, x⟩ := σ'
  obtain ⟨rfl, hx, hm⟩ := calm_records ho hex
  have hgrown : Grown σ (σ.1, x) := .same rfl (Nat.le_refl _) ⟨hx.dead, hx.landed⟩
  have hrefs : ∀ seq, RefsKept σ (σ.1, x) seq := fun seq => ⟨rfl, congrFun hx.refsBy seq⟩
  have hwr : ∀ v ∈ σ.2.writers, v ∈ x.writers := fun v hv => hx.writers ▸ hv
  refine ⟨hi.same rfl (Nat.le_refl _) rfl hi.held ⟨hx.refsBy, hx.cpBy, hx.landed⟩
    fun source m h => ?_, ⟨hgrown, fun seq => .inl (hrefs seq),
      fun seq => .inl (congrFun hx.cpBy seq), fun v hv _ => .inl (hwr v hv)⟩,
    ⟨hgrown, hrefs, hwr⟩⟩
  refine (hm source m h).imp_right fun he => ?_
  subst he
  exact hn

theorem spec_calm {o : ImportOp} {P : World × Imports → Prop} {Q : o.Res → World × Imports → Prop}
    (ho : o.calm = true) (hP : Endures t P) (hn : ∀ σ, P σ → MarkerNeeds o σ)
    (hQ : ∀ r, Endures t (Q r))
    (h : ∀ σ c r σ', ImportInv σ → P σ → ImportsOk t (.inr o) c σ →
      importStep t c σ.1 σ.2 o = some (r, σ') → Q r σ) :
    importDiscipline.Triple t (importCall o) P fun r σ => P σ ∧ Q r σ := by
  refine Discipline.Triple.perform (D := importDiscipline) (fun r => (hP.and (hQ r)).stable)
    (fun _ _ _ => trivial) fun σ c r σ' hi hp hok hex => ?_
  obtain ⟨hi', hg, hcalm⟩ := calmStep ho hi (hn σ hp) hex
  refine ⟨hi', hg, hP t σ σ' (.inr hcalm) hp, hQ r t σ σ' (.inr hcalm) ?_⟩
  exact h σ c r σ' hi hp hok (importExec_import hex).2

theorem spec_skip {o : ImportOp} {P : World × Imports → Prop} (ho : o.calm = true)
    (hP : Endures t P) (hn : ∀ σ, P σ → MarkerNeeds o σ) :
    importDiscipline.Triple t (importCall o) P fun _ => P :=
  (spec_calm (Q := fun _ _ => True) ho hP hn (fun _ => .const) fun _ _ _ _ _ _ _ _ => trivial).post
    fun _ _ _ hx => hx.1

theorem spec_andThen {ε α β : Type} {p : ImportTask (Except ε α)}
    {f : α → ImportTask (Except ε β)} {P : World × Imports → Prop}
    {Q : Except ε α → World × Imports → Prop} {Q' : Except ε β → World × Imports → Prop}
    (hp : importDiscipline.Triple t p P Q) (herr : ∀ e σ, Q (.error e) σ → Q' (.error e) σ)
    (hf : ∀ a, importDiscipline.Triple t (f a) (Q (.ok a)) Q') :
    importDiscipline.Triple t (ImportTask.andThen p f) P Q' := by
  refine hp.bind fun r => ?_
  cases r with
  | ok a => exact hf a
  | error e => exact Discipline.Triple.ret fun σ _ hq => herr e σ hq

end Calls

section Program

variable {opts : DirectOptions} {base : Option (Manifest × ℕ)} {seq : ℕ} {m : ImportMarker}
  {F : World × Imports → Prop}

/-- The import is at a marker of its base and its seq. -/
def MarkerAt (base : Option ℕ) (seq : ℕ) (m : ImportMarker) (σ : World × Imports) : Prop :=
  (m.baseManifestVersion = base ∧ m.seq = seq) ∧ BasedOn base seq σ.1

theorem endures_markerAt {base : Option ℕ} : Endures t (MarkerAt base seq m) :=
  Endures.and .const endures_based

theorem MarkerAt.needs {base : Option ℕ} {source : ℕ} (h : MarkerAt base seq m σ) :
    MarkerNeeds (.writeMarker source m) σ := by
  obtain ⟨⟨rfl, rfl⟩, hb⟩ := h
  exact hb

def Reached (base : Option ℕ) (seq : ℕ) (F : World × Imports → Prop)
    (r : Except WalError ImportMarker) (σ : World × Imports) : Prop :=
  ∀ m, r = .ok m → MarkerAt base seq m σ ∧ F σ

theorem reached_ok {base : Option ℕ} (h : MarkerAt base seq m σ ∧ F σ) :
    Reached base seq F (.ok m) σ := by
  intro m' hm
  cases hm
  exact h

theorem spec_sourceWork {P : World × Imports → Prop} (hP : Endures t P) :
    importDiscipline.Triple t (importCall .sourceWork) P fun _ => P :=
  spec_skip rfl hP fun _ _ => trivial

theorem spec_importPhase {base : Option ℕ} {phase : ImportPhase}
    {work : ImportTask (Except WalError Unit)} (hF : Endures t F)
    (hwork : ∀ {P : World × Imports → Prop}, Endures t P →
      importDiscipline.Triple t work P fun _ => P) :
    importDiscipline.Triple t (importPhase opts phase work m)
      (fun σ => MarkerAt base seq m σ ∧ F σ) (Reached base seq F) := by
  have hE : Endures t fun σ => MarkerAt base seq m σ ∧ F σ := endures_markerAt.and hF
  unfold importPhase
  split
  · refine spec_andThen (hwork hE) (fun _ _ _ => nofun) fun _ => ?_
    refine spec_andThen (spec_skip rfl hE fun σ hx => ?_) (fun _ _ _ => nofun) fun _ => ?_
    · exact MarkerAt.needs (m := { m with phase := phase }) hx.1
    · exact Discipline.Triple.ret fun σ _ hx => reached_ok hx
  · exact Discipline.Triple.ret fun σ _ hx => reached_ok hx

theorem spec_presentFiles {uploaded : List FileKey} {files : List (FileKey × Bytes)}
    {P : World × Imports → Prop} (hP : Endures t P) :
    importDiscipline.Triple t (presentFiles uploaded files) P fun _ => P := by
  induction files with
  | nil => exact Discipline.Triple.ret fun _ _ hx => hx
  | cons f files ih =>
    unfold presentFiles
    split
    · exact ih
    · refine spec_andThen (spec_skip rfl hP fun _ _ => trivial) (fun _ _ hx => hx) fun size => ?_
      exact spec_andThen ih (fun _ _ hx => hx) fun present =>
        Discipline.Triple.ret fun _ _ hx => hx

theorem spec_uploadFiles {base : Option ℕ} {present : List FileKey}
    {files : List (FileKey × Bytes)} (hF : Endures t F) :
    importDiscipline.Triple t (uploadFiles opts present files m)
      (fun σ => MarkerAt base seq m σ ∧ F σ) (Reached base seq F) := by
  induction files generalizing m with
  | nil => exact Discipline.Triple.ret fun σ _ hx => reached_ok hx
  | cons f files ih =>
    have hE : Endures t fun σ => MarkerAt base seq m σ ∧ F σ := endures_markerAt.and hF
    unfold uploadFiles
    split
    · refine ih.pre fun σ _ hx => ?_
      split
      · exact hx
      · exact hx
    · refine spec_andThen (spec_skip rfl hE fun _ _ => trivial) (fun _ _ _ => nofun) fun _ => ?_
      refine spec_andThen (spec_skip rfl hE fun σ hx => ?_) (fun _ _ _ => nofun) fun _ => ?_
      · exact MarkerAt.needs (m := { m with uploaded := m.uploaded ++ [f.1] }) hx.1
      · exact ih.pre fun σ _ hx => hx

theorem spec_uploadLocalPacks {base : Option ℕ} {packs : List LocalPack} (hF : Endures t F) :
    importDiscipline.Triple t (uploadLocalPacks opts packs m)
      (fun σ => MarkerAt base seq m σ ∧ F σ) (Reached base seq F) := by
  induction packs generalizing m with
  | nil => exact Discipline.Triple.ret fun σ _ hx => reached_ok hx
  | cons p packs ih =>
    refine spec_andThen (spec_presentFiles (endures_markerAt.and hF)) (fun _ _ _ => nofun)
      fun present => ?_
    exact spec_andThen (spec_uploadFiles hF) (fun _ _ _ => nofun) fun m' =>
      ih.pre fun σ _ hx => hx m' rfl

section Puts

variable {c : Choice} {snap : RefState} {cp : Checkpoint}

theorem alone_of_ok {o : ImportOp} (hok : ImportsOk t (.inr o) c σ)
    (ho : o.checkpointSeq = some seq) (hc : c.outcome ≠ .err) :
    Alone t σ.2 seq ∧ ¬ σ.1.NamesCheckpoint seq := by
  refine ⟨fun w hw he => ?_, fun hn => hok .named ⟨o, seq, rfl, ho, hc, hn⟩⟩
  by_contra hne
  exact hok .contested ⟨o, seq, rfl, ho, hc, w, hw, he, hne⟩

theorem ImportGuar.refl : ImportGuar t σ σ where
  commits := .inl rfl
  next := Nat.le_refl _
  dead _ h := h
  landed _ h := h
  refs _ := .inl ⟨rfl, rfl⟩
  checkpoint _ := .inl rfl
  writers _ h _ := .inl h

theorem spec_putRefs {base : Option ℕ} :
    importDiscipline.Triple t (importCall (.putRefs seq snap))
      (fun σ => MarkerAt base seq m σ)
      fun r σ => r = .ok () → MarkerAt base seq m σ ∧ WroteRefs t base seq snap σ := by
  refine Discipline.Triple.perform (D := importDiscipline) (fun r => ?_) (fun _ _ _ => trivial)
    fun σ c r σ' hi hp hok hex => ?_
  · intro t' σ σ' ht _ _ hg h hr
    exact (endures_markerAt.and endures_wroteRefs) t' σ σ' (.inl ⟨ht, hg⟩) (h hr)
  · obtain ⟨-, hex⟩ := importExec_import hex
    rcases put₂_eq (Option.some.inj hex) with ⟨-, rfl, hr⟩ | ⟨hc, rfl⟩
    · exact ⟨hi, .refl, fun h => absurd h hr⟩
    · obtain ⟨halone, hnamed⟩ : Alone t σ.2 seq ∧ ¬ σ.1.NamesCheckpoint seq :=
        alone_of_ok hok rfl hc
      have hfree : ∀ l ∈ σ.2.landed, l.seq ≠ seq := fun l hl he =>
        hnamed (he ▸ (hi.landed l hl).named)
      refine ⟨hi.putRefs hfree fun h => absurd h hnamed, ⟨⟨.inl rfl, Nat.le_refl _, fun _ h => h,
        fun _ h => h⟩, fun q => ?_, fun _ => .inl rfl, fun w hw _ =>
          .inl (List.mem_cons_of_mem _ hw)⟩, fun _ => ?_⟩
      · by_cases hq : q = seq
        · exact .inr (.inr (hq ▸ halone))
        · exact .inl ⟨if_neg hq, if_neg hq⟩
      · have hb : BasedOn base seq (σ.1.setCpRefs seq snap) := hp.2.grows (.inl rfl) (Nat.le_refl _)
        exact ⟨⟨hp.1, hb⟩, hb, .inr ⟨List.mem_cons_self, fun _ => ⟨if_pos rfl, if_pos rfl⟩⟩⟩

theorem spec_importPutCheckpoint {base : Option ℕ} :
    importDiscipline.Triple t (importCall (.putCheckpoint seq cp))
      (fun σ => MarkerAt base seq m σ ∧ WroteRefs t base seq snap σ)
      fun r σ => r = .ok () → WroteRefs t base seq snap σ ∧ WroteCp t base seq σ := by
  refine Discipline.Triple.perform (D := importDiscipline) (fun r => ?_) (fun _ _ _ => trivial)
    fun σ c r σ' hi hp hok hex => ?_
  · intro t' σ σ' ht hi hi' hg h hr
    exact ⟨endures_wroteRefs t' σ σ' (.inl ⟨ht, hg⟩) (h hr).1,
      stable_wroteCp t' σ σ' ht hi hi' hg (h hr).2⟩
  · obtain ⟨-, hex⟩ := importExec_import hex
    rcases put₂_eq (Option.some.inj hex) with ⟨-, rfl, hr⟩ | ⟨hc, rfl⟩
    · exact ⟨hi, .refl, fun h => absurd h hr⟩
    · obtain ⟨halone, hnamed⟩ : Alone t σ.2 seq ∧ ¬ σ.1.NamesCheckpoint seq :=
        alone_of_ok hok rfl hc
      have hgrown : Grown σ (σ.1.setCp seq cp, σ.2.noteCheckpoint t seq (.importer t)) :=
        ⟨.inl rfl, Nat.le_refl _, fun _ h => h, fun _ h => h⟩
      have hwr : ∀ w ∈ σ.2.writers, w ∈ (σ.2.noteCheckpoint t seq (.importer t)).writers :=
        fun w hw => List.mem_cons_of_mem _ hw
      refine ⟨hi.putCheckpoint fun h => absurd h hnamed, ⟨hgrown, fun q => .inl ⟨rfl, rfl⟩,
        fun q => ?_, fun w hw _ => .inl (hwr w hw)⟩, fun _ => ⟨?_,
          hp.1.2.grows (.inl rfl) (Nat.le_refl _), .inr ⟨List.mem_cons_self, fun _ => if_pos rfl⟩⟩⟩
      · by_cases hq : q = seq
        · exact .inr (.inr (hq ▸ halone))
        · exact .inl (if_neg hq)
      · exact endures_wroteRefs t _ _ (.inr ⟨hgrown, fun q => ⟨rfl, rfl⟩, hwr⟩) hp.2

theorem spec_casImport :
    importDiscipline.Triple t
      (importCall (.putManifest base (importManifest opts base seq) opts.snap))
      (fun σ => WroteRefs t (base.map Prod.snd) seq opts.snap σ ∧
        WroteCp t (base.map Prod.snd) seq σ) fun _ _ => True := by
  refine Discipline.Triple.perform (D := importDiscipline) (fun r => .const)
    (fun _ _ _ => trivial) fun σ c r σ' hi hp hok hex => ?_
  obtain ⟨ht, hex⟩ := importExec_import hex
  have hres : casImport t c σ.1 σ.2 base (importManifest opts base seq) opts.snap = (r, σ') :=
    Option.some.inj hex
  unfold casImport at hres
  split at hres
  · cases hres
    exact ⟨hi, .refl, trivial⟩
  · split at hres
    · rename_i hstill
      obtain rfl := congrArg Prod.snd hres
      obtain ⟨⟨hbased, hrefs⟩, -, hcp⟩ := hp
      have hours := (hrefs.resolve_left ht).2 hstill
      have hcpours := (hcp.resolve_left ht).2 hstill
      refine ⟨?_, ⟨⟨.inr ⟨_, rfl, Nat.le_refl _⟩, Nat.le_succ _, fun _ h => h,
        fun l hl => List.mem_cons_of_mem _ hl⟩, fun q => .inl ⟨rfl, rfl⟩, fun _ => .inl rfl,
          fun w hw _ => .inl hw⟩, trivial⟩
      have hnew : ∀ w, w = some (Writer.importer t) →
          Unharmed { σ.2 with landed := ⟨t, seq, opts.snap⟩ :: σ.2.landed } seq w := by
        rintro w rfl t' ht'
        cases ht'
        exact ⟨_, List.mem_cons_self, rfl, rfl⟩
      refine hi.commit rfl rfl (fun b hb => (hbased.below hstill b hb).le)
        (fun l hl => List.mem_cons_of_mem _ hl) (fun q hq => ?_) fun l hl => ?_
      · cases hq
        exact ⟨hnew _ hours.2, hnew _ hcpours⟩
      · rcases List.mem_cons.mp hl with rfl | hl
        · refine .inr ⟨hours.2, hours.1, ⟨_, List.mem_cons_self, rfl⟩, fun b hb he => ?_⟩
          rcases List.mem_cons.mp hb with rfl | hb
          · rfl
          · exact absurd he (hbased.below hstill b hb).ne
        · refine .inl ⟨hl, fun he => ?_⟩
          obtain ⟨b, hb, hbl⟩ := (hi.landed l hl).commit
          have := hbased.below hstill b hb
          change seq = l.seq at he
          omega
    · cases hres
      exact ⟨hi, .refl, trivial⟩

end Puts

theorem spec_publishImport :
    importDiscipline.Triple t (publishImport opts base seq)
      (fun σ => WroteRefs t (base.map Prod.snd) seq opts.snap σ ∧
        WroteCp t (base.map Prod.snd) seq σ) fun _ _ => True := by
  refine spec_casImport.bind fun r => ?_
  cases r with
  | ok version =>
    refine spec_andThen (spec_sourceWork .const) (fun _ _ _ => trivial) fun _ => ?_
    exact Discipline.Triple.bind (spec_skip rfl .const fun _ _ => trivial) fun _ =>
      Discipline.Triple.ret fun _ _ _ => trivial
  | error e => exact Discipline.Triple.ret fun _ _ _ => trivial

theorem spec_importFrom :
    importDiscipline.Triple t (importFrom opts base m) (MarkerAt (base.map Prod.snd) m.seq m)
      fun _ _ => True := by
  have htrue : Endures t fun _ => True := .const
  have hskip : ∀ {P : World × Imports → Prop}, Endures t P →
      importDiscipline.Triple t (pure (.ok ()) : ImportTask (Except WalError Unit)) P fun _ => P :=
    fun _ => Discipline.Triple.ret fun _ _ hx => hx
  unfold importFrom
  dsimp only
  refine spec_andThen ((spec_importPhase htrue spec_sourceWork).pre fun _ _ hx => ⟨hx, trivial⟩)
    (fun _ _ _ => trivial) fun m₁ => ?_
  refine spec_andThen ((spec_importPhase htrue spec_sourceWork).pre fun _ _ hx => hx m₁ rfl)
    (fun _ _ _ => trivial) fun m₂ => ?_
  refine spec_andThen (Q := fun _ => MarkerAt (base.map Prod.snd) m.seq m₂) ?_
    (fun _ _ _ => trivial) fun _ => ?_
  · refine Discipline.Triple.pre (P := MarkerAt (base.map Prod.snd) m.seq m₂) ?_
      fun σ _ hx => (hx m₂ rfl).1
    split
    · exact spec_sourceWork endures_markerAt
    · exact hskip endures_markerAt
  refine spec_andThen ((spec_importPhase htrue hskip).pre fun _ _ hx => ⟨hx, trivial⟩)
    (fun _ _ _ => trivial) fun m₃ => ?_
  refine spec_andThen ((spec_uploadLocalPacks htrue).pre fun _ _ hx => hx m₃ rfl)
    (fun _ _ _ => trivial) fun m₄ => ?_
  refine spec_andThen ((spec_importPhase htrue hskip).pre fun _ _ hx => hx m₄ rfl)
    (fun _ _ _ => trivial) fun m₅ => ?_
  refine spec_andThen (spec_putRefs.pre fun _ _ hx => (hx m₅ rfl).1) (fun _ _ _ => trivial)
    fun _ => ?_
  refine spec_andThen ((spec_importPhase endures_wroteRefs hskip).pre fun _ _ hx => hx rfl)
    (fun _ _ _ => trivial) fun m₆ => ?_
  refine spec_andThen (spec_importPutCheckpoint.pre fun _ _ hx => hx m₆ rfl) (fun _ _ _ => trivial)
    fun _ => ?_
  exact spec_publishImport.pre fun _ _ hx => hx rfl

def baseSeq (base : Option (Manifest × ℕ)) : ℕ := (base.elim 0 fun b => b.1.headSeq) + 1

theorem decideResume_resume {marker : Option ImportMarker} {tips : String} {current : Option ℕ}
    {force : Bool} {seen : ImportMarker}
    (h : decideResume marker tips current force = .resume seen) :
    seen.baseManifestVersion = current := by
  unfold decideResume at h
  split at h
  · cases h
  · split at h
    · cases h
    · split at h
      · split at h <;> cases h
      · rename_i hb
        cases h
        exact not_not.mp hb

theorem spec_startImport :
    importDiscipline.Triple t (startImport opts base)
      (fun σ => BasedOn (base.map Prod.snd) (baseSeq base) σ.1) fun _ _ => True := by
  refine Discipline.Triple.bind (spec_skip rfl endures_based fun _ _ => trivial) fun marker => ?_
  split
  · exact Discipline.Triple.ret fun _ _ _ => trivial
  · rename_i seen hres
    have hseen := decideResume_resume hres
    have hread := spec_calm (o := .rereadMarker opts.source seen) (t := t)
      (P := fun σ => BasedOn (base.map Prod.snd) (baseSeq base) σ.1)
      (Q := fun r σ => ∀ m, r = some m → MarkerAt (base.map Prod.snd) m.seq m σ) rfl endures_based
      (fun _ _ => trivial) (fun r t' σ σ' hg h m hm => endures_markerAt t' σ σ' hg (h m hm))
      fun σ c r σ' hi _ hok hex m hm => by
        subst hm
        have hmark : σ.2.markers opts.source = some m := congrArg Prod.fst (Option.some.inj hex)
        have hsame : σ.2.markers opts.source = some seen := by
          by_contra hne
          exact hok .markerMoved ⟨opts.source, seen, rfl, hne⟩
        obtain rfl : m = seen := Option.some.inj (hmark.symm.trans hsame)
        exact ⟨⟨hseen, rfl⟩, hseen ▸ hi.markers _ _ hmark⟩
    refine hread.bind fun r => ?_
    cases r with
    | none => exact Discipline.Triple.ret fun _ _ _ => trivial
    | some m => exact spec_importFrom.pre fun _ _ hx => hx.2 m rfl
  · refine spec_andThen (spec_skip rfl endures_based fun σ hx => ?_) (fun _ _ _ => trivial)
      fun _ => ?_
    · exact hx
    · exact spec_importFrom.pre fun σ _ hx => ⟨⟨rfl, rfl⟩, hx⟩

theorem spec_importDirect :
    importDiscipline.Triple t (importDirect opts) (fun _ => True) fun _ _ => True := by
  refine spec_andThen (spec_sourceWork .const) (fun _ _ _ => trivial) fun _ => ?_
  split
  · exact Discipline.Triple.ret fun _ _ _ => trivial
  · have hget := spec_calm (o := .getManifest) (t := t) (P := fun _ => True)
      (Q := fun r σ => ∀ b, r = .ok b → BasedOn (b.map Prod.snd) (baseSeq b) σ.1) rfl .const
      (fun _ _ => trivial) (fun r t' σ σ' hg h b hb => endures_based t' σ σ' hg (h b hb))
      fun σ c r σ' hi _ hok hex b hb => by
        subst hb
        have hr : c.get (σ.1.commits.head?.map fun a => (a.manifest, a.version)) = .ok b :=
          congrArg Prod.fst (Option.some.inj hex)
        obtain rfl := Choice.get_ok hr
        cases hc : σ.1.commits with
        | nil => exact ⟨nofun, fun _ a ha => by rw [hc] at ha; cases ha⟩
        | cons a as =>
          refine ⟨fun v hv => ?_, fun _ b hb => ?_⟩
          · cases hv
            exact hi.versions a (hc ▸ List.mem_cons_self)
          · have hle := hi.heads b hb
            have hh : σ.1.head = a.manifest.headSeq := by
              unfold World.head World.current
              rw [hc]
              rfl
            rw [hh] at hle
            exact Nat.lt_succ_of_le hle
    refine spec_andThen hget (fun _ _ _ => trivial) fun b => ?_
    cases b with
    | none => exact spec_startImport.pre fun _ _ hx => hx.2 none rfl
    | some b =>
      refine Discipline.Triple.pre
        (P := fun σ => BasedOn ((some b).map Prod.snd) (baseSeq (some b)) σ.1) ?_
        fun σ _ hx => hx.2 (some b) rfl
      refine spec_andThen (spec_sourceWork endures_based) (fun _ _ _ => trivial) fun _ => ?_
      refine Discipline.Triple.bind (spec_skip rfl endures_based fun _ _ => trivial)
        fun hasHistory => ?_
      split
      · exact Discipline.Triple.bind (spec_skip rfl endures_based fun _ _ => trivial) fun _ =>
          Discipline.Triple.ret fun _ _ _ => trivial
      · split
        · exact Discipline.Triple.ret fun _ _ _ => trivial
        · exact spec_startImport

end Program

section Jobs

variable {cfg : Config}

theorem spec_createManifest :
    importDiscipline.Triple t (importCall .createManifest) (fun _ => True)
      fun r σ => ∀ v, r = .ok v → Has .created σ.1 := by
  refine Discipline.Triple.perform (D := importDiscipline)
    (fun r t' σ σ' _ _ _ hg h v hv => hg.commits.has (h v hv)) (fun _ _ _ => trivial)
    fun σ c r σ' hi _ hok hex => ?_
  obtain ⟨-, hex⟩ := importExec_import hex
  have hres : ((σ.1.createManifest t c).1, (σ.1.createManifest t c).2, σ.2) = (r, σ') :=
    Option.some.inj hex
  unfold World.createManifest at hres
  split at hres
  · cases hres
    exact ⟨hi, .refl, nofun⟩
  · split at hres
    · rename_i hempty
      obtain rfl := congrArg Prod.snd hres
      have hnone : ∀ a, a ∉ σ.1.commits := by
        rw [List.isEmpty_iff.mp hempty]
        exact fun a => List.not_mem_nil
      refine ⟨hi.commit rfl rfl (fun b hb => (hnone b hb).elim) (fun _ h => h) nofun fun l hl => ?_,
        ⟨⟨.inr ⟨_, rfl, Nat.le_refl _⟩, Nat.le_succ _, fun _ h => h, fun _ h => h⟩,
          fun q => .inl ⟨rfl, rfl⟩, fun _ => .inl rfl, fun w hw _ => .inl hw⟩,
        fun _ _ => ⟨_, List.mem_cons_self, rfl⟩⟩
      obtain ⟨b, hb, -⟩ := (hi.landed l hl).commit
      exact (hnone b hb).elim
    · cases hres
      exact ⟨hi, .refl, nofun⟩

theorem spec_createRepo {h : ℕ} :
    importDiscipline.Triple t (createRepo h) (fun _ => True) fun _ _ => True := by
  refine spec_createManifest.bind fun r => ?_
  cases r with
  | error e => exact Discipline.Triple.ret fun _ _ _ => trivial
  | ok version =>
    have hP : (importRules t).steady fun σ => Has .created σ.1 :=
      (importRules t).steady_has .created
    have hinst : (importRules t).Spec (do
        call (.install h .created version .default .init)
        call (.publishHandle h)) (fun σ => Has .created σ.1) fun _ σ => Has .created σ.1 :=
      ServerRules.Spec.bind (ServerRules.Spec.step hP fun _ hx => hx) fun _ =>
        ServerRules.Spec.free (free_call.mpr rfl) hP
    exact Discipline.Triple.conseq hinst (fun σ _ hx => hx version rfl) fun _ _ _ _ => trivial

theorem spec_leave {o : ImportOp} (ho : o = .ended ∨ ∃ task, o = .kill task) :
    importDiscipline.Triple t (importCall o) (fun _ => True) fun _ _ => True := by
  refine Discipline.Triple.perform (D := importDiscipline) (fun _ => .const) (fun _ _ _ => trivial)
    fun σ c r σ' hi _ hok hex => ?_
  obtain ⟨-, hex⟩ := importExec_import hex
  rcases ho with rfl | ⟨task, rfl⟩
  · cases hex
    refine ⟨hi.same rfl (Nat.le_refl _) rfl hi.held ⟨rfl, rfl, rfl⟩ fun _ _ h => .inl h,
      ⟨⟨.inl rfl, Nat.le_refl _, fun _ h => h, fun _ h => h⟩, fun q => .inl ⟨rfl, rfl⟩,
        fun _ => .inl rfl, fun w hw hne => .inl ?_⟩, trivial⟩
    exact List.mem_filter.mpr ⟨hw, decide_eq_true hne⟩
  · cases hex
    refine ⟨hi.same rfl (Nat.le_refl _) rfl hi.held ⟨rfl, rfl, rfl⟩ fun _ _ h => .inl h,
      ⟨⟨.inl rfl, Nat.le_refl _, fun _ h => List.mem_cons_of_mem _ h, fun _ h => h⟩,
        fun q => .inl ⟨rfl, rfl⟩, fun _ => .inl rfl, fun w hw _ => ?_⟩, trivial⟩
    by_cases hne : w.1 = task
    · exact .inr (hne ▸ List.mem_cons_self)
    · exact .inl (List.mem_filter.mpr ⟨hw, decide_eq_true hne⟩)

theorem spec_importJob (job : ImportJob) :
    importDiscipline.Triple t (job.run cfg) (fun _ => True) fun _ _ => True := by
  refine Discipline.Triple.bind (R := fun _ _ => True) ?_ fun _ => spec_leave (.inl rfl)
  cases job with
  | server job => exact ServerRules.spec_job job ((importRules t).const True)
  | create h => exact spec_createRepo
  | upload key bytes => exact spec_skip rfl .const fun _ _ => trivial
  | importDirect opts =>
    exact spec_importDirect.bind fun _ => Discipline.Triple.ret fun _ _ _ => trivial
  | kill task => exact spec_leave (.inr ⟨task, rfl⟩)

theorem ImportRun.inv {s : ImportSys} (h : ImportRun cfg ImportsOk s) : ImportInv s.world := by
  have hinit : importDiscipline.Sound ImportSys.init :=
    Discipline.sound_init importInv_init fun _ => trivial
  exact (hinit.reach (fun _ => .const) (fun job _ => spec_importJob job) h).inv

end Jobs

end Walgit
