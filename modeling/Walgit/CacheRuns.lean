import Walgit.CacheSpec

/-!
# Evictions in whole runs

An open is alone at its handle until it registers it, since it holds the gate and
no handle is registered; an eviction is alone at the directory until it is done
with it. Requests in between only use the live handle.
-/

namespace Walgit.Cache

open Interleaving

variable {t h q : ℕ} {c : Choice} {m : Snapshot} {σ σ' : Instance} {hd hd' : Handle}

section Open

theorem held_cons {σ : Instance} {u : ℕ} {l : List (ℕ × ℕ)} (hl : σ.holders = (u, h) :: l) :
    σ.held t = if u = t then h :: (l.filter (·.1 = t)).map Prod.snd
      else (l.filter (·.1 = t)).map Prod.snd := by
  by_cases hu : u = t <;> simp [Instance.held, hl, hu]

theorem holders_eq_nil (hall : ∀ t h, h ∉ σ.held t) : σ.holders = [] := by
  refine List.eq_nil_iff_forall_not_mem.mpr fun x hx => ?_
  exact hall x.1 x.2 (mem_held.mpr hx)

theorem Inv.alone (hi : Inv σ) (hr : σ.registry = none) (hg : σ.gate = some t)
    (hheld : σ.held t = []) : σ.holders = [] := by
  refine holders_eq_nil fun t' h' hh' => ?_
  have ht := hi.opener hr t' h' hh'
  rw [hg] at ht
  cases ht
  simp [hheld] at hh'

def Opened (t : ℕ) (r : Except WalError ℕ) (σ : Instance) : Prop :=
  match r with
  | .ok h => At t h (fun _ => True) σ
  | .error _ => σ.held t = []

theorem stable_opened {r : Except WalError ℕ} : discipline.Stable t (Opened t r) := by
  cases r with
  | ok h => exact stable_at .const
  | error e => exact stable_held

/-- The task holds the gate, and no handle is registered. -/
def Gated (t : ℕ) (σ : Instance) : Prop := σ.gate = some t ∧ σ.registry = none

theorem stable_gated : discipline.Stable t (Gated t) :=
  fun _ _ _ ht _ _ hg hh =>
    ⟨(hg.gate t (Ne.symm ht) hh.1).1, (hg.gate t (Ne.symm ht) hh.1).2 hh.2⟩

theorem stable_registered :
    discipline.Stable t fun σ => At t h (fun _ => True) σ ∧ σ.registry ≠ none := by
  intro t' σ σ' ht hi hi' hg ⟨ha, hr⟩
  refine ⟨stable_at .const t' σ σ' ht hi hi' hg ha, hg.registry hr fun hnil => ?_⟩
  have hmem := mem_held.mp (mem_held_of_eq ha.1)
  rw [hnil] at hmem
  cases hmem

theorem Inv.addHolder (hi : Inv σ) (hr : σ.registry = some h) :
    Inv { σ with holders := (t, h) :: σ.holders } where
  handles := hi.handles
  stored := hi.stored
  published := hi.published
  unique := hi.unique
  live j hl := by
    refine hi.live j ?_
    obtain hl | ⟨u, hu⟩ := hl
    · exact .inl hl
    · rw [mem_held, List.mem_cons] at hu
      rcases hu with hu | hu
      · cases hu
        exact .inl hr
      · exact .inr ⟨u, mem_held.mpr hu⟩
  opener hn := by rw [hr] at hn; cases hn
  removing hne := by
    obtain ⟨hn, -⟩ := hi.removing hne
    rw [hr] at hn
    cases hn
  invisible := hi.invisible.of_same rfl rfl

theorem held_addHolder (hheld : σ.held t = []) :
    ({ σ with holders := (t, h) :: σ.holders } : Instance).held t = [h] := by
  rw [held_cons rfl, if_pos rfl]
  exact congrArg (h :: ·) hheld

theorem exec_lookup {r : Option ℕ} (hex : exec t .lookup c σ = some (r, σ')) :
    (r = none ∧ σ.registry = none ∧ σ' = σ) ∨ ∃ h, r = some h ∧ σ.registry = some h ∧
      σ' = { σ with holders := (t, h) :: σ.holders } := by
  obtain ⟨published, registry⟩ := σ
  cases registry with
  | none =>
    cases hex
    exact .inl ⟨rfl, rfl, rfl⟩
  | some h =>
    cases hex
    exact .inr ⟨h, rfl, rfl, rfl⟩

/-- A lookup by a task that holds nothing; `N` is what no new holder changes and `G` what
follows if no handle is registered. -/
theorem spec_lookup {N G : Instance → Prop} (hN : discipline.Stable t N)
    (hG : discipline.Stable t G) (hset : ∀ σ l, N σ → N { σ with holders := l })
    (hnone : ∀ σ, N σ → σ.registry = none → G σ) :
    Spec t (call .lookup) (fun σ => σ.held t = [] ∧ N σ) fun r σ => N σ ∧
      match r with
      | some h => At t h (fun _ => True) σ ∧ σ.registry ≠ none
      | none => σ.held t = [] ∧ G σ := by
  refine Discipline.Triple.perform (fun r => hN.and ?_) (fun _ _ _ => trivial) ?_
  · cases r with
    | some h => exact stable_registered
    | none => exact stable_held.and hG
  · intro σ c r σ' hi hpre _ hex
    obtain ⟨hheld, hn⟩ := hpre
    obtain ⟨rfl, hr, rfl⟩ | ⟨h, rfl, hr, rfl⟩ := exec_lookup (c := c) hex
    · exact ⟨hi, .refl, hn, hheld, hnone _ hn hr⟩
    · obtain ⟨-, hd, d, hh, -, -⟩ := hi.live h (.inl hr)
      refine ⟨hi.addHolder hr, ?_, hset σ _ hn, ⟨held_addHolder hheld, hd, hh, trivial⟩, ?_⟩
      · refine .of_same rfl (fun t' ht => ?_) rfl rfl (fun _ _ hm => hm) fun _ hs => hs
        rw [held_cons rfl, if_neg (Ne.symm ht)]
        rfl
      · change σ.registry ≠ none
        simp [hr]

/-- What the opener has when it gives the gate back. -/
def Finished (t : ℕ) (r : Except WalError ℕ) (σ : Instance) : Prop :=
  σ.gate = some t ∧
    match r with
    | .ok h => At t h (fun _ => True) σ ∧ σ.registry ≠ none
    | .error _ => σ.held t = []

theorem spec_lockGate :
    Spec t (call .lockGate) (fun σ => σ.held t = [])
      fun _ σ => σ.held t = [] ∧ σ.gate = some t := by
  refine Discipline.Triple.perform (fun _ => stable_held.and stable_gate)
    (fun _ _ _ => trivial) ?_
  intro σ c r σ' hi hheld _ hex
  have hex' : (if σ.gate.isNone then some ((), { σ with gate := some t }) else none) =
    some (r, σ') := hex
  split at hex'
  · rename_i hfree
    have hgate : σ.gate = none := Option.isNone_iff_eq_none.mp hfree
    cases hex'
    refine ⟨⟨hi.handles, hi.stored, hi.published, hi.unique, hi.live, fun hn t' h' hh' => ?_,
      hi.removing,
      hi.invisible.of_same rfl rfl⟩, ?_, hheld, rfl⟩
    · have hg := hi.opener hn t' h' hh'
      rw [hgate] at hg
      cases hg
    · exact ⟨fun h hd hh => ⟨hd, hh, .refl, fun _ => rfl⟩, fun _ _ => rfl,
        fun t' _ ht => (by rw [hgate] at ht; cases ht), fun hn _ => hn, fun _ _ hm => hm,
        fun _ hs => hs⟩
  · cases hex'

theorem spec_unlockGate {r : Except WalError ℕ} :
    Spec t (call .unlockGate) (Finished t r) fun _ => Opened t r := by
  refine Discipline.Triple.perform (fun _ => stable_opened) (fun _ _ _ => trivial) ?_
  intro σ c _ σ' hi hpre _ hex
  obtain ⟨hgate, hr⟩ := hpre
  cases hex
  have hnil : σ.registry = none → σ.holders = [] := by
    intro hn
    cases r with
    | ok h => exact absurd hn hr.2
    | error e => exact hi.alone hn hgate hr
  refine ⟨⟨hi.handles, hi.stored, hi.published, hi.unique, hi.live, fun hn t' h' hh' => ?_,
      hi.removing,
    hi.invisible.of_same rfl rfl⟩, ?_, ?_⟩
  · rw [mem_held, show ({ σ with gate := none } : Instance).holders = σ.holders from rfl,
      hnil hn] at hh'
    cases hh'
  · refine ⟨fun h hd hh => ⟨hd, hh, .refl, fun _ => rfl⟩, fun _ _ => rfl, fun t' ht hg => ?_,
      fun hn _ => hn, fun _ _ hm => hm, fun _ hs => hs⟩
    exact absurd (Option.some.inj (hg.symm.trans hgate)) ht
  · cases r with
    | ok h => exact hr.1
    | error e => exact hr

theorem spec_getManifest {N : Instance → Prop} (hN : discipline.Stable t N) :
    Spec t (call .getManifest) N
      fun r σ => N σ ∧ ∀ m, r = .ok m → m ∈ σ.published := by
  refine spec_same (fun c σ r σ' hi hn hex => ?_) fun r => hN.and ?_
  · cases hex
    refine ⟨rfl, hn, fun m hm => ?_⟩
    unfold Choice.get at hm
    split at hm
    · cases hm
      exact hi.stored
    · cases hm
  · intro t' σ σ' ht hi hi' hg hall m hm
    exact hg.published (hall m hm)

def Opening (t h : ℕ) (m : Snapshot) (σ : Instance) : Prop :=
  Gated t σ ∧ At t h (fun _ => True) σ ∧ On h (fun hd => hd.manifest = m) σ ∧ m ∈ σ.published

theorem stable_opening : discipline.Stable t (Opening t h m) := by
  intro t' σ σ' ht hi hi' hg ⟨hgated, hat, ⟨hd, hh, hm⟩, hpub⟩
  refine ⟨stable_gated t' σ σ' ht hi hi' hg hgated, stable_at .const t' σ σ' ht hi hi' hg hat, ?_,
    hg.published hpub⟩
  obtain ⟨hd', hh', -, hother⟩ := hg.handles h hd hh
  refine ⟨hd', hh', (hother fun hmem => ?_).trans hm⟩
  have hgate := hi.opener hgated.2 t' h hmem
  exact ht (Option.some.inj (hgate.symm.trans hgated.1))

theorem Inv.opened (hi : Inv σ) (hr : σ.registry = none) (hg : σ.gate = some t)
    (hnil : σ.holders = []) (hrem : σ.removing = []) (hm : m ∈ σ.published) :
    Inv (σ.openLocal t c m).2 where
  handles j hj hj' := by
    have hj'' : (if j = σ.next then some (newHandle m c.now) else σ.handles j) = some hj := hj'
    split at hj''
    · rename_i hjn
      subst hjn
      cases hj''
      exact ⟨Nat.lt_succ_self _, hm⟩
    · obtain ⟨hlt, hpub⟩ := hi.handles j hj hj''
      exact ⟨Nat.lt_succ_of_lt hlt, hpub⟩
  stored := hi.stored
  published := hi.published
  unique := hi.unique
  live j hl := by
    obtain rfl : j = σ.next := by
      obtain hl | ⟨u, hu⟩ := hl
      · rw [show (σ.openLocal t c m).2.registry = none from hr] at hl
        cases hl
      · rw [mem_held, show (σ.openLocal t c m).2.holders = [(t, σ.next)] from
          congrArg ((t, σ.next) :: ·) hnil] at hu
        simp_all
    refine ⟨rfl, newHandle m c.now, _, if_pos rfl, rfl, nofun, nofun, nofun, nofun⟩
  opener _ t' h' hh' := by
    rw [mem_held, show (σ.openLocal t c m).2.holders = [(t, σ.next)] from
      congrArg ((t, σ.next) :: ·) hnil] at hh'
    obtain ⟨rfl, -⟩ : t' = t ∧ h' = σ.next := by simpa using hh'
    exact hg
  removing hne := absurd hrem hne
  invisible := hi.invisible.of_same rfl rfl

theorem spec_openLocal :
    Spec t (call (.openLocal m)) (fun σ => (σ.held t = [] ∧ Gated t σ) ∧ m ∈ σ.published)
      fun r σ => match r with
        | .ok (h, _) => Opening t h m σ
        | .error _ => σ.held t = [] ∧ Gated t σ := by
  refine Discipline.Triple.perform (fun r => ?_) (fun _ _ _ => trivial) ?_
  · rcases r with e | ⟨h, k⟩
    · exact stable_held.and stable_gated
    · exact stable_opening
  · intro σ c r σ' hi hpre hok hex
    obtain ⟨⟨hheld, hgate, hr⟩, hm⟩ := hpre
    change exec t (.openLocal m) c σ = some (r, σ') at hex
    unfold exec at hex
    dsimp only at hex
    split at hex
    · cases hex
      have hnil := hi.alone hr hgate hheld
      have hheld' : (σ.openLocal t c m).2.held t = [σ.next] := by
        rw [held_cons rfl, if_pos rfl, hnil]
        rfl
      refine ⟨hi.opened hr hgate hnil hok.1 hm, ?_, ⟨hgate, hr⟩, ⟨hheld', _, if_pos rfl, trivial⟩,
        ⟨_, if_pos rfl, rfl⟩, hm⟩
      refine ⟨fun j hj hj' => ⟨hj, ?_, .refl, fun _ => rfl⟩, fun t' ht => ?_,
        fun t' _ hg => ⟨hg, fun hn => hn⟩, fun hn _ => hn, fun _ _ hmem => hmem, fun _ hs => hs⟩
      · have hlt := (hi.handles j hj hj').1
        exact (if_neg hlt.ne).trans hj'
      · rw [held_cons rfl, if_neg (Ne.symm ht)]
        rfl
    · cases hex
      exact ⟨hi, .refl, hheld, hgate, hr⟩

theorem spec_applyOpening :
    Spec t (call (.apply h m)) (Opening t h m)
      fun _ σ => Gated t σ ∧ At t h (fun _ => True) σ := by
  refine Discipline.Triple.perform (fun _ => stable_gated.and (stable_at .const))
    (fun _ _ _ => trivial) ?_
  intro σ c r σ' hi hpre _ hex
  obtain ⟨hgated, ⟨hheld, -⟩, ⟨hd, hh, rfl⟩, hm⟩ := hpre
  obtain ⟨hi', hg, ⟨hhold, hgate, hreg⟩, hd', hh', -, -⟩ :=
    apply_step hi (mem_held_of_eq hheld) hh hm (Nat.le_refl _) (.inr rfl) hex
  refine ⟨hi', hg, ⟨hgate.trans hgated.1, hreg.trans hgated.2⟩, ?_, hd', hh', trivial⟩
  rw [Instance.held, hhold]
  exact hheld

theorem spec_insert :
    Spec t (call (.insert h)) (fun σ => Gated t σ ∧ At t h (fun _ => True) σ)
      fun _ => Finished t (.ok h) := by
  refine Discipline.Triple.perform (fun _ => stable_gate.and stable_registered)
    (fun _ _ _ => trivial) ?_
  intro σ c r σ' hi hpre _ hex
  obtain ⟨⟨hgate, hr⟩, hat⟩ := hpre
  cases hex
  have hmem := mem_held_of_eq hat.1
  refine ⟨⟨hi.handles, hi.stored, hi.published, hi.unique, fun j hl => hi.live j ?_, nofun,
      fun hne => ?_,
    hi.invisible.of_same rfl rfl⟩, ?_, hgate, hat, nofun⟩
  · obtain hl | hl := hl
    · cases hl
      exact .inr ⟨t, hmem⟩
    · exact .inr hl
  · have hnil := (hi.removing hne).2
    rw [mem_held, hnil] at hmem
    cases hmem
  · refine ⟨fun h hd hh => ⟨hd, hh, .refl, fun _ => rfl⟩, fun _ _ => rfl, fun t' ht hg => ?_,
      fun _ _ => nofun, fun _ _ hm => hm, fun _ hs => hs⟩
    exact absurd (Option.some.inj (hg.symm.trans hgate)) ht

theorem filter_holders (hheld : σ.held t = [h]) : σ.holders.filter (·.1 = t) = [(t, h)] := by
  obtain ⟨x, hx, rfl⟩ := List.map_eq_singleton_iff.mp hheld
  have hmem : x ∈ σ.holders.filter (·.1 = t) := by simp [hx]
  obtain ⟨u, h⟩ := x
  obtain rfl : u = t := by simpa using (List.mem_filter.mp hmem).2
  exact hx

theorem spec_drop {N : Instance → Prop} (hN : discipline.Stable t N)
    (hset : ∀ σ l, N σ → N { σ with holders := l }) :
    Spec t (call (.drop h)) (fun σ => N σ ∧ At t h (fun _ => True) σ)
      fun _ σ => N σ ∧ σ.held t = [] := by
  refine Discipline.Triple.perform (fun _ => hN.and stable_held) (fun _ _ _ => trivial) ?_
  intro σ c r σ' hi hpre _ hex
  obtain ⟨hn, hheld, -⟩ := hpre
  cases hex
  have hsub : ∀ {u j}, j ∈ ({ σ with holders := σ.holders.erase (t, h) } : Instance).held u →
      j ∈ σ.held u := fun hj => mem_held.mpr (List.mem_of_mem_erase (mem_held.mp hj))
  refine ⟨⟨hi.handles, hi.stored, hi.published, hi.unique, fun j hl => hi.live j ?_,
    fun hr t' h' hh' => hi.opener hr t' h' (hsub hh'), fun hne => ?_,
    hi.invisible.of_same rfl rfl⟩, ?_, hset σ _ hn, ?_⟩
  · exact hl.imp id fun ⟨u, hu⟩ => ⟨u, hsub hu⟩
  · obtain ⟨hr, hnil⟩ := hi.removing hne
    exact ⟨hr, by simp [hnil]⟩
  · refine .of_same rfl (fun t' ht => ?_) rfl rfl (fun _ _ hm => hm) fun _ hs => hs
    have hnot : (t, h) ∉ σ.holders.filter (·.1 = t') := by simp [Ne.symm ht]
    simp only [Instance.held]
    rw [← List.erase_filter, List.erase_of_not_mem hnot]
  · simp only [Instance.held]
    rw [← List.erase_filter, filter_holders hheld]
    simp

theorem spec_openNew :
    Spec t (openNew m) (fun σ => (σ.held t = [] ∧ Gated t σ) ∧ m ∈ σ.published) (Finished t) := by
  refine Discipline.Triple.bind spec_openLocal fun r => ?_
  match r with
  | .error e => exact fun σ hi ha => ⟨ha.2.1, ha.1⟩
  | .ok (h, applied) =>
    have hdrop : ∀ e, Spec t (call (.drop h) >>= fun _ => pure (.error e))
        (fun σ => Gated t σ ∧ At t h (fun _ => True) σ) (Finished t) := by
      intro e
      refine Discipline.Triple.bind ((spec_drop stable_gate fun _ _ hg => hg).pre
        fun σ _ ha => ⟨ha.1.1, ha.2⟩) fun _ => ?_
      exact fun σ hi ha => ha
    have hinsert : Spec t (call (.insert h) >>= fun _ => pure (.ok h))
        (fun σ => Gated t σ ∧ At t h (fun _ => True) σ) (Finished t) := by
      refine Discipline.Triple.bind spec_insert fun _ => ?_
      exact fun σ hi ha => ha
    dsimp only
    split
    · refine Discipline.Triple.bind spec_applyOpening fun r => ?_
      match r with
      | .error e => exact hdrop e
      | .ok () => exact hinsert
    · exact hinsert.pre fun σ _ ha => ⟨ha.1, ha.2.1⟩

theorem spec_openGated :
    Spec t openGated (fun σ => σ.held t = [] ∧ σ.gate = some t) (Finished t) := by
  refine Discipline.Triple.bind (spec_lookup stable_gate stable_gated (fun _ _ hg => hg)
    fun _ hg hr => ⟨hg, hr⟩) fun r => ?_
  match r with
  | some h => exact fun σ hi ha => ha
  | none =>
    refine Discipline.Triple.bind ((spec_getManifest (stable_held.and stable_gated)).pre
      fun _ _ ha => ha.2) fun r => ?_
    match r with
    | .error e => exact fun σ hi ha => ⟨ha.1.2.1, ha.1.1⟩
    | .ok m => exact spec_openNew.pre fun _ _ ha => ⟨ha.1, ha.2 m rfl⟩

theorem spec_openRepo : Spec t openRepo (fun σ => σ.held t = []) (Opened t) := by
  refine Discipline.Triple.bind ((spec_lookup (G := fun _ => True) Discipline.Stable.const
    Discipline.Stable.const (fun _ _ _ => trivial) fun _ _ _ => trivial).pre
    fun _ _ ha => ⟨ha, trivial⟩) fun r => ?_
  match r with
  | some h => exact fun σ hi ha => ha.2.1
  | none =>
    refine Discipline.Triple.bind (spec_lockGate.pre fun _ _ ha => ha.2.1) fun _ => ?_
    refine Discipline.Triple.bind spec_openGated fun r => ?_
    refine Discipline.Triple.bind spec_unlockGate fun _ => ?_
    exact fun σ hi ha => ha

end Open

section Jobs

theorem spec_request {level : Level} {reads : ℕ} :
    Spec t (request level reads) (fun σ => σ.held t = []) fun _ _ => True := by
  refine Discipline.Triple.bind spec_openRepo fun r => ?_
  match r with
  | .error e => exact fun _ _ _ => trivial
  | .ok h =>
    have hdrop : Spec t (call (.drop h)) (At t h fun _ => True) fun _ _ => True :=
      ((spec_drop (N := fun _ => True) Discipline.Stable.const fun _ _ _ => trivial).pre
        fun _ _ ha => ⟨trivial, ha⟩).post fun _ _ _ _ => trivial
    cases level with
    | refs => exact Discipline.Triple.bind spec_serveRefs fun _ => hdrop
    | serve => exact Discipline.Triple.bind spec_serveObjects fun _ => hdrop

theorem Inv.unique_cons {refs : RefState} {packs : List String} (hi : Inv σ) :
    ∀ s ∈ (⟨σ.stored.seq + 1, refs, packs⟩ : Snapshot) :: σ.published,
      ∀ s' ∈ (⟨σ.stored.seq + 1, refs, packs⟩ : Snapshot) :: σ.published,
        s.seq = s'.seq → s = s' := by
  have hlt : ∀ s ∈ σ.published, s.seq < σ.stored.seq + 1 := fun s hs =>
    Nat.lt_succ_of_le (hi.published s hs)
  intro s hs s' hs' hseq
  rcases List.mem_cons.mp hs with rfl | hs <;> rcases List.mem_cons.mp hs' with rfl | hs'
  · rfl
  · exact absurd hseq (hlt s' hs').ne'
  · exact absurd hseq (hlt s hs).ne
  · exact hi.unique s hs s' hs' hseq

theorem Shows.publish {d : Dir} {refs : RefState} {packs : List String}
    (hsh : Shows σ.published hd d) (hi : Inv σ) (hm : hd.manifest ∈ σ.published) :
    Shows (⟨σ.stored.seq + 1, refs, packs⟩ :: σ.published) hd d := by
  refine ⟨hsh.refs, hsh.verified, hsh.reconciled, fun q hq s hs hseq => ?_⟩
  rcases List.mem_cons.mp hs with rfl | hs
  · have hle := (hsh.reconciled q hq).trans (hi.published _ hm)
    subst hseq
    exact absurd hle (Nat.not_succ_le_self _)
  · exact hsh.packs q hq s hs hseq

theorem spec_publish {refs : RefState} {packs : List String} {P : Instance → Prop} :
    Spec t (call (.publish refs packs)) P fun _ _ => True := by
  refine Discipline.Triple.perform (fun _ => Discipline.Stable.const) (fun _ _ _ => trivial) ?_
  intro σ c r σ' hi _ _ hex
  cases hex
  have hsub : ∀ {s}, s ∈ σ.published →
      s ∈ (⟨σ.stored.seq + 1, refs, packs⟩ : Snapshot) :: σ.published := List.mem_cons_of_mem _
  refine ⟨⟨fun h hd hh => ?_, List.mem_cons_self, fun s hs => ?_, hi.unique_cons, fun h hl => ?_,
    hi.opener, hi.removing, hi.invisible.of_same rfl rfl⟩,
    .of_same rfl (fun _ _ => rfl) rfl rfl (fun _ _ hm => hm) fun _ hs => hsub hs, trivial⟩
  · exact ⟨(hi.handles h hd hh).1, hsub (hi.handles h hd hh).2⟩
  · rcases List.mem_cons.mp hs with rfl | hs
    · exact Nat.le_refl _
    · exact (hi.published s hs).trans (Nat.le_succ _)
  · obtain ⟨ho, hd, d, hh, hdir, hsh⟩ := hi.live h hl
    exact ⟨ho, hd, d, hh, hdir, hsh.publish hi (hi.handles h hd hh).2⟩

theorem Inv.unseen {dir : Option Dir} {removing : List ℕ} (hi : Inv σ) (hr : σ.registry = none)
    (hnil : σ.holders = []) : Inv { σ with dir := dir, removing := removing } where
  handles := hi.handles
  stored := hi.stored
  published := hi.published
  unique := hi.unique
  live h hl := by
    obtain hl | ⟨u, hu⟩ := hl
    · cases hr.symm.trans hl
    · rw [mem_held, show ({ σ with dir := dir, removing := removing } : Instance).holders = []
        from hnil] at hu
      cases hu
  opener := hi.opener
  removing _ := ⟨hr, hnil⟩
  invisible := hi.invisible.of_same rfl rfl

theorem spec_sampleIdle {after : ℕ} {P : Instance → Prop} :
    Spec t (call (.sampleIdle after)) P
      fun r σ => ∀ h, r = some h → On h (fun _ => True) σ := by
  refine spec_same (fun c σ r σ' hi _ hex => ?_) fun r => ?_
  · cases hex
    refine ⟨rfl, fun h hh => ?_⟩
    obtain ⟨hd, -, hhd, -, -⟩ := (hi.live h (.inl (Option.filter_eq_some_iff.mp hh).1)).2
    exact ⟨hd, hhd, trivial⟩
  · exact fun t' σ σ' ht hi hi' hg hall h hh => stable_on .const t' σ σ' ht hi hi' hg (hall h hh)

theorem spec_unregister {p : Handle → Prop} (hps : Steady t p) :
    Spec t (call (.unregister h)) (On h p) fun _ σ => t ∈ σ.removing ∧ On h p σ := by
  refine Discipline.Triple.perform (fun _ => stable_removing.and (stable_on hps))
    (fun _ _ _ => trivial) ?_
  intro σ c r σ' hi hon hok hex
  obtain ⟨-, hnil, hgate⟩ := hok.1
  cases hex
  refine ⟨⟨hi.handles, hi.stored, hi.published, hi.unique, fun j hl => ?_, fun _ t' h' hh' => ?_,
    fun _ => ⟨rfl, hnil⟩, hi.invisible.of_same rfl rfl⟩, ?_,
    List.mem_cons_self, hon⟩
  · obtain hl | hl := hl
    · cases hl
    · exact hi.live j (.inr hl)
  · have hmem := mem_held.mp hh'
    rw [show Instance.holders _ = [] from hnil] at hmem
    cases hmem
  · refine ⟨fun h hd hh => ⟨hd, hh, .refl, fun _ => rfl⟩, fun _ _ => rfl, fun t' _ ht => ?_,
      fun _ hne => absurd hnil hne, fun _ _ hm => List.mem_cons_of_mem _ hm, fun _ hs => hs⟩
    rw [hgate] at ht
    cases ht

theorem removing_unseen (hi : Inv σ) (hr : t ∈ σ.removing) :
    σ.registry = none ∧ σ.holders = [] :=
  hi.removing (List.ne_nil_of_mem hr)

theorem spec_removePart {p : Handle → Prop} (hps : Steady t p) :
    Spec t (call .removePart) (fun σ => t ∈ σ.removing ∧ On h p σ)
      fun _ σ => t ∈ σ.removing ∧ On h p σ := by
  refine Discipline.Triple.perform (fun _ => stable_removing.and (stable_on hps))
    (fun _ _ _ => trivial) ?_
  intro σ c r σ' hi hpre _ hex
  obtain ⟨hr, hnil⟩ := removing_unseen hi hpre.1
  cases hex
  exact ⟨hi.unseen hr hnil,
    .of_same rfl (fun _ _ => rfl) rfl rfl (fun _ _ hm => hm) fun _ hs => hs, hpre⟩

theorem spec_removeDir {p : Handle → Prop} (hps : Steady t p) :
    Spec t (call .removeDir) (fun σ => t ∈ σ.removing ∧ On h p σ)
      fun _ σ => True ∧ On h p σ := by
  refine Discipline.Triple.perform (fun _ => Discipline.Stable.const.and (stable_on hps))
    (fun _ _ _ => trivial) ?_
  intro σ c r σ' hi hpre _ hex
  obtain ⟨hr, hnil⟩ := removing_unseen hi hpre.1
  cases hex
  refine ⟨hi.unseen hr hnil, .of_same rfl (fun _ _ => rfl) rfl rfl (fun t' ht hm => ?_)
    fun _ hs => hs, trivial, hpre.2⟩
  exact (List.mem_erase_of_ne ht).mpr hm

theorem spec_overBudget :
    Spec t (call .overBudget) (On h fun _ => True) fun _ σ => True ∧ On h (fun _ => True) σ :=
  spec_same (fun _ _ _ _ _ hon hex => by cases hex; exact ⟨rfl, trivial, hon⟩)
    fun _ => Discipline.Stable.const.and (stable_on .const)

theorem spec_tryLockSync :
    Spec t (call (.tryLockSync h)) (fun σ => True ∧ On h (fun _ => True) σ)
      fun b σ => True ∧ On h (if b then fun hd => hd.syncMutex = some t else fun _ => True) σ := by
  refine spec_tryLock (o := .tryLockSync h) (b := id) (fun _ _ _ _ => exec_tryLock) aside_true
    (fun hd hfree _ => ⟨⟨rfl, rfl, rfl, rfl, fun t' _ hs => ?_, fun _ _ hs => hs⟩, rfl⟩) .const
    steady_syncMutex
  simp [hs] at hfree

theorem spec_tryWrite :
    Spec t (call (.tryWrite h)) (fun σ => True ∧ On h (fun hd => hd.syncMutex = some t) σ)
      fun _ σ => True ∧ On h (fun hd => hd.syncMutex = some t) σ := by
  refine (spec_tryLock (o := .tryWrite h) (b := id) (fun _ _ _ _ => exec_tryLock) aside_true
    (fun hd _ hmx => ⟨⟨rfl, rfl, rfl, rfl, fun _ _ hs => hs, fun _ _ hs => hs⟩, hmx⟩)
    steady_syncMutex steady_syncMutex).post fun b σ _ ha => ?_
  cases b <;> exact ha

theorem spec_releaseWrite :
    Spec t (call (.releaseWrite h)) (fun σ => True ∧ On h (fun hd => hd.syncMutex = some t) σ)
      fun _ σ => True ∧ On h (fun hd => hd.syncMutex = some t) σ :=
  spec_update (fun _ _ _ _ => exec_update) aside_true
    (fun _ _ _ hmx => ⟨⟨rfl, rfl, rfl, rfl, fun _ _ hs => hs, fun _ _ hs => hs⟩, hmx⟩)
    steady_syncMutex

theorem spec_evictIdle {after : ℕ} {P : Instance → Prop} :
    Spec t (evictIdle after) P fun _ _ => True := by
  refine Discipline.Triple.bind spec_sampleIdle fun r => ?_
  match r with
  | none => exact fun _ _ _ => trivial
  | some h =>
    refine Discipline.Triple.bind (spec_overBudget.pre fun _ _ ha => ha h rfl) fun b => ?_
    cases b with
    | false => exact fun _ _ _ => trivial
    | true =>
      refine Discipline.Triple.bind spec_tryLockSync fun b => ?_
      cases b with
      | false => exact fun _ _ _ => trivial
      | true =>
        have hunlock : Spec t (call (.unlockSync h))
            (fun σ => True ∧ On h (fun hd => hd.syncMutex = some t) σ) fun _ _ => True :=
          (spec_unlockSync aside_true (fun hd hmx => ⟨hmx, trivial⟩) .const).post
            fun _ _ _ _ => trivial
        refine Discipline.Triple.bind spec_tryWrite fun b => ?_
        cases b with
        | false => exact hunlock
        | true =>
          refine Discipline.Triple.bind ((spec_unregister steady_syncMutex).pre
            fun _ _ ha => ha.2) fun _ => ?_
          refine Discipline.Triple.bind (spec_removePart steady_syncMutex) fun _ => ?_
          refine Discipline.Triple.bind (spec_removeDir steady_syncMutex) fun _ => ?_
          exact Discipline.Triple.bind spec_releaseWrite fun _ => hunlock

theorem spec_job (j : Job) : Spec t j.run (fun σ => σ.held t = []) fun _ _ => True := by
  cases j with
  | publish refs packs => exact spec_publish
  | request level reads => exact spec_request
  | evictIdle after => exact spec_evictIdle

end Jobs

section Examples

def calls (t n : ℕ) : List Step := List.replicate n (.run t ⟨.ok, 0, false⟩)

def branch : RefState
  | .ref name => if name = "refs/heads/main" then some "aaaa" else none
  | .head => some "refs/heads/main"

/-- A push is there and a first request has read it. -/
def firstRequest : List Step :=
  .spawn (.publish branch ["p1"]) :: calls 0 1 ++ .spawn (.request .serve 1) :: calls 1 28

def eviction (t : ℕ) : List Step :=
  .spawn (.evictIdle 5) :: List.replicate 9 (.run t ⟨.ok, 10, true⟩)

/-- A request looks the handle up, and the eviction comes before it syncs: its manifest has not
changed, so the sync leaves the directory missing and the refs read as empty. -/
def evicted : List Step :=
  firstRequest ++ .spawn (.request .refs 1) :: calls 2 1 ++ eviction 3 ++ calls 2 13

/-- No eviction: the packs of a request are there when another instance commits one more and a
request for refs moves the handle on. -/
def overtaken : List Step :=
  .spawn (.publish branch ["p1"]) :: calls 0 1 ++ .spawn (.request .serve 1) :: calls 1 24 ++
    .spawn (.publish branch ["p1", "p2"]) :: calls 2 1 ++ .spawn (.request .refs 0) :: calls 3 12 ++
    calls 1 4

end Examples

end Walgit.Cache
