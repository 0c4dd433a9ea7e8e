import Walgit.ConsumerSpec
import Walgit.Safety

/-!
# The events bridge

A catch-up holds a manifest, reads the cursor, delivers what lies between and
conditions its write of the cursor on the version it read. What it carries from
one call to the next is that the entries up to a seq are handled. The cursor
moves forward when no catch-up reads one that is past the head it holds;
nothing is skipped when no read of the log meets a trimmed manifest and no
catch-up starts cold twice.
-/

namespace Walgit

open Interleaving Replay

variable {L : List Hazard} {Z : List ConsumerHazard} {sinks t h : ℕ} {σ σ' : World}
  {x x' : Consumers} {m : Manifest} {cursor : Option Cursor} {m₀ n : ℕ}

section Assertions

/-- What a catch-up holds once it has read the cursor. -/
structure Holding (Z : List ConsumerHazard) (m : Manifest) (m₀ : ℕ) (cursor : Option Cursor)
    (σ : World × Consumers) : Prop where
  has : Has m σ.1
  first : σ.2.first = some m₀
  read : CursorRead cursor σ
  ahead : ConsumerHazard.staleHead ∈ Z → ∀ cur, cursor = some cur → cur.publishedSeq ≤ m.headSeq

theorem steady_holding : Steady L Z sinks t (Holding Z m m₀ cursor) := by
  refine ⟨fun t' σ σ' x hi hi' hg hn => ?_, fun t' σ x x' ht hi hx hx' hg hn => ?_⟩
  · exact ⟨(Guar.extends hi hi' hg).has hn.has, hn.first, hn.read, hn.ahead⟩
  · have hread : Steady L Z sinks t (CursorRead cursor) := steady_cursorRead
    exact ⟨hn.has, hg.first m₀ hn.first, hread.extra t' σ x x' ht hi hx hx' hg hn.read, hn.ahead⟩

def Covering (Z : List ConsumerHazard) (sinks m₀ n : ℕ) (σ : World × Consumers) : Prop :=
  GapLevel Z → CoveredTo sinks m₀ n σ

theorem steady_covering : Steady L Z sinks t (Covering Z sinks m₀ n) :=
  steady_imp steady_coveredTo

/-- A catch-up about to deliver the entries past `n`. -/
def AtPoint (Z : List ConsumerHazard) (sinks : ℕ) (m : Manifest) (m₀ : ℕ)
    (cursor : Option Cursor) (n : ℕ) (σ : World × Consumers) : Prop :=
  Holding Z m m₀ cursor σ ∧ Covering Z sinks m₀ n σ ∧
    (ConsumerHazard.staleHead ∈ Z → n ≤ m.headSeq)

theorem steady_atPoint : Steady L Z sinks t (AtPoint Z sinks m m₀ cursor n) :=
  steady_holding.and (steady_covering.and .const)

theorem AtPoint.grows (hg : Grows x x') (h : AtPoint Z sinks m m₀ cursor n (σ, x)) :
    AtPoint Z sinks m m₀ cursor n (σ, x') := by
  obtain ⟨⟨hm, hf, hr, ha⟩, hc, hle⟩ := h
  refine ⟨⟨hm, hg.first m₀ hf, fun cur hcur => ?_, ha⟩, fun hZ => ?_, hle⟩
  · obtain ⟨hlt, hsame⟩ := hr cur hcur
    exact ⟨hg.next ▸ hlt, fun cur' hc' => hsame cur' (hg.cursor.symm.trans hc')⟩
  · exact ⟨(hc hZ).1, (hc hZ).2.mono (hg.guar (Z := Z))⟩

theorem Has.minSeq_le (hi : Inv L σ) (hm : Has m σ) : m.minSeq - 1 ≤ m.headSeq := by
  obtain ⟨c, hc, rfl⟩ := hm
  obtain ⟨older, -, hl, -⟩ := hi.linked.split hc
  have hle := hl.checkpointSeq_le
  rw [hl.minSeq]
  unfold Manifest.checkpointSeq at hle
  cases hcp : c.manifest.checkpoint with
  | none => simp
  | some cp =>
    rw [hcp] at hle
    simpa using hle

end Assertions

section Calls

variable {N : World × Consumers → Prop}

theorem spec_grow {o : ConsumerOp} {F : o.Res → World × Consumers → Prop}
    (hN : Steady L Z sinks t N) (hF : ∀ r, Steady L Z sinks t (F r))
    (h : ∀ σ x c r x', Inv L σ → ConsumerInv L Z sinks σ x → N (σ, x) →
      consume c σ x t o = some (r, x') → Grows x x' ∧ x'.answers = x.answers ∧
        (ConsumerHazard.staleHead ∈ Z → ∀ d ∈ x'.lags, d ∈ x.lags ∨ d.2 ≤ d.1) ∧ N (σ, x') ∧
          F r (σ, x')) :
    ConsumerSpec L Z sinks t (consumerCall o) N fun r σ => N σ ∧ F r σ := by
  refine ConsumerSpec.step (fun r => hN.and (hF r)) fun σ x c r x' hi hx hn hok he => ?_
  obtain ⟨hg, hans, hlags, hn', hf⟩ := h σ x c r x' hi hx hn he
  refine ⟨hx.grows hg hlags fun _ _ a ha => .inl (hans ▸ ha), hg.guar, hn', hf⟩

theorem spec_lockSerial : ConsumerSpec L Z sinks t (consumerCall (.lockSerial h))
    (fun _ => True) fun _ _ => True := by
  refine (spec_grow (F := fun _ _ => True) .const (fun _ => .const) ?_).post
    fun _ _ _ _ _ _ => trivial
  intro σ x c r x' _ _ _ he
  change (if x.serial h then none else _) = _ at he
  split at he <;> cases he
  exact ⟨⟨rfl, rfl, fun _ h => h, fun _ h => h, fun _ h => h⟩, rfl, fun _ d hd => .inl hd,
    trivial, trivial⟩

theorem spec_unlockSerial : ConsumerSpec L Z sinks t (consumerCall (.unlockSerial h))
    (fun _ => True) fun _ _ => True := by
  refine (spec_grow (F := fun _ _ => True) .const (fun _ => .const) ?_).post
    fun _ _ _ _ _ _ => trivial
  intro σ x c r x' _ _ _ he
  cases he
  exact ⟨⟨rfl, rfl, fun _ h => h, fun _ h => h, fun _ h => h⟩, rfl, fun _ d hd => .inl hd,
    trivial, trivial⟩

theorem spec_startManifest : ConsumerSpec L Z sinks t (consumerCall (.startManifest h))
    (fun _ => True) fun m σ => ∃ m₀, Has m σ.1 ∧ σ.2.first = some m₀ := by
  refine (ConsumerSpec.step (Q := fun m σ => Has m σ.1 ∧ σ.2.first.isSome) ?_ ?_).post ?_
  · refine fun m => lasting_has.steady.and ⟨fun _ _ _ _ _ _ _ h => h, ?_⟩
    intro t' σ x x' _ _ _ _ hg hs
    obtain ⟨m, hm⟩ := Option.isSome_iff_exists.mp hs
    change x'.first.isSome
    rw [hg.first m hm]
    rfl
  · rintro σ x c m x' hi hx - - he
    obtain ⟨hd, hh, he⟩ := Option.map_eq_some_iff.mp he
    cases he
    have hgrows : Grows x { x with first := x.first.or (some hd.manifest.minSeq) } :=
      ⟨rfl, rfl, fun _ h => h, fun _ h => h, fun m hm => by
        change x.first.or _ = _
        rw [hm]
        rfl⟩
    obtain ⟨a, ha, hman, -⟩ := (hi.handles h hd hh).pair
    refine ⟨hx.grows hgrows (fun _ d hd => .inl hd) (fun _ _ a ha => .inl ha), hgrows.guar,
      ⟨a, ha, hman⟩, ?_⟩
    change (x.first.or _).isSome
    cases x.first <;> rfl
  · rintro m σ x - - ⟨hm, hs⟩
    obtain ⟨m₀, h₀⟩ := Option.isSome_iff_exists.mp hs
    exact ⟨m₀, hm, h₀⟩

theorem spec_getCursor : ConsumerSpec L Z sinks t (consumerCall (.getCursor m))
    (fun σ => Has m σ.1 ∧ σ.2.first = some m₀) fun r σ => ∀ cursor, r = .ok cursor →
      AtPoint Z sinks m m₀ cursor ((cursor.map Cursor.publishedSeq).getD (m.minSeq - 1)) σ := by
  refine ConsumerSpec.step (fun r => steady_forall fun cursor => steady_imp steady_atPoint) ?_
  rintro σ x c r x' hi hx ⟨hm, hf⟩ hok he
  cases he
  refine ⟨hx, .refl, fun cursor hr => ?_⟩
  have hcur : cursor = x.cursor := Choice.get_ok hr
  subst hcur
  have hhead := hm.headSeq_le hi
  have hmin := hm.minSeq_le hi
  have hahead : ConsumerHazard.staleHead ∈ Z → ∀ cur, x.cursor = some cur →
      cur.publishedSeq ≤ m.headSeq := by
    intro hZ cur hc
    by_contra hlt
    exact hok .staleHead hZ ⟨m, rfl, cur, hc, Nat.lt_of_not_le hlt⟩
  refine ⟨⟨hm, hf, fun cur hc => ⟨(hx.cursor cur hc).1, fun cur' hc' _ => ?_⟩, hahead⟩, ?_, ?_⟩
  · exact Option.some.inj (hc'.symm.trans hc)
  · intro hZ
    cases hc : x.cursor with
    | none =>
      refine ⟨hmin.trans hhead, fun e he h₀ hle => ?_⟩
      have hpos := (hi.mem_log he).1
      have hcold : ¬ m₀ < m.minSeq := fun hlt => hok .coldRestart hZ.2 ⟨m, rfl, hc, m₀, hf, hlt⟩
      change e.seq ≤ m.minSeq - 1 at hle
      omega
    | some cur => exact ⟨(hx.cursor cur hc).2, hx.covered hZ cur m₀ hc hf⟩
  · intro hZ
    cases hc : x.cursor with
    | none => exact hmin
    | some cur => exact hahead hZ cur hc

theorem spec_gauge {a b : ℕ} (hle : ConsumerHazard.staleHead ∈ Z → n ≤ m.headSeq → b ≤ a) :
    ConsumerSpec L Z sinks t (consumerCall (.gauge a b)) (AtPoint Z sinks m m₀ cursor n)
      fun _ => AtPoint Z sinks m m₀ cursor n := by
  refine (spec_grow (F := fun _ _ => True) steady_atPoint (fun _ => .const) ?_).post
    fun _ _ _ _ _ h => h.1
  intro σ x c r x' _ _ hn he
  cases he
  have hgrows : Grows x { x with lags := (a, b) :: x.lags } :=
    ⟨rfl, rfl, fun _ h => h, fun _ h => h, fun _ h => h⟩
  refine ⟨hgrows, rfl, fun hZ d hd => ?_, hn.grows hgrows, trivial⟩
  rcases List.mem_cons.mp hd with rfl | hd
  · exact .inr (hle hZ (hn.2.2 hZ))
  · exact .inl hd

theorem spec_reportStart {readable start : ℕ} (hread : readable ≤ m.headSeq) :
    ConsumerSpec L Z sinks t (reportStart readable start) (AtPoint Z sinks m m₀ cursor start)
      fun n => AtPoint Z sinks m m₀ cursor n := by
  unfold reportStart
  split
  · rename_i hlt
    refine ConsumerSpec.bind (spec_gauge fun _ _ => Nat.le_of_lt hlt) fun _ => ?_
    refine ConsumerSpec.bind (R := fun _ => AtPoint Z sinks m m₀ cursor readable) ?_
      fun _ => ConsumerSpec.ret fun _ _ _ _ hx => hx
    refine ConsumerSpec.step (fun _ => steady_atPoint) ?_
    intro σ x c r x' hi hx hn _ he
    cases he
    have hgrows : Grows x { x with gaps := (start + 1, readable) :: x.gaps } :=
      ⟨rfl, rfl, fun _ h => h, fun _ h => List.mem_cons_of_mem _ h, fun _ h => h⟩
    refine ⟨hx.grows hgrows (fun _ d hd => .inl hd) (fun _ _ a ha => .inl ha), hgrows.guar, ?_⟩
    obtain ⟨hold, hcov, -⟩ := hn.grows hgrows
    refine ⟨hold, fun hZ => ⟨hread.trans (hold.has.headSeq_le hi), fun e he h₀ hle v hv => ?_⟩,
      fun _ => hread⟩
    -- what the cursor had not reached is now in the gap
    by_cases hs : e.seq ≤ start
    · exact (hcov hZ).2 e he h₀ hs v hv
    · exact .inr ⟨(start + 1, readable), List.mem_cons_self, by omega, hle⟩
  · exact ConsumerSpec.ret fun _ _ _ _ hx => hx

theorem spec_publishEvents {batch : List RefEvent} {ks : List ℕ} :
    ConsumerSpec L Z sinks t (publishEvents batch ks) (AtPoint Z sinks m m₀ cursor n)
      fun r σ => AtPoint Z sinks m m₀ cursor n σ ∧
        (r = .ok () → ∀ k ∈ ks, DeliveredTo k batch σ) := by
  induction ks with
  | nil => exact ConsumerSpec.ret fun _ _ _ _ hx => ⟨hx, fun _ k hk => by cases hk⟩
  | cons k ks ih =>
    unfold publishEvents
    refine ConsumerSpec.andThen (spec_grow (o := .deliver k batch)
      (F := fun r σ => r = .ok () → DeliveredTo k batch σ) steady_atPoint
      (fun _ => steady_imp steady_deliveredTo) ?_) ?_ fun _ => ?_
    · intro σ x c r x' _ _ hn he
      have he : x.deliver c k batch = (r, x') := Option.some.inj he
      unfold Consumers.deliver at he
      have hgrows : Grows x { x with delivered := batch.map (k, ·) ++ x.delivered } :=
        ⟨rfl, rfl, fun _ h => List.mem_append_right _ h, fun _ h => h, fun _ h => h⟩
      have hall : DeliveredTo k batch
          (σ, { x with delivered := batch.map (k, ·) ++ x.delivered }) :=
        fun v hv => List.mem_append_left _ (List.mem_map_of_mem hv)
      cases hc : c.outcome <;> rw [hc] at he <;> cases he
      · exact ⟨hgrows, rfl, fun _ d hd => .inl hd, hn.grows hgrows, fun _ => hall⟩
      · exact ⟨⟨rfl, rfl, fun _ h => h, fun _ h => h, fun _ h => h⟩, rfl, fun _ d hd => .inl hd,
          hn, nofun⟩
      · exact ⟨hgrows, rfl, fun _ d hd => .inl hd, hn.grows hgrows, nofun⟩
    · exact fun e σ hx => ⟨hx.1, nofun⟩
    · refine ((ConsumerSpec.frame ih (N := DeliveredTo k batch) (fun _ _ _ _ _ _ _ hd => hd)
        fun _ _ _ hg hd v hv => hg.delivered _ (hd v hv)).pre
        fun σ x _ _ hx => ⟨hx.1, hx.2 rfl⟩).post ?_
      rintro r σ x - - ⟨⟨hn, hks⟩, hk⟩
      refine ⟨hn, fun hr k' hk' => ?_⟩
      rcases List.mem_cons.mp hk' with rfl | hk'
      · exact hk
      · exact hks hr k' hk'

theorem covered_delivered {es : List LogEntry} {start head : ℕ}
    (hes : es = between LogEntry.seq σ.log start head) (hcov : Covered sinks σ x m₀ start)
    (hd : ∀ k < sinks, DeliveredTo k (refsFromEntries es) (σ, x)) :
    Covered sinks σ x m₀ head := by
  intro e he h₀ hle
  by_cases hs : e.seq ≤ start
  · exact hcov e he h₀ hs
  · intro v hv
    refine .inl fun k hk => hd k hk v (List.mem_flatMap.mpr ⟨e, ?_, hv⟩)
    rw [hes]
    exact List.mem_filter.mpr ⟨he, decide_eq_true ⟨Nat.lt_of_not_le hs, hle⟩⟩

theorem spec_publishBatch {batch : List RefEvent} :
    ConsumerSpec L Z sinks t (publishBatch sinks batch) (AtPoint Z sinks m m₀ cursor n)
      fun r σ => AtPoint Z sinks m m₀ cursor n σ ∧
        (r = .ok () → ∀ k < sinks, DeliveredTo k batch σ) := by
  unfold publishBatch
  split
  · rename_i hb
    refine ConsumerSpec.ret fun σ x _ _ hx => ⟨hx, fun _ k _ v hv => ?_⟩
    rw [List.isEmpty_iff.mp hb] at hv
    cases hv
  · refine spec_publishEvents.post fun r σ x _ _ hx => ⟨hx.1, fun hr k hk => ?_⟩
    exact hx.2 hr k (List.mem_range.mpr hk)

theorem spec_publishRange :
    ConsumerSpec L Z sinks t (publishRange sinks h n m.headSeq) (AtPoint Z sinks m m₀ cursor n)
      fun r σ => Holding Z m m₀ cursor σ ∧ (r = .ok () → Covering Z sinks m₀ m.headSeq σ) := by
  unfold publishRange
  split
  · rename_i hlt
    refine ConsumerSpec.andThen (spec_readLog (b := m.headSeq) steady_atPoint
      (fun σ hi hx => hx.1.has.headSeq_le hi) nofun) ?_ fun es => ?_
    · exact fun e σ hx => ⟨hx.1.1, nofun⟩
    · refine ((ConsumerSpec.frame spec_publishBatch (N := fun σ => LogRead Z m.headSeq
        ⟨n, some m.headSeq, none⟩ es σ.1)
        (fun t' σ σ' _ hi hi' hg h => lasting_logRead t' σ σ' hi hi' hg h) fun _ _ _ _ h => h).pre
        fun σ x _ _ hx => ⟨hx.1, hx.2 es rfl⟩).post ?_
      rintro r σ x hi - ⟨⟨hx, hd⟩, M, hM, hle, hes⟩
      refine ⟨hx.1, fun hr hZ => ⟨hx.1.has.headSeq_le hi, ?_⟩⟩
      refine @covered_delivered _ _ _ _ es _ _ ?_ (hx.2.1 hZ).2 (hd hr)
      have hlast : LogRange.last ⟨n, some m.headSeq, none⟩ M = m.headSeq := Nat.min_eq_left hle
      rcases hes hZ.1 with hes | ⟨stamp, hst, -⟩
      · rw [hes, hlast]
      · cases hst
  · rename_i hge
    refine ConsumerSpec.ret fun σ x hi _ hx => ⟨hx.1, fun _ hZ => ?_⟩
    obtain ⟨hle, hcov⟩ := hx.2.1 hZ
    exact ⟨hx.1.has.headSeq_le hi, fun e he h₀ hs => hcov e he h₀ (hs.trans (Nat.le_of_not_lt hge))⟩

theorem spec_putCursor : ConsumerSpec L Z sinks t
    (consumerCall (.putCursor m.headSeq (cursor.map Cursor.version)))
    (fun σ => Holding Z m m₀ cursor σ ∧ Covering Z sinks m₀ m.headSeq σ) fun _ _ => True := by
  refine ConsumerSpec.step (fun _ => .const) ?_
  rintro σ x c r x' hi hx ⟨hold, hcov⟩ - he
  have he : x.putCursor c m.headSeq (cursor.map Cursor.version) = (r, x') := Option.some.inj he
  unfold Consumers.putCursor at he
  split at he
  · cases he
    exact ⟨hx, .refl, trivial⟩
  split at he
  · rename_i hver
    have hx' : x' = { x with cursor := some ⟨m.headSeq, x.next⟩, next := x.next + 1 } :=
      (congrArg Prod.snd he).symm
    subst hx'
    refine ⟨⟨fun cur hc => ?_, fun _ _ => ?_, fun hZ cur m₁ hc hf => ?_, hx.lags, hx.answers⟩,
      ⟨Nat.le_succ _, .inr ⟨_, rfl, Nat.le_refl _⟩, fun hZ cur hc => ?_, fun _ h => h,
        fun _ h => h, fun _ h => h⟩, trivial⟩
    · cases hc
      exact ⟨Nat.lt_succ_self _, hold.has.headSeq_le hi⟩
    · exact Option.isSome_iff_exists.mpr ⟨m₀, hold.first⟩
    · cases hc
      obtain rfl : m₀ = m₁ := Option.some.inj (hold.first.symm.trans hf)
      exact (hcov hZ).2
    · refine ⟨_, rfl, ?_⟩
      rw [hc] at hver
      cases hcur : cursor with
      | none =>
        rw [hcur] at hver
        cases hver
      | some seen =>
        rw [hcur] at hver
        obtain ⟨-, hsame⟩ := hold.read seen hcur
        rw [hsame cur hc (Option.some.inj hver)]
        exact hold.ahead hZ seen hcur
  · cases he
    exact ⟨hx, .refl, trivial⟩

theorem spec_storeCursor : ConsumerSpec L Z sinks t (storeCursor m.headSeq cursor)
    (fun σ => Holding Z m m₀ cursor σ ∧ Covering Z sinks m₀ m.headSeq σ) fun _ _ => True := by
  unfold storeCursor
  split
  · exact ConsumerSpec.ret fun _ _ _ _ _ => trivial
  · refine ConsumerSpec.bind spec_putCursor fun r => ?_
    rcases r with (_ | _) | _ <;> exact ConsumerSpec.ret fun _ _ _ _ _ => trivial

theorem spec_catchUpFrom : ConsumerSpec L Z sinks t (catchUpFrom sinks h m)
    (fun σ => ∃ m₀, Has m σ.1 ∧ σ.2.first = some m₀) fun _ _ => True := by
  refine ConsumerSpec.given fun m₀ => ?_
  unfold catchUpFrom
  simp only
  refine ConsumerSpec.andThen ((ConsumerSpec.frame spec_getCursor (N := fun σ => Has m σ.1)
    (fun t' σ σ' _ hi hi' hg hm => lasting_has t' σ σ' hi hi' hg hm) fun _ _ _ _ hm => hm).pre
    fun σ x _ _ hx => ⟨hx, hx.1⟩) (fun _ _ _ => trivial) fun cursor => ?_
  refine ConsumerSpec.pre (P := fun σ => AtPoint Z sinks m m₀ cursor
    ((cursor.map Cursor.publishedSeq).getD (m.minSeq - 1)) σ ∧ m.minSeq - 1 ≤ m.headSeq) ?_
    fun σ x hi _ hx => ⟨hx.1 cursor rfl, hx.2.minSeq_le hi⟩
  refine ConsumerSpec.knowing fun hmin => ?_
  refine ConsumerSpec.bind (spec_reportStart hmin) fun n => ?_
  refine ConsumerSpec.bind (spec_gauge fun _ hle => hle) fun _ => ?_
  exact ConsumerSpec.andThen spec_publishRange (fun _ _ _ => trivial) fun _ =>
    spec_storeCursor.pre fun σ x _ _ hx => ⟨hx.1, hx.2 rfl⟩

end Calls

section Jobs

variable {N : World × Consumers → Prop}

theorem spec_enterConsumer : ConsumerSpec L Z sinks t (Task.lift (call (.enter h)))
    (fun _ => True) fun _ _ => True := by
  refine ((ConsumerSpec.lift (N := fun _ => True) .const
    (spec_updateIf (fun _ => trivial) (h := h) (f := id) (o := .enter h) (R := fun _ => True)
      Lasting.const.calm ?_ fun hd => ⟨⟨rfl, rfl, rfl, rfl⟩, rfl, rfl⟩)).pre ?_).post ?_
  · intro c σ r σ' hex
    obtain ⟨hd, hh, -, rfl⟩ := updateIf_eq hex
    exact ⟨hd, hh, rfl⟩
  · exact fun _ _ _ _ _ => ⟨trivial, trivial⟩
  · exact fun _ _ _ _ _ _ => trivial

theorem spec_catchUp (hp : PairLevel L) : ConsumerSpec L Z sinks t (catchUp sinks h)
    (fun _ => True) fun _ _ => True := by
  unfold catchUp
  refine ConsumerSpec.bind spec_enterConsumer fun _ => ConsumerSpec.bind spec_lockSerial fun _ => ?_
  refine ConsumerSpec.bind (R := fun _ _ => True) ?_ fun _ => spec_unlockSerial
  refine ConsumerSpec.andThen (R := fun _ _ => True) ?_ (fun _ _ _ => trivial) fun _ => ?_
  · exact ((ConsumerSpec.lift (N := fun _ => True) .const (spec_syncRefsPhase hp
      (R := fun _ => True) Lasting.const.calm)).pre fun _ _ _ _ _ => ⟨trivial, trivial⟩).post
        fun _ _ _ _ _ _ => trivial
  · exact ConsumerSpec.bind spec_startManifest fun m => spec_catchUpFrom

end Jobs

end Walgit
