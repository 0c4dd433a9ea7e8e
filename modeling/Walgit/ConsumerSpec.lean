import Mathlib.Data.List.Flatten
import Walgit.Consumers
import Walgit.Manifests

/-!
# Consumers within the discipline

The extended invariant: the stored cursor is at most the committed head and
everything up to it is handled; no subtraction has underflowed; every answer is
a fold. Each part rests on the consumers' races that it names. `read_log` is
specified once: it returns the log between two seqs, unless the manifest it
used has lost a segment of that range.
-/

namespace Walgit

open Interleaving Replay

section Invariant

variable (L : List Hazard) (Z : List ConsumerHazard) (sinks : ℕ)

def GapLevel : Prop := ConsumerHazard.trimmed ∈ Z ∧ ConsumerHazard.coldRestart ∈ Z

/-- Every event of the entry was delivered to every sink, or the entry lies in a reported gap. -/
def Handled (x : Consumers) (e : LogEntry) : Prop :=
  ∀ v ∈ entryEvents e, (∀ k < sinks, (k, v) ∈ x.delivered) ∨
    ∃ g ∈ x.gaps, g.1 ≤ e.seq ∧ e.seq ≤ g.2

def Covered (σ : World) (x : Consumers) (m₀ n : ℕ) : Prop :=
  ∀ e ∈ σ.log, m₀ ≤ e.seq → e.seq ≤ n → Handled sinks x e

/-- The snapshot, loaded into a new repository, is the fold up to the cut; past the head it is the
fold up to a head that was committed while the read went on. -/
def Answer.Exact (σ : World) (a : Answer) : Prop :=
  match a.cut with
  | .time _ => a.seq ≤ σ.head ∧ loadRefSnapshot .init a.snap = foldUpto σ.log a.seq
  | .seq q => ∃ n ≤ q, n ≤ σ.head ∧ (n = q ∨ a.began ≤ n) ∧
      loadRefSnapshot .init a.snap = foldUpto σ.log n

structure ConsumerInv (σ : World) (x : Consumers) : Prop where
  cursor : ∀ cur, x.cursor = some cur → cur.version < x.next ∧ cur.publishedSeq ≤ σ.head
  started : ∀ cur, x.cursor = some cur → x.first.isSome
  covered : GapLevel Z → ∀ cur m₀, x.cursor = some cur → x.first = some m₀ →
    Covered sinks σ x m₀ cur.publishedSeq
  lags : ConsumerHazard.staleHead ∈ Z → ∀ d ∈ x.lags, d.2 ≤ d.1
  answers : ExactLevel L → ConsumerHazard.trimmed ∈ Z → ∀ a ∈ x.answers, a.Exact σ

structure ConsumerGuar (x x' : Consumers) : Prop where
  next : x.next ≤ x'.next
  cursor : x'.cursor = x.cursor ∨ ∃ cur, x'.cursor = some cur ∧ x.next ≤ cur.version
  onward : ConsumerHazard.staleHead ∈ Z → ∀ cur, x.cursor = some cur →
    ∃ cur', x'.cursor = some cur' ∧ cur.publishedSeq ≤ cur'.publishedSeq
  delivered : ∀ d ∈ x.delivered, d ∈ x'.delivered
  gaps : ∀ g ∈ x.gaps, g ∈ x'.gaps
  first : ∀ m, x.first = some m → x'.first = some m

end Invariant

variable {L : List Hazard} {Z : List ConsumerHazard} {sinks t h : ℕ} {σ σ' : World}
  {x x' : Consumers} {m M : Manifest} {r : LogRange}

theorem ConsumerGuar.refl : ConsumerGuar Z x x where
  next := Nat.le_refl _
  cursor := .inl rfl
  onward _ cur h := ⟨cur, h, Nat.le_refl _⟩
  delivered _ h := h
  gaps _ h := h
  first _ h := h

/-- A step that leaves the cursor alone and forgets nothing. -/
structure Grows (x x' : Consumers) : Prop where
  next : x'.next = x.next
  cursor : x'.cursor = x.cursor
  delivered : ∀ d ∈ x.delivered, d ∈ x'.delivered
  gaps : ∀ g ∈ x.gaps, g ∈ x'.gaps
  first : ∀ m, x.first = some m → x'.first = some m

theorem Grows.guar (h : Grows x x') : ConsumerGuar Z x x' where
  next := Nat.le_of_eq h.next.symm
  cursor := .inl h.cursor
  onward _ cur hc := ⟨cur, h.cursor.trans hc, Nat.le_refl _⟩
  delivered := h.delivered
  gaps := h.gaps
  first := h.first

theorem Handled.mono {e : LogEntry} (h : Handled sinks x e)
    (hd : ∀ d ∈ x.delivered, d ∈ x'.delivered) (hg : ∀ g ∈ x.gaps, g ∈ x'.gaps) :
    Handled sinks x' e := by
  intro v hv
  rcases h v hv with hall | ⟨g, hmem, hle⟩
  · exact .inl fun k hk => hd _ (hall k hk)
  · exact .inr ⟨g, hg g hmem, hle⟩

theorem Covered.extends {m₀ n : ℕ} (h : Covered sinks σ x m₀ n) (hn : n ≤ σ.head)
    (he : Extends σ σ') : Covered sinks σ' x m₀ n := by
  intro e hmem h₀ hle
  obtain ⟨new, hlog, hnew⟩ := he.log
  rw [hlog] at hmem
  rcases List.mem_append.mp hmem with hmem | hmem
  · exact h e hmem h₀ hle
  · have := hnew e hmem
    omega

theorem Covered.mono {m₀ n : ℕ} (h : Covered sinks σ x m₀ n) (hg : ConsumerGuar Z x x') :
    Covered sinks σ x' m₀ n :=
  fun e he h₀ hle => (h e he h₀ hle).mono hg.delivered hg.gaps

theorem Answer.Exact.extends {a : Answer} (h : a.Exact σ) (he : Extends σ σ') : a.Exact σ' := by
  unfold Answer.Exact at h ⊢
  cases hc : a.cut with
  | time stamp =>
    rw [hc] at h
    exact ⟨h.1.trans he.head, by rw [he.foldUpto h.1]; exact h.2⟩
  | seq q =>
    rw [hc] at h
    obtain ⟨n, hq, hn, hor, hfold⟩ := h
    exact ⟨n, hq, hn.trans he.head, hor, by rw [he.foldUpto hn]; exact hfold⟩

theorem ConsumerInv.extends (h : ConsumerInv L Z sinks σ x) (he : Extends σ σ') :
    ConsumerInv L Z sinks σ' x where
  cursor cur hc := ⟨(h.cursor cur hc).1, (h.cursor cur hc).2.trans he.head⟩
  started := h.started
  covered hZ cur m₀ hc hf := (h.covered hZ cur m₀ hc hf).extends (h.cursor cur hc).2 he
  lags := h.lags
  answers hX hZ a ha := (h.answers hX hZ a ha).extends he

theorem ConsumerInv.grows (hx : ConsumerInv L Z sinks σ x) (h : Grows x x')
    (hlags : ConsumerHazard.staleHead ∈ Z → ∀ d ∈ x'.lags, d ∈ x.lags ∨ d.2 ≤ d.1)
    (hans : ExactLevel L → ConsumerHazard.trimmed ∈ Z → ∀ a ∈ x'.answers,
      a ∈ x.answers ∨ a.Exact σ) : ConsumerInv L Z sinks σ x' where
  cursor cur hc := by
    rw [h.next]
    exact hx.cursor cur (h.cursor.symm.trans hc)
  started cur hc := by
    obtain ⟨m, hm⟩ := Option.isSome_iff_exists.mp (hx.started cur (h.cursor.symm.trans hc))
    rw [h.first m hm]
    rfl
  covered hZ cur m₀ hc hf := by
    have hc := h.cursor.symm.trans hc
    obtain ⟨m, hm⟩ := Option.isSome_iff_exists.mp (hx.started cur hc)
    obtain rfl : m = m₀ := Option.some.inj ((h.first m hm).symm.trans hf)
    exact (hx.covered hZ cur m hc hm).mono (h.guar (Z := Z))
  lags hZ d hd := (hlags hZ d hd).elim (hx.lags hZ d) id
  answers hX hZ a ha := (hans hX hZ a ha).elim (hx.answers hX hZ a) id

def consumers (L : List Hazard) (Z : List ConsumerHazard) (sinks : ℕ) :
    Extension (discipline L) ConsumerOp.Res Consumers where
  exec t o c σ x := consume c σ x t o
  ok _ o _ σ x := ConsumerAvoids Z o σ x
  inv := ConsumerInv L Z sinks
  guar _ _ x x' := ConsumerGuar Z x x'
  keep _ _ _ _ _ _ _ hi hi' hg _ _ hx := hx.extends (Guar.extends hi hi' hg)

/-- Assertions about both states that neither the other tasks nor the writers' calls break. -/
abbrev Steady (L : List Hazard) (Z : List ConsumerHazard) (sinks t : ℕ)
    (N : World × Consumers → Prop) : Prop :=
  (consumers L Z sinks).Frame t N

abbrev ConsumerSpec (L : List Hazard) (Z : List ConsumerHazard) (sinks t : ℕ) {α : Type}
    (p : ConsumerTask α) (P : World × Consumers → Prop) (Q : α → World × Consumers → Prop) : Prop :=
  (consumers L Z sinks).discipline.Triple t p P Q

section Rules

variable {α β ε : Type} {N : World × Consumers → Prop}

theorem Lasting.steady {R : World → Prop} (h : Lasting L R) :
    Steady L Z sinks t fun σ => R σ.1 :=
  .of_world fun t' σ σ' hi hi' hg hr => h t' σ σ' hi hi' hg hr

/-- Everything from `m₀` up to `n`, which is committed, is handled. -/
def CoveredTo (sinks m₀ n : ℕ) (σ : World × Consumers) : Prop :=
  n ≤ σ.1.head ∧ Covered sinks σ.1 σ.2 m₀ n

theorem steady_coveredTo {m₀ n : ℕ} : Steady L Z sinks t (CoveredTo sinks m₀ n) := by
  refine ⟨fun t' σ σ' x hi hi' hg h => ?_, fun t' σ x x' _ _ _ _ hg h => ?_⟩
  · have he := Guar.extends hi hi' hg
    exact ⟨h.1.trans he.head, h.2.extends h.1 he⟩
  · exact ⟨h.1, h.2.mono hg⟩

/-- The cursor as read: while the object has this version it has this content. -/
def CursorRead (cursor : Option Cursor) (σ : World × Consumers) : Prop :=
  ∀ cur, cursor = some cur → cur.version < σ.2.next ∧
    ∀ cur', σ.2.cursor = some cur' → cur'.version = cur.version → cur' = cur

theorem steady_cursorRead {cursor : Option Cursor} :
    Steady L Z sinks t (CursorRead cursor) := by
  refine ⟨fun t' σ σ' x hi hi' hg h => h, fun t' σ x x' _ _ _ _ hg h cur hc => ?_⟩
  obtain ⟨hlt, hsame⟩ := h cur hc
  refine ⟨hlt.trans_le hg.next, fun cur' hc' hv => ?_⟩
  rcases hg.cursor with he | ⟨new, hnew, hle⟩
  · exact hsame cur' (he ▸ hc') hv
  · rw [hnew] at hc'
    cases hc'
    have : x.next ≤ cur.version := hv ▸ hle
    exact absurd hlt (Nat.not_lt.mpr this)

def DeliveredTo (sink : ℕ) (batch : List RefEvent) (σ : World × Consumers) : Prop :=
  ∀ v ∈ batch, (sink, v) ∈ σ.2.delivered

theorem steady_deliveredTo {sink : ℕ} {batch : List RefEvent} :
    Steady L Z sinks t (DeliveredTo sink batch) :=
  ⟨fun _ _ _ _ _ _ _ h => h, fun _ _ _ _ _ _ _ _ hg h v hv => hg.delivered _ (h v hv)⟩

theorem steady_forall {ι : Sort*} {F : ι → World × Consumers → Prop}
    (h : ∀ i, Steady L Z sinks t (F i)) : Steady L Z sinks t fun σ => ∀ i, F i σ :=
  ⟨fun t' σ σ' x hi hi' hg hf i => (h i).world t' σ σ' x hi hi' hg (hf i),
    fun t' σ x x' ht hi hx hx' hg hf i => (h i).extra t' σ x x' ht hi hx hx' hg (hf i)⟩

theorem steady_imp {p : Prop} {F : World × Consumers → Prop} (h : Steady L Z sinks t F) :
    Steady L Z sinks t fun σ => p → F σ :=
  steady_forall fun _ => h

namespace ConsumerSpec

theorem ret {a : α} {P : World × Consumers → Prop} {Q : α → World × Consumers → Prop}
    (h : ∀ σ x, Inv L σ → ConsumerInv L Z sinks σ x → P (σ, x) → Q a (σ, x)) :
    ConsumerSpec L Z sinks t (pure a) P Q :=
  Discipline.Triple.ret fun σ hi hp => h σ.1 σ.2 hi.1 hi.2 hp

theorem bind {p : ConsumerTask α} {f : α → ConsumerTask β} {P : World × Consumers → Prop}
    {R : α → World × Consumers → Prop} {Q : β → World × Consumers → Prop}
    (hp : ConsumerSpec L Z sinks t p P R) (hf : ∀ a, ConsumerSpec L Z sinks t (f a) (R a) Q) :
    ConsumerSpec L Z sinks t (p >>= f) P Q :=
  Discipline.Triple.bind hp hf

theorem andThen {p : ConsumerTask (Except ε α)} {f : α → ConsumerTask (Except ε β)}
    {P : World × Consumers → Prop} {R : Except ε α → World × Consumers → Prop}
    {Q : Except ε β → World × Consumers → Prop} (hp : ConsumerSpec L Z sinks t p P R)
    (herr : ∀ e σ, R (.error e) σ → Q (.error e) σ)
    (hf : ∀ a, ConsumerSpec L Z sinks t (f a) (R (.ok a)) Q) :
    ConsumerSpec L Z sinks t (ConsumerTask.andThen p f) P Q := by
  refine bind hp fun r => ?_
  cases r with
  | ok a => exact hf a
  | error e => exact ret fun σ x _ _ hr => herr e (σ, x) hr

theorem pre {p : ConsumerTask α} {P P' : World × Consumers → Prop}
    {Q : α → World × Consumers → Prop} (h : ConsumerSpec L Z sinks t p P Q)
    (hP : ∀ σ x, Inv L σ → ConsumerInv L Z sinks σ x → P' (σ, x) → P (σ, x)) :
    ConsumerSpec L Z sinks t p P' Q :=
  Discipline.Triple.pre h fun σ hi hp => hP σ.1 σ.2 hi.1 hi.2 hp

theorem post {p : ConsumerTask α} {P : World × Consumers → Prop}
    {Q Q' : α → World × Consumers → Prop} (h : ConsumerSpec L Z sinks t p P Q)
    (hQ : ∀ a σ x, Inv L σ → ConsumerInv L Z sinks σ x → Q a (σ, x) → Q' a (σ, x)) :
    ConsumerSpec L Z sinks t p P Q' :=
  Discipline.Triple.post h fun a σ hi hq => hQ a σ.1 σ.2 hi.1 hi.2 hq

theorem given {p : ConsumerTask α} {P : β → World × Consumers → Prop}
    {Q : α → World × Consumers → Prop} (h : ∀ b, ConsumerSpec L Z sinks t p (P b) Q) :
    ConsumerSpec L Z sinks t p (fun σ => ∃ b, P b σ) Q :=
  Discipline.Triple.given h

theorem knowing {p : ConsumerTask α} {a : Prop} {P : World × Consumers → Prop}
    {Q : α → World × Consumers → Prop} (h : a → ConsumerSpec L Z sinks t p P Q) :
    ConsumerSpec L Z sinks t p (fun σ => P σ ∧ a) Q :=
  (given fun b : PLift a => h b.down).pre fun _ _ _ _ hx => ⟨⟨hx.2⟩, hx.1⟩

theorem frame {p : ConsumerTask α} {P : World × Consumers → Prop}
    {Q : α → World × Consumers → Prop} (h : ConsumerSpec L Z sinks t p P Q)
    (hworld : ∀ t' σ σ' x, Inv L σ → Inv L σ' → Guar L t' σ σ' → N (σ, x) → N (σ', x))
    (hextra : ∀ σ x x', ConsumerGuar Z x x' → N (σ, x) → N (σ, x')) :
    ConsumerSpec L Z sinks t p (fun σ => P σ ∧ N σ) fun a σ => Q a σ ∧ N σ := by
  refine Discipline.Triple.frame ?_ h
  rintro t' ⟨σ, x⟩ ⟨σ', x'⟩ hi hi' (⟨hg, he⟩ | ⟨he, hg⟩) hn
  · obtain rfl : x' = x := he
    exact hworld t' σ σ' x' hi.1 hi'.1 hg hn
  · obtain rfl : σ' = σ := he
    exact hextra σ' x x' hg hn

theorem lift {p : Task α} {P : World → Prop} {Q : α → World → Prop}
    (hN : Steady L Z sinks t N) (h : Spec L t p P Q) :
    ConsumerSpec L Z sinks t (Task.lift p) (fun σ => P σ.1 ∧ N σ) fun a σ => Q a σ.1 ∧ N σ :=
  Extension.lift_triple hN h

theorem step {o : ConsumerOp} {P : World × Consumers → Prop}
    {Q : o.Res → World × Consumers → Prop} (hQ : ∀ r, Steady L Z sinks t (Q r))
    (h : ∀ σ x c r x', Inv L σ → ConsumerInv L Z sinks σ x → P (σ, x) → ConsumerAvoids Z o σ x →
      consume c σ x t o = some (r, x') →
      ConsumerInv L Z sinks σ x' ∧ ConsumerGuar Z x x' ∧ Q r (σ, x')) :
    ConsumerSpec L Z sinks t (consumerCall o) P Q :=
  Extension.extra_triple (fun r => (hQ r).stable) h

theorem look {o : ConsumerOp} {F : o.Res → World × Consumers → Prop}
    (hN : Steady L Z sinks t N) (hF : ∀ r, Steady L Z sinks t (F r))
    (hread : ∀ c σ x r x', consume c σ x t o = some (r, x') → x' = x)
    (h : ∀ σ x c r, Inv L σ → ConsumerInv L Z sinks σ x → N (σ, x) → ConsumerAvoids Z o σ x →
      consume c σ x t o = some (r, x) → F r (σ, x)) :
    ConsumerSpec L Z sinks t (consumerCall o) N fun r σ => N σ ∧ F r σ := by
  refine step (fun r => hN.and (hF r)) fun σ x c r x' hi hx hn hok he => ?_
  obtain rfl := hread c σ x r x' he
  exact ⟨hx, .refl, hn, h σ x' c r hi hx hn hok he⟩

end ConsumerSpec

end Rules

section ReadLog

theorem Guar.slotsOf {slot : Slot} (hg : Guar L t σ σ') (hs : slot ∈ slotsOf σ'.commits) :
    slot ∈ slotsOf σ.commits ∨ σ.head < slot.seq := by
  obtain ⟨c, hc, hcs⟩ := mem_slotsOf.mp hs
  rcases hg.commits with he | ⟨c', he, -, hslot⟩
  · exact .inl (mem_slotsOf.mpr ⟨c, he ▸ hc, hcs⟩)
  · rw [he] at hc
    obtain rfl | hc := List.mem_cons.mp hc
    · exact .inr (hslot slot hcs).1
    · exact .inl (mem_slotsOf.mpr ⟨c, hc, hcs⟩)

theorem Extends.slotsOf {slot : Slot} (he : Extends σ σ') (hs : slot ∈ slotsOf σ.commits) :
    slot ∈ slotsOf σ'.commits := by
  obtain ⟨c, hc, hcs⟩ := mem_slotsOf.mp hs
  exact mem_slotsOf.mpr ⟨c, he.mem c hc, hcs⟩

theorem Extends.between_eq {q p : ℕ} (he : Extends σ σ') (hp : p ≤ σ.head) :
    between LogEntry.seq σ'.log q p = between LogEntry.seq σ.log q p := by
  obtain ⟨new, hlog, hnew⟩ := he.log
  have hnil : between LogEntry.seq new q p = [] := by
    refine List.filter_eq_nil_iff.mpr fun e h => ?_
    have := hnew e h
    simp only [decide_eq_true_eq]
    omega
  rw [hlog, Replay.between, List.filter_append]
  change Replay.between LogEntry.seq σ.log q p ++ Replay.between LogEntry.seq new q p = _
  rw [hnil, List.append_nil]

theorem Has.listed_le (hi : Inv L σ) (hM : Has M σ) {slot : Slot}
    (hs : slot.ref ∈ M.logSegments) : slot.last ≤ M.headSeq ∧ slot.seq ≤ M.headSeq := by
  obtain ⟨c, hc, rfl⟩ := hM
  obtain ⟨older, -, hl, -⟩ := hi.linked.split hc
  have hr := hl.ranges hs
  exact ⟨hr.2.2, hr.2.1.trans hr.2.2⟩

theorem last_le : r.last M ≤ M.headSeq := Nat.min_le_right _ _

theorem lasting_notMisses : Lasting L fun σ => Has M σ ∧ ¬ Misses σ M r := by
  rintro t' σ σ' hi hi' hg ⟨hM, hno⟩
  have he := Guar.extends hi hi' hg
  have hhead := hM.headSeq_le hi
  have hold : ∀ slot ∈ slotsOf σ'.commits, slot.seq ≤ M.headSeq → slot ∈ slotsOf σ.commits := by
    intro slot hs hle
    rcases hg.slotsOf hs with h | h
    · exact h
    · omega
  refine ⟨he.has hM, ?_⟩
  rintro ⟨⟨slot, hs, ha, hlast, hn⟩, hfirst⟩
  refine hno ⟨⟨slot, hold slot hs (hlast.trans last_le), ha, hlast, hn⟩, fun stamp hst => ?_⟩
  obtain ⟨e, ⟨⟨own, hown, hin, hmem⟩, haft, hmin⟩, hle⟩ := hfirst stamp hst
  refine ⟨e, ⟨⟨own, hold own hown (hM.listed_le hi hin).2, hin, hmem⟩, haft, ?_⟩, hle⟩
  exact fun slot' hs' => hmin slot' (he.slotsOf hs')

section Listed

variable {a : Commit} {cs : List Commit} {E : ℕ → List LogEntry} {after last : ℕ}

def listedEntries (m : Manifest) (E : ℕ → List LogEntry) (after last : ℕ) : List LogEntry :=
  (((m.logSegments.filter fun s => decide (after + 1 ≤ s.lastSeq ∧ s.firstSeq ≤ last)).map
    LogSegmentRef.key).flatMap E).filter fun e => decide (after + 1 ≤ e.seq ∧ e.seq ≤ last)

theorem Linked.listed_slots (h : Linked cs) (ha : a ∈ cs) :
    ∃ slots : List Slot, slots.Sublist (slotsOf cs) ∧
      a.manifest.logSegments = slots.map Slot.ref := by
  obtain ⟨older, hsuf, hl, -⟩ := h.split ha
  obtain ⟨slots, hsub, heq⟩ := List.sublist_map_iff.mp hl.segments
  refine ⟨slots, hsub.trans ?_, heq⟩
  obtain ⟨newer, rfl⟩ := hsuf
  clear hl heq hsub ha h
  induction newer with
  | nil => exact List.Sublist.refl _
  | cons c newer ih => exact ih.trans (List.sublist_append_left _ _)

theorem Linked.listedEntries_eq (h : Linked cs) (hE : ∀ s ∈ slotsOf cs, E s.seq = s.entries)
    {slots : List Slot} (hsub : slots.Sublist (slotsOf cs))
    (heq : a.manifest.logSegments = slots.map Slot.ref) :
    listedEntries a.manifest E after last =
      (slots.flatMap Slot.entries).filter fun e => decide (after + 1 ≤ e.seq ∧ e.seq ≤ last) := by
  unfold listedEntries
  have hentries : ∀ p : Slot → Bool, (((slots.filter p).map Slot.ref).map
      LogSegmentRef.key).flatMap E = (slots.filter p).flatMap Slot.entries := by
    intro p
    rw [List.map_map, List.flatMap_map]
    exact List.flatMap_congr fun s hs => hE s (hsub.subset (List.mem_filter.mp hs).1)
  rw [heq, List.filter_map, hentries]
  refine filter_flatMap_filter fun s hs hp e he => ?_
  have hmem := (h.slotsOf_dense (hsub.subset hs)).mem he
  have hp : ¬ (after + 1 ≤ s.last ∧ s.seq ≤ last) := of_decide_eq_false hp
  exact decide_eq_false fun hq => hp (by omega)

theorem Linked.listedEntries_sublist (h : Linked cs) (ha : a ∈ cs)
    (hE : ∀ s ∈ slotsOf cs, E s.seq = s.entries) :
    (listedEntries a.manifest E after last).Sublist
      (between LogEntry.seq (logOf cs) after last) := by
  obtain ⟨slots, hsub, heq⟩ := h.listed_slots ha
  rw [h.listedEntries_eq hE hsub heq, between, logOf_eq_flatMap]
  exact (hsub.flatMap _).filter _

theorem eq_of_sublist {α : Type} {l l' : List α} (hsub : l.Sublist l') (hnd : l'.Nodup)
    (hmem : ∀ x ∈ l', x ∈ l) : l = l' :=
  hsub.eq_of_length_le (List.subperm_of_subset hnd hmem).length_le

theorem nodup_of_seqs {l : List LogEntry} (h : l.Pairwise fun a b => a.seq < b.seq) : l.Nodup :=
  h.imp fun {a b} hlt he => by
    rw [he] at hlt
    exact Nat.lt_irrefl _ hlt

theorem Linked.listedEntries_all (h : Linked cs) (ha : a ∈ cs)
    (hE : ∀ s ∈ slotsOf cs, E s.seq = s.entries)
    (hall : ∀ s ∈ slotsOf cs, after < s.last → s.seq ≤ last → s.ref ∈ a.manifest.logSegments) :
    listedEntries a.manifest E after last = between LogEntry.seq (logOf cs) after last := by
  refine eq_of_sublist (h.listedEntries_sublist ha hE)
    (nodup_of_seqs (h.log_pairwise.filter _)) fun e he => ?_
  obtain ⟨hlog, hq⟩ := List.mem_filter.mp he
  have hq : after < e.seq ∧ e.seq ≤ last := of_decide_eq_true hq
  rw [logOf_eq_flatMap] at hlog
  obtain ⟨s, hs, hes⟩ := List.mem_flatMap.mp hlog
  have hmem := (h.slotsOf_dense hs).mem hes
  have hseg : s.ref ∈ a.manifest.logSegments := hall s hs (by omega) (by omega)
  refine List.mem_filter.mpr ⟨List.mem_flatMap.mpr ⟨s.seq, ?_, ?_⟩, decide_eq_true hq⟩
  · refine List.mem_map.mpr ⟨s.ref, List.mem_filter.mpr ⟨hseg, decide_eq_true ?_⟩, rfl⟩
    change after + 1 ≤ s.last ∧ s.seq ≤ last
    omega
  · rw [hE s hs]
    exact hes

theorem Inv.firstListed (hi : Inv L σ) (ha : a ∈ σ.commits)
    (hE : ∀ s ∈ slotsOf σ.commits, E s.seq = s.entries) (hlast : last = a.manifest.headSeq)
    {e : LogEntry} (he : (listedEntries a.manifest E after last).head? = some e) :
    FirstListed σ a.manifest after e := by
  have hM : Has a.manifest σ := ⟨a, ha, rfl⟩
  have hsorted := (hi.linked.log_pairwise.filter fun e => decide (after < e.seq ∧ e.seq ≤ last))
    |>.sublist (hi.linked.listedEntries_sublist ha hE)
  have hin : ∀ x, x ∈ listedEntries a.manifest E after last ↔
      (∃ s ∈ slotsOf σ.commits, s.ref ∈ a.manifest.logSegments ∧ x ∈ s.entries) ∧
        after < x.seq := by
    intro x
    obtain ⟨slots, hsub, heq⟩ := hi.linked.listed_slots ha
    rw [hi.linked.listedEntries_eq hE hsub heq, List.mem_filter, List.mem_flatMap,
      decide_eq_true_iff, heq]
    constructor
    · rintro ⟨⟨s, hs, hx⟩, hq⟩
      exact ⟨⟨s, hsub.subset hs, List.mem_map_of_mem hs, hx⟩, hq.1⟩
    · rintro ⟨⟨s, hs, href, hx⟩, hq⟩
      obtain ⟨s', hs', hss⟩ := List.mem_map.mp href
      obtain rfl : s' = s := by
        obtain ⟨c, hc, hcs⟩ := mem_slotsOf.mp (hsub.subset hs')
        obtain ⟨c', hc', hcs'⟩ := mem_slotsOf.mp hs
        have := hi.linked.slot_unique hc hc' hcs hcs' (congrArg LogSegmentRef.key hss)
        subst this
        exact Option.some.inj (hcs.symm.trans hcs')
      have hlisted : s'.ref ∈ a.manifest.logSegments := heq ▸ List.mem_map_of_mem hs'
      have hle := (hM.listed_le hi hlisted).1
      have hmem := (hi.linked.slotsOf_dense hs).mem hx
      exact ⟨⟨s', hs', hx⟩, hq, by omega⟩
  obtain ⟨rest, hlist⟩ : ∃ rest, listedEntries a.manifest E after last = e :: rest := by
    cases hl : listedEntries a.manifest E after last with
    | nil =>
      rw [hl] at he
      cases he
    | cons x rest =>
      rw [hl] at he
      cases he
      exact ⟨rest, rfl⟩
  have hmem := (hin e).mp (hlist ▸ List.mem_cons_self)
  refine ⟨hmem.1, hmem.2, fun s hs href e' he' haft => ?_⟩
  have hmem' := (hin e').mpr ⟨⟨s, hs, href, he'⟩, haft⟩
  rw [hlist] at hmem' hsorted
  obtain rfl | hrest := List.mem_cons.mp hmem'
  · exact Nat.le_refl _
  · exact Nat.le_of_lt ((List.pairwise_cons.mp hsorted).1 e' hrest)

end Listed

/-- What `read_log` returned: the log between two seqs, from a manifest at `b` or past it; a read
up to a time may instead have found nothing to use. -/
def LogRead (Z : List ConsumerHazard) (b : ℕ) (r : LogRange) (es : List LogEntry) (σ : World) :
    Prop :=
  ∃ M, Has M σ ∧ b ≤ M.headSeq ∧ (ConsumerHazard.trimmed ∈ Z →
    es = between LogEntry.seq σ.log r.after (r.last M) ∨
      ∃ stamp, r.stamp = some stamp ∧ ∀ e, es.head? = some e → stamp < e.createdAt)

theorem lasting_logRead {b : ℕ} {es : List LogEntry} : Lasting L (LogRead Z b r es) := by
  refine .of_extends fun σ σ' hi _ he ⟨M, hM, hb, hes⟩ => ⟨M, he.has hM, hb, fun hZ => ?_⟩
  rw [he.between_eq (last_le.trans (hM.headSeq_le hi))]
  exact hes hZ

variable {N : World × Consumers → Prop} {b : ℕ}

def ReadFrom (Z : List ConsumerHazard) (b : ℕ) (r : LogRange) (M : Manifest) (σ : World) : Prop :=
  b ≤ M.headSeq ∧ Has M σ ∧ (ConsumerHazard.trimmed ∈ Z → ¬ Misses σ M r)

theorem lasting_readFrom : Lasting L (ReadFrom Z b r M) := by
  rintro t' σ σ' hi hi' hg ⟨hb, hM, hno⟩
  refine ⟨hb, (Guar.extends hi hi' hg).has hM, fun hZ => ?_⟩
  exact (lasting_notMisses t' σ σ' hi hi' hg ⟨hM, hno hZ⟩).2

theorem ReadFrom.logRead {es : List LogEntry} (hi : Inv L σ) (h : ReadFrom Z b r M σ)
    (hf : Fetched ((M.logSegments.filter fun s => r.after + 1 ≤ s.lastSeq ∧
      s.firstSeq ≤ r.last M).map LogSegmentRef.key) es σ) (hst : r.stamp.isSome → r.upto = none) :
    LogRead Z b r (sortEntries (es.filter fun e => r.after + 1 ≤ e.seq ∧ e.seq ≤ r.last M)) σ := by
  obtain ⟨hb, hM, hno⟩ := h
  obtain ⟨a, ha, rfl⟩ := hM
  have hE : ∀ s ∈ slotsOf σ.commits, σ.entriesAt s.seq = s.entries :=
    fun s hs => hi.entriesAt (mem_slotsOf.mp hs)
  have hes : (es.filter fun e => r.after + 1 ≤ e.seq ∧ e.seq ≤ r.last a.manifest) =
      listedEntries a.manifest σ.entriesAt r.after (r.last a.manifest) := by
    rw [hf _ fun s hs => hi.entriesAt hs]
    rfl
  have hsorted := (hi.linked.log_pairwise.filter fun e =>
    decide (r.after < e.seq ∧ e.seq ≤ r.last a.manifest)).sublist
      (hi.linked.listedEntries_sublist ha hE)
  refine ⟨a.manifest, ⟨a, ha, rfl⟩, hb, fun hZ => ?_⟩
  rw [hes, sortEntries_of_sorted hsorted]
  by_cases hall : ∀ s ∈ slotsOf σ.commits, r.after < s.last → s.seq ≤ r.last a.manifest →
      s.ref ∈ a.manifest.logSegments
  · exact .inl (hi.linked.listedEntries_all ha hE hall)
  · -- something is missing, so the read is one up to a time that nothing listed has reached
    right
    push Not at hall
    obtain ⟨s, hs, haft, hle, hn⟩ := hall
    by_contra hnot
    push Not at hnot
    refine hno hZ ⟨⟨s, hs, haft, hle, hn⟩, fun stamp hstamp => ?_⟩
    obtain ⟨e, he, hcr⟩ := hnot stamp hstamp
    refine ⟨e, hi.firstListed ha hE ?_ he, hcr⟩
    unfold LogRange.last
    rw [hst (by rw [hstamp]; rfl), Option.getD_none, Nat.min_self]

theorem spec_readSegments (hN : Steady L Z sinks t N) (hst : r.stamp.isSome → r.upto = none)
    (hM : ∀ σ, N σ → ReadFrom Z b r M σ.1) :
    ConsumerSpec L Z sinks t (readSegments M r) N
      fun res σ => N σ ∧ ∀ es, res = .ok es → LogRead Z b r es σ.1 := by
  unfold readSegments
  simp only
  split
  · rename_i hlt
    refine ConsumerSpec.ret fun σ x hi _ hn => ⟨hn, fun es hes => ?_⟩
    cases hes
    obtain ⟨hb, hHas, -⟩ := hM _ hn
    refine ⟨M, hHas, hb, fun _ => .inl (List.filter_eq_nil_iff.mpr fun e _ => ?_).symm⟩
    simp only [decide_eq_true_eq]
    omega
  · refine ConsumerSpec.andThen ((ConsumerSpec.lift hN (spec_fetchSegments
      (P := fun _ => True) Discipline.Stable.const)).pre ?_) ?_ fun fetched => ?_
    · exact fun σ x hi _ hn => ⟨⟨trivial, allCommitted_of_listed hi (hM _ hn).2.1⟩, hn⟩
    · exact fun e σ hx => ⟨hx.2, fun es he => by cases he⟩
    · refine ConsumerSpec.ret fun σ x hi _ hx => ⟨hx.2, fun es he => ?_⟩
      cases he
      exact (hM _ hx.2).logRead hi (hx.1.2 fetched rfl) hst

/-- The handle has come to a manifest at `b` or past it. -/
def Reaches (h b : ℕ) (σ : World) : Prop :=
  ∃ m, b ≤ m.headSeq ∧ Has m σ ∧ AtLeast h m.revision σ

theorem lasting_reaches : Lasting L (Reaches h b) := by
  rintro t' σ σ' hi hi' hg ⟨m, hb, hm, hat⟩
  exact ⟨m, hb, lasting_has t' σ σ' hi hi' hg hm, lasting_atLeast t' σ σ' hi hi' hg hat⟩

/-- The version as read, with the manifest the handle had then. -/
def KnownFor (h : ℕ) (known : Option ℕ) (σ : World) : Prop :=
  ∃ m, PairOf m known σ ∧ AtLeast h m.revision σ

theorem lasting_knownFor {known : Option ℕ} : Lasting L (KnownFor h known) := by
  rintro t' σ σ' hi hi' hg ⟨m, hm, hat⟩
  exact ⟨m, lasting_pairOf t' σ σ' hi hi' hg hm, lasting_atLeast t' σ σ' hi hi' hg hat⟩

theorem Reaches.headSeq {hd : Handle} (hi : Inv L σ) (hr : Reaches h b σ)
    (hh : σ.handles h = some hd) : b ≤ hd.manifest.headSeq := by
  obtain ⟨m, hb, ⟨c, hc, rfl⟩, hd', hh', hrev⟩ := hr
  rw [hh] at hh'
  cases hh'
  obtain ⟨a, ha, hman, -⟩ := (hi.handles h hd hh).pair
  rw [← hman] at hrev ⊢
  exact hb.trans (hi.linked.headSeq_le hc ha hrev)

/-- The reply to the conditional GET of the manifest. -/
def Asked (Z : List ConsumerHazard) (h b : ℕ) (r : LogRange) :
    Except WalError (Option (Manifest × ℕ)) → World → Prop
  | .ok (some p) => ReadFrom Z b r p.1
  | .ok none => Reaches h b
  | .error _ => fun _ => True

theorem lasting_asked {res : Except WalError (Option (Manifest × ℕ))} :
    Lasting L (Asked Z h b r res) := by
  rcases res with e | _ | p
  · exact Lasting.const
  · exact lasting_reaches
  · exact lasting_readFrom

theorem spec_readLog (hN : Steady L Z sinks t N) (hb : ∀ σ, Inv L σ.1 → N σ → b ≤ σ.1.head)
    (hst : r.stamp.isSome → r.upto = none) :
    ConsumerSpec L Z sinks t (readLog h r) N
      fun res σ => N σ ∧ ∀ es, res = .ok es → LogRead Z b r es σ.1 := by
  unfold readLog
  refine ConsumerSpec.bind (R := fun known σ => N σ ∧ KnownFor h known σ.1) ?_ fun known => ?_
  · refine ((ConsumerSpec.lift hN (Spec.read (o := .version h) (P := fun _ => True)
      (F := fun known => KnownFor h known) rfl Discipline.Stable.const
      (fun _ => lasting_knownFor) ?_)).pre ?_).post ?_
    · intro σ c known hi _ _ hex
      obtain ⟨-, hd, hh, rfl⟩ := read_eq hex
      exact ⟨hd.manifest, (hi.handles h hd hh).pair, hd, hh, Nat.le_refl _⟩
    · exact fun σ x _ _ hn => ⟨trivial, hn⟩
    · exact fun known σ x _ _ hx => ⟨hx.2, hx.1.2⟩
  have hNk : Steady L Z sinks t fun σ => N σ ∧ KnownFor h known σ.1 :=
    hN.and lasting_knownFor.steady
  refine ConsumerSpec.andThen (ConsumerSpec.look (o := .logManifest known r)
    (F := fun res σ => Asked Z h b r res σ.1) hNk (fun _ => lasting_asked.steady) ?_ ?_) ?_
    fun o => ?_
  · intro c σ x res x' he
    cases he
    rfl
  · rintro σ x c res hi hx ⟨hn, m, hm, hat⟩ hok he
    have hres : c.get (if known = some σ.current.version then none
      else some (σ.current.manifest, σ.current.version)) = res :=
      congrArg Prod.fst (Option.some.inj he)
    rcases res with e | o
    · trivial
    · have ho := Choice.get_ok hres
      subst ho
      split
      · rename_i hk
        subst hk
        have hcur := PairOf.current hi hm rfl
        refine ⟨m, ?_, hm.has, hat⟩
        rw [hcur]
        exact hb _ hi hn
      · rename_i hk
        refine ⟨hb _ hi hn, ⟨σ.current, hi.current_mem, rfl⟩, fun hZ hmiss => ?_⟩
        exact hok .trimmed hZ (.inl ⟨known, r, rfl, hk, hmiss⟩)
  · exact fun e σ hx => ⟨hx.1.1, fun es he => by cases he⟩
  rcases o with _ | ⟨m, v⟩
  · have hNr : Steady L Z sinks t fun σ => N σ ∧ Reaches h b σ.1 := hN.and lasting_reaches.steady
    refine ConsumerSpec.bind (ConsumerSpec.look (o := .heldManifest h r)
      (F := fun M σ => ReadFrom Z b r M σ.1) hNr
      (fun _ => lasting_readFrom.steady) ?_ ?_ |>.pre ?_) fun M => ?_
    · intro c σ x res x' he
      obtain ⟨hd, -, he⟩ := Option.map_eq_some_iff.mp he
      cases he
      rfl
    · rintro σ x c M hi hx ⟨hn, hr⟩ hok he
      obtain ⟨hd, hh, he⟩ := Option.map_eq_some_iff.mp he
      cases he
      obtain ⟨a, ha, hman, -⟩ := (hi.handles h hd hh).pair
      refine ⟨hr.headSeq hi hh, ⟨a, ha, hman⟩, fun hZ hmiss => ?_⟩
      exact hok .trimmed hZ (.inr ⟨h, r, rfl, hd, hh, hmiss⟩)
    · exact fun σ x _ _ hx => ⟨hx.1.1, hx.2⟩
    · refine (spec_readSegments (b := b) (hNr.and lasting_readFrom.steady) hst
        fun σ hx => hx.2).post ?_
      exact fun res σ x _ _ hx => ⟨hx.1.1.1, hx.2⟩
  · refine (spec_readSegments (b := b) (hNk.and lasting_readFrom.steady) hst
      fun σ hx => hx.2).post ?_
    exact fun res σ x _ _ hx => ⟨hx.1.1.1, hx.2⟩

end ReadLog

end Walgit
