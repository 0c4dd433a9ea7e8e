import Walgit.RemoteFind

/-!
# Chains of deltas

What a walk along a chain ends with, whatever is in the caches. A walk that
meets the object of an entry in the cache goes on from there, so the cache has
to hold what the entries stand for, and what a walk puts into it does.
-/

namespace Walgit.Remote

open Objects (Kind)
open Tiling (slice)

variable {O : Type} {P : RemotePacks O} {spec : P.zlib.Spec} {objects : O → Obj} {m : Met}
  {A : Prop} {pos next : ℕ × ℕ} {p : Pack O} {e e' : PackEntry O} {data data' delta out : Bytes}
  {o o' base : Obj} {off pi n n' left i : ℕ}

section Unique

/-- The blocks of a store that answers, with nothing cached. -/
def answering (content : Bytes) : Blocks :=
  ⟨fun _ => none, fun start stop => some (slice content (start, stop))⟩

theorem readsOf_answering (content : Bytes) :
    ReadsOf (fun _ => answering content) content True where
  sound _ := ⟨nofun, fun _ _ _ h => Option.some.inj h ▸ List.prefix_rfl⟩
  answers _ _ _ _ _ _ := rfl

/-- An entry has one reading, since zlib gives its data. -/
theorem EntryAt.unique (hfits : p.content.length ≤ isizeMax) (he : EntryAt P spec p off e data)
    (he' : EntryAt P spec p off e' data') : e = e' ∧ data = data' := by
  obtain rfl : e = e' := Option.some.inj (he.parsed.symm.trans he'.parsed)
  have hreads := readsOf_answering p.content
  obtain ⟨d, hd, rfl⟩ := (inflateWithHead_ends he hreads hfits).exists_ok fun _ h => h.2 trivial
  exact ⟨rfl, (inflateWithHead_ends he' hreads hfits).of_ok hd⟩

theorem Resolves.fits (h : Resolves P spec pos n o) : o.data.length ≤ isizeMax := by
  cases h with
  | base _ he _ => exact he.fits
  | delta _ _ _ _ _ hdelta => exact hdelta.1

theorem Denotes.unique {b : Bytes} (hb : b.length ≤ isizeMax) (h : Denotes b delta data)
    (h' : Denotes b delta data') : data = data' :=
  Except.ok.inj ((applyDelta_of_denotes hb h).symm.trans (applyDelta_of_denotes hb h'))

theorem ObjAt.unique (hfits : p.content.length ≤ isizeMax) (h : ObjAt P spec p off o)
    (h' : ObjAt P spec p off o') : o = o' := by
  have hlen {off o} (h : ObjAt P spec p off o) : o.data.length ≤ isizeMax := by
    cases h with
    | base he _ => exact he.fits
    | ofs _ _ _ _ hdelta => exact hdelta.1
    | ref _ _ _ _ hdelta => exact hdelta.1
  induction h generalizing o' with
  | base he hh =>
    cases h' with
    | base he' hh' =>
      obtain ⟨rfl, rfl⟩ := he.unique hfits he'
      obtain rfl := Header.base.inj (hh.symm.trans hh')
      rfl
    | ofs he' hh' | ref he' hh' =>
      obtain ⟨rfl, -⟩ := he.unique hfits he'
      cases hh.symm.trans hh'
  | ofs he hh hle hbase hdelta ih =>
    cases h' with
    | ofs he' hh' hle' hbase' hdelta' =>
      obtain ⟨rfl, rfl⟩ := he.unique hfits he'
      obtain rfl := Header.ofsDelta.inj (hh.symm.trans hh')
      obtain rfl := ih hbase'
      rw [hdelta.unique (hlen hbase) hdelta']
    | base he' hh' | ref he' hh' =>
      obtain ⟨rfl, -⟩ := he.unique hfits he'
      cases hh.symm.trans hh'
  | ref he hh hid hbase hdelta ih =>
    cases h' with
    | ref he' hh' hid' hbase' hdelta' =>
      obtain ⟨rfl, rfl⟩ := he.unique hfits he'
      obtain rfl := Header.refDelta.inj (hh.symm.trans hh')
      obtain rfl := Option.some.inj (hid.symm.trans hid')
      obtain rfl := ih hbase'
      rw [hdelta.unique (hlen hbase) hdelta']
    | base he' hh' | ofs he' hh' =>
      obtain ⟨rfl, -⟩ := he.unique hfits he'
      cases hh.symm.trans hh'

theorem Resolves.unique (hs : P.Sound spec objects) (h : Resolves P spec pos n o)
    (h' : Resolves P spec pos n' o') : n = n' ∧ o = o' := by
  induction h generalizing n' o' with
  | base hp he hh =>
    have hfits := hs.fits _ (List.mem_of_getElem? hp)
    cases h' with
    | base hp' he' hh' =>
      obtain rfl := Option.some.inj (hp.symm.trans hp')
      obtain ⟨rfl, rfl⟩ := he.unique hfits he'
      obtain rfl := Header.base.inj (hh.symm.trans hh')
      exact ⟨rfl, rfl⟩
    | delta hp' he' hh' =>
      obtain rfl := Option.some.inj (hp.symm.trans hp')
      obtain ⟨rfl, -⟩ := he.unique hfits he'
      exact absurd hh (hh' _)
  | delta hp he hh hnext hbase hdelta ih =>
    have hfits := hs.fits _ (List.mem_of_getElem? hp)
    cases h' with
    | base hp' he' hh' =>
      obtain rfl := Option.some.inj (hp.symm.trans hp')
      obtain ⟨rfl, -⟩ := he.unique hfits he'
      exact absurd hh' (hh _)
    | delta hp' he' hh' hnext' hbase' hdelta' =>
      obtain rfl := Option.some.inj (hp.symm.trans hp')
      obtain ⟨rfl, rfl⟩ := he.unique hfits he'
      obtain rfl := Except.ok.inj (hnext.symm.trans hnext')
      obtain ⟨rfl, rfl⟩ := ih hbase'
      exact ⟨rfl, by rw [hdelta.unique hbase.fits hdelta']⟩

end Unique

section Walk

/-- The reads of a walk give the packs' bytes; `A` says that the store answers. -/
def Met.Reads (m : Met) (P : RemotePacks O) (A : Prop) : Prop :=
  ∀ i pi p, P.packs[pi]? = some p → ReadsOf (m.blocks i pi) p.content A

/-- Objects under the places whose chains lead to them. -/
def Valid (P : RemotePacks O) (spec : P.zlib.Spec) (inserted : Inserted) : Prop :=
  ∀ x ∈ inserted, ∃ n, Resolves P spec x.1 n x.2

/-- The cached objects that a walk meets are those the chains lead to. -/
def Met.Holds (m : Met) (P : RemotePacks O) (spec : P.zlib.Spec) : Prop :=
  ∀ i pos o, m.objects i pos = some o → ∃ n, Resolves P spec pos n o

/-- The deltas rebuild the object, and what they give on the way is valid. -/
def Unwinds (P : RemotePacks O) (spec : P.zlib.Spec) (base : Obj) (chain : DeltaChain)
    (o : Obj) : Prop :=
  ∃ inserted, unwind base chain = (inserted, .ok o) ∧ Valid P spec inserted

theorem Met.Holds.unwinds (hobj : m.Holds P spec) (hs : P.Sound spec objects)
    (h : Resolves P spec pos n o) (hc : m.objects i pos = some o') : Unwinds P spec o' [] o := by
  obtain ⟨n', hn'⟩ := hobj i pos o' hc
  exact (hn'.unique hs h).2 ▸ ⟨[], rfl, nofun⟩

theorem Valid.append {l l' : Inserted} (h : Valid P spec l) (h' : Valid P spec l') :
    Valid P spec (l ++ l') :=
  fun x hx => (List.mem_append.mp hx).elim (h x) (h' x)

theorem valid_cons {x : (ℕ × ℕ) × Obj} {l : Inserted} (hx : Resolves P spec x.1 n x.2)
    (h : Valid P spec l) : Valid P spec (x :: l) :=
  List.forall_mem_cons.mpr ⟨⟨n, hx⟩, h⟩

theorem Unwinds.snoc {chain : DeltaChain} (h : Unwinds P spec o chain base)
    (hdelta : applyDelta base.data delta = .ok out)
    (ho : Resolves P spec pos n ⟨base.kind, out⟩) :
    Unwinds P spec o (chain ++ [(pos, delta)]) ⟨base.kind, out⟩ := by
  obtain ⟨inserted, hunwind, hvalid⟩ := h
  induction chain generalizing o inserted with
  | nil =>
    obtain rfl : o = base := Except.ok.inj (Prod.ext_iff.mp hunwind).2
    refine ⟨[(pos, ⟨o.kind, out⟩)], ?_, valid_cons ho nofun⟩
    rw [List.nil_append, unwind, hdelta]
    rfl
  | cons x chain ih =>
    rw [unwind] at hunwind
    cases hx : applyDelta o.data x.2 with
    | error stop =>
      rw [hx] at hunwind
      cases (Prod.ext_iff.mp hunwind).2
    | ok first =>
      rw [hx] at hunwind
      dsimp only at hunwind
      obtain ⟨hinserted, hrest⟩ := Prod.ext_iff.mp hunwind
      obtain rfl := hinserted
      obtain ⟨hfirst, hlater⟩ := List.forall_mem_cons.mp hvalid
      obtain ⟨later, hunwind', hvalid'⟩ := ih _ (Prod.ext rfl hrest) hlater
      refine ⟨(x.1, ⟨o.kind, first⟩) :: later, ?_, List.forall_mem_cons.mpr ⟨hfirst, hvalid'⟩⟩
      rw [List.cons_append, unwind, hx]
      dsimp only
      rw [hunwind']

theorem pack_eq (hp : P.packs[pi]? = some p) : P.pack pi = .ok p := by
  rw [RemotePacks.pack, hp]

theorem ReadsOf.later {reads : ℕ → Blocks} {content : Bytes} (h : ReadsOf reads content A) :
    ReadsOf (fun j => reads (j + 1)) content A :=
  ⟨fun j => h.sound (j + 1), fun ha j => h.answers ha (j + 1)⟩

/-- The errors of a walk that may go on for `left` entries along `n` deltas. -/
def WalkFails (A : Prop) (n left : ℕ) (e : RemoteError) : Prop :=
  Unanswered A e ∨ e = .chainTooDeep ∧ left ≤ n

theorem walkChain_hit {chain : DeltaChain} (hc : m.objects i pos = some o) :
    walkChain P m left i pos chain = .ok (o, chain, []) := by
  rw [walkChain.eq_def]
  simp only [hc]

theorem walkChain_stop {chain : DeltaChain} (hc : m.objects i pos = none) :
    walkChain P m 0 i pos chain = .error .chainTooDeep := by
  rw [walkChain.eq_def]
  simp only [hc]

theorem walkChain_read {chain : DeltaChain} {S : Obj × DeltaChain × Inserted → Prop}
    (hc : m.objects i (pi, off) = none) (hp : P.packs[pi]? = some p)
    (hfits : p.content.length ≤ isizeMax) (hm : m.Reads P A) (he : EntryAt P spec p off e data)
    (hrest : Concludes (WalkFails A n (left + 1)) S (match e.header with
      | .base kind => .ok (⟨kind, data⟩, chain, [((pi, off), ⟨kind, data⟩)])
      | _ => P.baseOf pi e >>= fun next =>
        walkChain P m left (i + 1) next (((pi, off), data) :: chain))) :
    Concludes (WalkFails A n (left + 1)) S (walkChain P m (left + 1) i (pi, off) chain) := by
  have hread := readEntryHeader_ends he (hm i pi p hp) hfits 0
  have hinflate := inflateWithHead_ends he (hm i pi p hp).later hfits
  rw [walkChain.eq_def]
  simp only [hc]
  rw [pack_eq hp, ok_bind]
  refine (hread.mono (fun _ h => Or.inl h) fun _ h => h).bind fun r hr => ?_
  subst hr
  refine (hinflate.mono (fun _ h => Or.inl h) fun _ h => h).bind fun d hd => ?_
  subst hd
  exact hrest

theorem walkChain_ends (hs : P.Sound spec objects) (hm : m.Reads P A) (hobj : m.Holds P spec)
    (h : Resolves P spec pos n o) {chain : DeltaChain} :
    Concludes (WalkFails A n left) (fun r => ∃ extra, r.2.1 = extra ++ chain ∧
        Unwinds P spec r.1 extra o ∧ Valid P spec r.2.2) (walkChain P m left i pos chain) := by
  induction h generalizing left i chain with
  | @base pi off p e data kind hp he hh =>
    have hres : Resolves P spec (pi, off) 0 ⟨kind, data⟩ := .base hp he hh
    cases hc : m.objects i (pi, off) with
    | some o' =>
      rw [walkChain_hit hc]
      exact ⟨[], rfl, hobj.unwinds hs hres hc, nofun⟩
    | none =>
      cases left with
      | zero =>
        rw [walkChain_stop hc]
        exact .inr ⟨rfl, le_rfl⟩
      | succ left =>
        refine walkChain_read hc hp (hs.fits p (List.mem_of_getElem? hp)) hm he ?_
        simp only [hh]
        exact ⟨[], rfl, ⟨[], rfl, nofun⟩, valid_cons hres nofun⟩
  | @delta pi off n next p e delta out base hp he hh hnext hbase hdelta ih =>
    have hres : Resolves P spec (pi, off) (n + 1) ⟨base.kind, out⟩ :=
      .delta hp he hh hnext hbase hdelta
    cases hc : m.objects i (pi, off) with
    | some o' =>
      rw [walkChain_hit hc]
      exact ⟨[], rfl, hobj.unwinds hs hres hc, nofun⟩
    | none =>
      cases left with
      | zero =>
        rw [walkChain_stop hc]
        exact .inr ⟨rfl, Nat.zero_le _⟩
      | succ left =>
        refine walkChain_read hc hp (hs.fits p (List.mem_of_getElem? hp)) hm he ?_
        have hrest : Concludes (WalkFails A (n + 1) (left + 1)) (fun r => ∃ extra,
            r.2.1 = extra ++ chain ∧ Unwinds P spec r.1 extra ⟨base.kind, out⟩ ∧
              Valid P spec r.2.2)
            (walkChain P m left (i + 1) next (((pi, off), delta) :: chain)) := by
          refine ih.mono (fun err => Or.imp_right (And.imp_right Nat.succ_le_succ)) ?_
          rintro ⟨o', chain', inserted⟩ ⟨extra, hchain, hunwinds, hvalid⟩
          refine ⟨extra ++ [((pi, off), delta)], ?_, ?_, hvalid⟩
          · rw [hchain, List.append_assoc]
            rfl
          · exact hunwinds.snoc (applyDelta_of_denotes hbase.fits hdelta) hres
        rw [← ok_bind (f := fun next => walkChain P m left (i + 1) next
          (((pi, off), delta) :: chain)), ← hnext] at hrest
        cases hhead : e.header with
        | base kind => exact absurd hhead (hh kind)
        | ofsDelta distance => exact hrest
        | refDelta baseId => exact hrest

theorem decodeInner_ends (hs : P.Sound spec objects) (hm : m.Reads P A) (hobj : m.Holds P spec)
    (h : Resolves P spec pos n o) : Valid P spec (decodeInner P m pos).1 ∧
      Concludes (WalkFails A n 4097) (· = o) (decodeInner P m pos).2 := by
  have hwalk := @walkChain_ends O P spec objects m A pos o n 4097 0 hs hm hobj h []
  rw [decodeInner]
  cases hr : walkChain P m 4097 0 pos [] with
  | error e => exact ⟨nofun, hwalk.of_error hr⟩
  | ok r =>
    obtain ⟨extra, hchain, ⟨inserted, hunwind, hvalid⟩, hwalked⟩ := hwalk.of_ok hr
    rw [List.append_nil] at hchain
    simp only [hchain, hunwind]
    exact ⟨hwalked.append hvalid, rfl⟩

/-- Whatever is cached, `find` ends with the object, with nothing where no pack has it, or with an
error: of the store, or of a chain of more than 4096 deltas. -/
theorem find_ends (hs : P.Sound spec objects) (hm : m.Reads P A) (hobj : m.Holds P spec) (oid : O) :
    Valid P spec (find P m oid).1 ∧
      Concludes (fun e => Unanswered A e ∨ e = .chainTooDeep ∧
          ∃ pos n, P.locate oid = some pos ∧ Resolves P spec pos n (objects oid) ∧ 4096 < n)
        (fun r => r = (P.locate oid).map fun _ => objects oid) (find P m oid).2 := by
  rw [find]
  cases hpos : P.locate oid with
  | none => exact ⟨nofun, rfl⟩
  | some pos =>
    obtain ⟨n, hn⟩ := resolves_of_locate hs hpos
    obtain ⟨hvalid, hends⟩ := decodeInner_ends hs hm hobj hn
    refine ⟨hvalid, (hends.mono (fun e he => ?_) fun _ h => h).map fun o ho => ?_⟩
    · exact he.imp_right fun ⟨hdeep, hle⟩ => ⟨hdeep, pos, n, rfl, hn, hle⟩
    · rw [ho]
      rfl

/-- Where the store answers, `find` gives every object of at most 4096 deltas. -/
theorem find_eq (hs : P.Sound spec objects) (hm : m.Reads P True) (hobj : m.Holds P spec) {oid : O}
    (hpos : P.locate oid = some pos) (h : Resolves P spec pos n (objects oid)) (hle : n ≤ 4096) :
    (find P m oid).2 = .ok (some (objects oid)) := by
  obtain ⟨r, hr, rfl⟩ := (find_ends hs hm hobj oid).2.exists_ok fun e he => by
    rcases he with he | ⟨-, pos', n', hpos', hn', hlt⟩
    · exact he.2 trivial
    · obtain rfl := Option.some.inj (hpos.symm.trans hpos')
      exact absurd ((h.unique hs hn').1 ▸ hlt) (Nat.not_lt.mpr hle)
  rw [hr, hpos]
  rfl

end Walk

section Header

/-- The place that a walk comes to after `k` deltas. -/
inductive ChainAt (P : RemotePacks O) (spec : P.zlib.Spec) : ℕ → ℕ × ℕ → ℕ × ℕ → Prop
  | here {pos : ℕ × ℕ} : ChainAt P spec 0 pos pos
  | delta {pi off k : ℕ} {next q : ℕ × ℕ} {p : Pack O} {e : PackEntry O} {delta : Bytes}
      (hp : P.packs[pi]? = some p) (he : EntryAt P spec p off e delta)
      (hh : ∀ kind, e.header ≠ .base kind) (hnext : P.baseOf pi e = .ok next)
      (hq : ChainAt P spec k next q) : ChainAt P spec (k + 1) (pi, off) q

/-- One of the next `left` entries is a base, or is in the cache when the walk comes to it. -/
def WithinReach (P : RemotePacks O) (spec : P.zlib.Spec) (cached : ℕ → ℕ × ℕ → Option Obj)
    (left i : ℕ) (pos : ℕ × ℕ) : Prop :=
  ∃ k < left, ∃ q, ChainAt P spec k pos q ∧
    ((∃ o, Resolves P spec q 0 o) ∨ (cached (i + k) q).isSome)

variable {cached : ℕ → ℕ × ℕ → Option Obj}

theorem not_withinReach_zero : ¬ WithinReach P spec cached 0 i pos :=
  fun ⟨_, hk, _⟩ => absurd hk (Nat.not_lt_zero _)

theorem withinReach_base (h : Resolves P spec pos 0 o) :
    WithinReach P spec cached (left + 1) i pos :=
  ⟨0, left.succ_pos, pos, .here, .inl ⟨o, h⟩⟩

theorem withinReach_hit (h : cached i pos = some o) : WithinReach P spec cached (left + 1) i pos :=
  ⟨0, left.succ_pos, pos, .here, .inr (Option.isSome_of_eq_some h)⟩

theorem withinReach_delta (hs : P.Sound spec objects) (hc : cached i (pi, off) = none)
    (hp : P.packs[pi]? = some p) (he : EntryAt P spec p off e delta)
    (hh : ∀ kind, e.header ≠ .base kind) (hnext : P.baseOf pi e = .ok next) :
    WithinReach P spec cached (left + 1) i (pi, off) ↔
      WithinReach P spec cached left (i + 1) next := by
  have hfits := hs.fits p (List.mem_of_getElem? hp)
  have hstep (k : ℕ) : i + (k + 1) = i + 1 + k := by omega
  constructor
  · rintro ⟨k, hk, q, hq, hend⟩
    cases hq with
    | here =>
      rcases hend with ⟨o, ho⟩ | hsome
      · cases ho with
        | base hp' he' hh' =>
          obtain rfl := Option.some.inj (hp.symm.trans hp')
          obtain ⟨rfl, -⟩ := he.unique hfits he'
          exact absurd hh' (hh _)
      · rw [Nat.add_zero, hc] at hsome
        cases hsome
    | @delta pi off k next' q p' e' delta' hp' he' hh' hnext' hq' =>
      obtain rfl := Option.some.inj (hp.symm.trans hp')
      obtain ⟨rfl, -⟩ := he.unique hfits he'
      obtain rfl := Except.ok.inj (hnext.symm.trans hnext')
      rw [hstep] at hend
      exact ⟨k, Nat.lt_of_succ_lt_succ hk, q, hq', hend⟩
  · rintro ⟨k, hk, q, hq, hend⟩
    rw [← hstep] at hend
    exact ⟨k + 1, Nat.succ_lt_succ hk, q, .delta hp he hh hnext hq, hend⟩

theorem withinReach_empty_iff (hs : P.Sound spec objects) (h : Resolves P spec pos n o) :
    WithinReach P spec (fun _ _ => none) left i pos ↔ n < left := by
  induction h generalizing left i with
  | base hp he hh =>
    cases left with
    | zero => exact iff_of_false not_withinReach_zero (Nat.lt_irrefl 0)
    | succ left => exact iff_of_true (withinReach_base (.base hp he hh)) left.succ_pos
  | delta hp he hh hnext hbase hdelta ih =>
    cases left with
    | zero => exact iff_of_false not_withinReach_zero (Nat.not_lt_zero _)
    | succ left => rw [withinReach_delta hs rfl hp he hh hnext, ih, Nat.succ_lt_succ_iff]

theorem deltaSize_ends {reads : ℕ → Blocks} {b : Bytes} (hr : ReadsOf reads p.content A)
    (hfits : p.content.length ≤ isizeMax) (he : EntryAt P spec p off e delta)
    (hdelta : Denotes b delta out) (size? : Option ℕ) :
    Concludes (Unanswered A) (· = size?.getD out.length) (deltaSize P reads p e size?) := by
  cases size? with
  | some size => exact rfl
  | none =>
    obtain ⟨hlen, body, hheaders, -⟩ := hdelta
    have hsize : deltaResultSize delta = .ok out.length := by
      rw [deltaResultSize_of_headers hheaders, Nat.mod_eq_of_lt (hlen.trans_lt (by decide))]
    have hlt := he.lt
    have hwithin : off + 64 < 2 ^ 64 := by
      rw [isizeMax] at hfits
      omega
    rw [deltaSize, he.offset]
    refine (readAt_within hr 0 hwithin).bind fun head hhead => ?_
    subst hhead
    refine (inflateWithHead_ends he hr.later hfits).bind fun d hd => ?_
    subst hd
    simp only [hsize]
    exact rfl

/-- The errors of the walk of `header`. -/
def HeaderFails (A reach : Prop) (e : RemoteError) : Prop :=
  Unanswered A e ∨ e = .chainTooDeep ∧ ¬ reach

theorem headerLoop_hit {size? : Option ℕ} (hc : m.objects i pos = some o) :
    headerLoop P m (left + 1) i pos size? = .ok (o.kind, size?.getD o.data.length) := by
  rw [headerLoop]
  simp only [hc]

theorem headerLoop_read {size? : Option ℕ} {S : Kind × ℕ → Prop} {reach : Prop}
    (hc : m.objects i (pi, off) = none) (hp : P.packs[pi]? = some p)
    (hfits : p.content.length ≤ isizeMax) (hm : m.Reads P A) (he : EntryAt P spec p off e data)
    (hrest : Concludes (HeaderFails A reach) S (match e.header with
      | .base kind => .ok (kind, size?.getD e.decompressedSize)
      | _ => deltaSize P (fun j => m.blocks i pi (j + 1)) p e size? >>= fun size =>
        P.baseOf pi e >>= fun next => headerLoop P m left (i + 1) next (some size))) :
    Concludes (HeaderFails A reach) S (headerLoop P m (left + 1) i (pi, off) size?) := by
  have hread := readEntryHeader_ends he (hm i pi p hp) hfits 0
  rw [headerLoop]
  simp only [hc]
  rw [pack_eq hp, ok_bind]
  refine (hread.mono (fun _ h => Or.inl h) fun _ h => h).bind fun r hr => ?_
  subst hr
  exact hrest

theorem headerLoop_ends (hs : P.Sound spec objects) (hm : m.Reads P A) (hobj : m.Holds P spec)
    (h : Resolves P spec pos n o) {size? : Option ℕ} :
    Concludes (HeaderFails A (WithinReach P spec m.objects left i pos))
      (fun r => r = (o.kind, size?.getD o.data.length) ∧ WithinReach P spec m.objects left i pos)
      (headerLoop P m left i pos size?) := by
  induction h generalizing left i size? with
  | @base pi off p e data kind hp he hh =>
    have hres : Resolves P spec (pi, off) 0 ⟨kind, data⟩ := .base hp he hh
    cases left with
    | zero => exact .inr ⟨rfl, not_withinReach_zero⟩
    | succ left =>
      cases hc : m.objects i (pi, off) with
      | some o' =>
        obtain ⟨n', hn'⟩ := hobj i _ o' hc
        rw [headerLoop_hit hc, (hn'.unique hs hres).2]
        exact ⟨rfl, withinReach_hit hc⟩
      | none =>
        refine headerLoop_read hc hp (hs.fits p (List.mem_of_getElem? hp)) hm he ?_
        simp only [hh]
        exact ⟨by rw [he.size], withinReach_base hres⟩
  | @delta pi off n next p e delta out base hp he hh hnext hbase hdelta ih =>
    have hres : Resolves P spec (pi, off) (n + 1) ⟨base.kind, out⟩ :=
      .delta hp he hh hnext hbase hdelta
    have hfits := hs.fits p (List.mem_of_getElem? hp)
    cases left with
    | zero => exact .inr ⟨rfl, not_withinReach_zero⟩
    | succ left =>
      cases hc : m.objects i (pi, off) with
      | some o' =>
        obtain ⟨n', hn'⟩ := hobj i _ o' hc
        rw [headerLoop_hit hc, (hn'.unique hs hres).2]
        exact ⟨rfl, withinReach_hit hc⟩
      | none =>
        have hreach := @withinReach_delta O P spec objects next p e delta off pi left i m.objects
          hs hc hp he hh hnext
        have hsize := deltaSize_ends (hm i pi p hp).later hfits he hdelta size?
        rw [hreach]
        refine headerLoop_read hc hp hfits hm he ?_
        have hrest : Concludes (HeaderFails A (WithinReach P spec m.objects left (i + 1) next))
            (fun r => r = (base.kind, size?.getD out.length) ∧
              WithinReach P spec m.objects left (i + 1) next)
            (deltaSize P (fun j => m.blocks i pi (j + 1)) p e size? >>= fun size =>
              P.baseOf pi e >>= fun next => headerLoop P m left (i + 1) next (some size)) := by
          refine (hsize.mono (fun _ h => Or.inl h) fun _ h => h).bind fun size hsize => ?_
          subst hsize
          rw [hnext, ok_bind]
          exact ih
        cases hhead : e.header with
        | base kind => exact absurd hhead (hh kind)
        | ofsDelta distance => exact hrest
        | refDelta baseId => exact hrest

/-- Where the store answers, `header` gives kind and size just where the walk is within reach. -/
theorem header_eq_iff (hs : P.Sound spec objects) (hm : m.Reads P True) (hobj : m.Holds P spec)
    {oid : O} (hpos : P.locate oid = some pos) :
    header P m oid = .ok (some ((objects oid).kind, (objects oid).data.length)) ↔
      WithinReach P spec m.objects 256 0 pos := by
  obtain ⟨n, hn⟩ := resolves_of_locate hs hpos
  have hends := @headerLoop_ends O P spec objects m True pos _ n 256 0 hs hm hobj hn none
  rw [header, hpos]
  dsimp only
  constructor
  · intro hok
    cases hloop : headerLoop P m 256 0 pos none with
    | error e =>
      rw [hloop] at hok
      cases hok
    | ok r => exact (hends.of_ok hloop).2
  · intro hreach
    obtain ⟨r, hr, rfl, -⟩ := hends.exists_ok fun e he =>
      he.elim (fun h => h.2 trivial) fun h => h.2 hreach
    rw [hr]
    rfl

theorem header_too_deep (hs : P.Sound spec objects) (hm : m.Reads P True) (hobj : m.Holds P spec)
    {oid : O} (hpos : P.locate oid = some pos)
    (hreach : ¬ WithinReach P spec m.objects 256 0 pos) :
    header P m oid = .error .chainTooDeep := by
  obtain ⟨n, hn⟩ := resolves_of_locate hs hpos
  have hends := @headerLoop_ends O P spec objects m True pos _ n 256 0 hs hm hobj hn none
  rw [header, hpos]
  dsimp only
  cases hloop : headerLoop P m 256 0 pos none with
  | error e =>
    rcases hends.of_error hloop with h | ⟨rfl, -⟩
    · exact absurd trivial h.2
    · rfl
  | ok r => exact absurd (hends.of_ok hloop).2 hreach

end Header

section Caches

/-- The reads of a walk meet what the block caches can hold, and a store without wrong bytes. -/
def Met.BlocksReached (m : Met) (P : RemotePacks O) : Prop :=
  ∀ i pi p j, P.packs[pi]? = some p → (m.blocks i pi j).Reached p.content

/-- The store answers the reads of a walk. -/
def Met.Answers (m : Met) (P : RemotePacks O) : Prop :=
  ∀ i pi p j, P.packs[pi]? = some p → (m.blocks i pi j).Answers p.content

theorem Met.BlocksReached.reads (h : m.BlocksReached P) : m.Reads P (m.Answers P) :=
  fun i pi p hp => ⟨fun j => (h i pi p j hp).sound, fun ha j => ha i pi p j hp⟩

theorem Met.Reads.answering (h : m.Reads P A) (ha : A) : m.Reads P True :=
  fun i pi p hp => ⟨(h i pi p hp).sound, fun _ => (h i pi p hp).answers ha⟩

theorem answering_reached (content : Bytes) : (answering content).Reached content where
  cached _ := ⟨_, .empty, rfl⟩
  get := ((readsOf_answering content).sound 0).get

/-- What the object cache can hold: what calls of `find` put into it, less the evicted objects. The
calls interleave, so a walk meets the cache as it is at each of its entries. -/
inductive ObjectCache (P : RemotePacks O) : (ℕ × ℕ → Option Obj) → Prop
  | empty : ObjectCache P fun _ => none
  | evict {c : ℕ × ℕ → Option Obj} (keep : ℕ × ℕ → Bool) (hc : ObjectCache P c) :
      ObjectCache P fun pos => if keep pos then c pos else none
  | insert {c : ℕ × ℕ → Option Obj} {m : Met} {oid : O} {x : (ℕ × ℕ) × Obj}
      (hc : ObjectCache P c) (hobjects : ∀ i, ObjectCache P (m.objects i))
      (hblocks : m.BlocksReached P) (hx : x ∈ (find P m oid).1) :
      ObjectCache P (Function.update c x.1 (some x.2))

theorem ObjectCache.sound (hs : P.Sound spec objects) {c : ℕ × ℕ → Option Obj}
    (hc : ObjectCache P c) : ∀ pos o, c pos = some o → ∃ n, Resolves P spec pos n o := by
  induction hc with
  | empty => nofun
  | evict keep _ ih =>
    intro pos o ho
    dsimp only at ho
    split_ifs at ho
    exact ih pos o ho
  | @insert c m oid x _ _ hblocks hx ih ihobjects =>
    intro pos o ho
    rw [Function.update_apply] at ho
    split_ifs at ho with hpos
    · obtain rfl := Option.some.inj ho
      rw [hpos]
      exact (find_ends hs hblocks.reads ihobjects oid).1 x hx
    · exact ih pos o ho

/-- What a walk meets in some run: at each entry an object cache and block caches of that time. -/
structure Met.Reached (m : Met) (P : RemotePacks O) : Prop where
  objects : ∀ i, ObjectCache P (m.objects i)
  blocks : m.BlocksReached P

theorem Met.Reached.holds (h : m.Reached P) (hs : P.Sound spec objects) : m.Holds P spec :=
  fun i => (h.objects i).sound hs

end Caches

end Walgit.Remote
