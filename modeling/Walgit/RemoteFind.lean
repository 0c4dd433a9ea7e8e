import Walgit.RemoteRead

/-!
# Finding objects in remote packs

An entry is a base or a delta over another entry, of its own pack or of the
first pack that has the base. The chain is followed to a base or to an object
in the cache, and the deltas are applied on the way back. The header of an
object is found by a walk of its own, which ends after 256 entries.
-/

namespace Walgit.Remote

open Objects (Kind)
open Tiling (slice)

variable {O : Type}

structure Obj where
  kind : Kind
  data : Bytes
  deriving DecidableEq, Repr

inductive Header (O : Type)
  | base (kind : Kind)
  | ofsDelta (baseDistance : ℕ)
  | refDelta (baseId : O)

structure PackEntry (O : Type) where
  header : Header O
  decompressedSize : ℕ
  dataOffset : ℕ
  packOffset : ℕ

/-- What one call of zlib does with a chunk. -/
structure Fed (S : Type) where
  state : S
  consumed : ℕ
  out : Bytes
  streamEnd : Bool

/-- zlib's decompressor: its state, and a call with a chunk and room for the output; nothing is an
error. -/
structure Inflater where
  State : Type
  start : State
  feed : State → Bytes → ℕ → Option (Fed State)

structure Pack (O : Type) where
  content : Bytes
  lookup : O → Option ℕ

structure RemotePacks (O : Type) where
  packs : List (Pack O)
  fromBytes : Bytes → ℕ → Option (PackEntry O)
  zlib : Inflater

/-- What a walk meets: at its `i`-th entry the cached objects, and for the reads there the state of
the blocks of each pack. -/
structure Met where
  objects : ℕ → ℕ × ℕ → Option Obj
  blocks : ℕ → ℕ → ℕ → Blocks

section Code

def locateFrom (oid : O) : ℕ → List (Pack O) → Option (ℕ × ℕ)
  | _, [] => none
  | i, p :: ps =>
    match p.lookup oid with
    | some off => some (i, off)
    | none => locateFrom oid (i + 1) ps

def RemotePacks.locate (P : RemotePacks O) (oid : O) : Option (ℕ × ℕ) := locateFrom oid 0 P.packs

def RemotePacks.pack (P : RemotePacks O) (pi : ℕ) : Except RemoteError (Pack O) :=
  match P.packs[pi]? with
  | some p => .ok p
  | none => .error (.packIndex pi)

def readEntryHeader (P : RemotePacks O) (b : Blocks) (p : Pack O) (off : ℕ) :
    Except RemoteError (PackEntry O × Bytes) := do
  let head ← readAt b p.content.length off 64
  match P.fromBytes head off with
  | some entry => .ok (entry, head)
  | none => .error (.entry off)

/-- The blocks that plausibly cover an entry, if there are several. -/
def prefetch (b : Blocks) (size dataOff decompressed : ℕ) : Except RemoteError Unit :=
  let guessEnd := min (dataOff + min decompressed (64 * blockSize) + 64) size
  if dataOff < guessEnd ∧ dataOff / blockSize < (guessEnd - 1) / blockSize then
    ((blockNumbers dataOff guessEnd).mapM (block b size)).map fun _ => ()
  else .ok ()

/-- The rest of the chunk, or the next one up to the end of its block. -/
def nextChunk (b : Blocks) (size packOff pos : ℕ) (chunk : Bytes) : Except RemoteError Bytes :=
  if chunk ≠ [] then .ok chunk
  else if size ≤ pos then .error (.truncated packOff)
  else readAt b size pos (min ((pos / blockSize + 1) * blockSize) size - pos)

/-- The loop that feeds zlib; its output has room for what is still expected. -/
def inflateLoop (z : Inflater) (reads : ℕ → Blocks) (size expected packOff : ℕ) :
    ℕ → ℕ → z.State → ℕ → Bytes → Bytes → Except RemoteError Bytes
  | 0, _, _, _, _, _ => .error .outOfFuel
  | fuel + 1, j, s, pos, chunk, out => do
    let chunk ← nextChunk (reads j) size packOff pos chunk
    match z.feed s chunk (max (expected - out.length) 1) with
    | none => .error (.inflate packOff)
    | some r =>
      let out := out ++ r.out
      if expected ≤ out.length ∨ r.streamEnd = true then .ok out
      else
        inflateLoop z reads size expected packOff fuel (j + 1) r.state (pos + r.consumed)
          (chunk.drop r.consumed) out

def inflateWithHead (z : Inflater) (reads : ℕ → Blocks) (p : Pack O) (entry : PackEntry O)
    (head : Bytes) : Except RemoteError Bytes := do
  let size := p.content.length
  prefetch (reads 0) size entry.dataOffset entry.decompressedSize
  let chunk := head.drop (entry.dataOffset - entry.packOffset)
  let out ← inflateLoop z (fun j => reads (j + 1)) size entry.decompressedSize entry.packOffset
    (size + 1) 0 z.start entry.dataOffset chunk []
  if out.length ≠ entry.decompressedSize then
    .error (.inflated entry.packOffset out.length entry.decompressedSize)
  else .ok out

/-- Where the base of a delta is: before it in the pack, or wherever its id is located first. -/
def RemotePacks.baseOf (P : RemotePacks O) (pi : ℕ) (entry : PackEntry O) :
    Except RemoteError (ℕ × ℕ) :=
  match entry.header with
  -- the loops ask for the base of deltas only
  | .base _ => .error .baseMissing
  | .ofsDelta distance => .ok (pi, entry.packOffset - distance)
  | .refDelta baseId =>
    match P.locate baseId with
    | some pos => .ok pos
    | none => .error .baseMissing

/-- The deltas met, the last one first, with the places they are at. -/
abbrev DeltaChain := List ((ℕ × ℕ) × Bytes)

abbrev Inserted := List ((ℕ × ℕ) × Obj)

/-- The loop of `decode_inner`: `left` entries more until the chain is too deep. -/
def walkChain (P : RemotePacks O) (m : Met) :
    ℕ → ℕ → ℕ × ℕ → DeltaChain → Except RemoteError (Obj × DeltaChain × Inserted)
  | left, i, cur, chain =>
    match m.objects i cur with
    | some o => .ok (o, chain, [])
    | none =>
      match left with
      | 0 => .error .chainTooDeep
      | left + 1 => do
        let p ← P.pack cur.1
        let (entry, head) ← readEntryHeader P (m.blocks i cur.1 0) p cur.2
        let data ← inflateWithHead P.zlib (fun j => m.blocks i cur.1 (j + 1)) p entry head
        match entry.header with
        | .base kind => .ok (⟨kind, data⟩, chain, [(cur, ⟨kind, data⟩)])
        | _ => do
          let next ← P.baseOf cur.1 entry
          walkChain P m left (i + 1) next ((cur, data) :: chain)

/-- The deltas applied on the way back. -/
def unwind (base : Obj) : DeltaChain → Inserted × Except RemoteError Obj
  | [] => ([], .ok base)
  | (pos, delta) :: chain =>
    match applyDelta base.data delta with
    | .error stop => ([], .error (.delta pos.1 pos.2 stop))
    | .ok out =>
      let o : Obj := ⟨base.kind, out⟩
      let (inserted, r) := unwind o chain
      ((pos, o) :: inserted, r)

def decodeInner (P : RemotePacks O) (m : Met) (pos : ℕ × ℕ) : Inserted × Except RemoteError Obj :=
  match walkChain P m 4097 0 pos [] with
  | .error e => ([], .error e)
  | .ok (base, chain, inserted) =>
    let (more, r) := unwind base chain
    (inserted ++ more, r)

/-- `find`, and what it puts into the object cache. -/
def find (P : RemotePacks O) (m : Met) (oid : O) :
    Inserted × Except RemoteError (Option Obj) :=
  match P.locate oid with
  | none => ([], .ok none)
  | some pos =>
    let (inserted, r) := decodeInner P m pos
    (inserted, r.map some)

/-- The size of a delta's result, from the first delta of the walk. -/
def deltaSize (P : RemotePacks O) (reads : ℕ → Blocks) (p : Pack O) (entry : PackEntry O) :
    Option ℕ → Except RemoteError ℕ
  | some size => .ok size
  | none => do
    let head ← readAt (reads 0) p.content.length entry.packOffset 64
    let delta ← inflateWithHead P.zlib (fun j => reads (j + 1)) p entry head
    match deltaResultSize delta with
    | .ok size => .ok size
    | .error stop => .error (.deltaHeader stop)

def headerLoop (P : RemotePacks O) (m : Met) :
    ℕ → ℕ → ℕ × ℕ → Option ℕ → Except RemoteError (Kind × ℕ)
  | 0, _, _, _ => .error .chainTooDeep
  | left + 1, i, cur, size? =>
    match m.objects i cur with
    | some o => .ok (o.kind, size?.getD o.data.length)
    | none => do
      let p ← P.pack cur.1
      let (entry, _) ← readEntryHeader P (m.blocks i cur.1 0) p cur.2
      match entry.header with
      | .base kind => .ok (kind, size?.getD entry.decompressedSize)
      | _ => do
        let size ← deltaSize P (fun j => m.blocks i cur.1 (j + 1)) p entry size?
        let next ← P.baseOf cur.1 entry
        headerLoop P m left (i + 1) next (some size)

def header (P : RemotePacks O) (m : Met) (oid : O) : Except RemoteError (Option (Kind × ℕ)) :=
  match P.locate oid with
  | none => .ok none
  | some pos => (headerLoop P m 256 0 pos none).map some

end Code

section Packs

/-- What zlib promises: fed the beginning of what is left of a stream, with room for all that is
left of its data, it gives all of that data, or takes the whole chunk and goes on. -/
structure Inflater.Spec (z : Inflater) where
  Stream : Bytes → Bytes → Prop
  Decodes : z.State → Bytes → Bytes → Prop
  start : ∀ {c d}, Stream c d → Decodes z.start c d
  nonempty : ∀ {s c d}, Decodes s c d → c ≠ []
  feed : ∀ {s c d chunk room}, Decodes s c d → chunk ≠ [] → (chunk <+: c ∨ c <+: chunk) →
    0 < room → d.length ≤ room → ∃ r, z.feed s chunk room = some r ∧
      (r.out = d ∨ r.streamEnd = false ∧ r.consumed = chunk.length ∧
        ∃ c' d', c = chunk ++ c' ∧ d = r.out ++ d' ∧ Decodes r.state c' d')

/-- The entry that stands at a place of a pack, and its data. -/
structure EntryAt (P : RemotePacks O) (spec : P.zlib.Spec) (p : Pack O) (off : ℕ)
    (e : PackEntry O) (data : Bytes) : Prop where
  parsed : P.fromBytes (slice p.content (off, min (off + 64) p.content.length)) off = some e
  offset : e.packOffset = off
  header : off ≤ e.dataOffset
  stream : ∃ c rest, p.content.drop e.dataOffset = c ++ rest ∧ spec.Stream c data
  size : data.length = e.decompressedSize
  fits : data.length ≤ isizeMax

/-- The object at a place of a pack, every base of which is in the pack. -/
inductive ObjAt (P : RemotePacks O) (spec : P.zlib.Spec) (p : Pack O) : ℕ → Obj → Prop
  | base {off : ℕ} {e : PackEntry O} {data : Bytes} {kind : Kind}
      (he : EntryAt P spec p off e data) (hh : e.header = .base kind) :
      ObjAt P spec p off ⟨kind, data⟩
  | ofs {off distance : ℕ} {e : PackEntry O} {delta out : Bytes} {base : Obj}
      (he : EntryAt P spec p off e delta) (hh : e.header = .ofsDelta distance)
      (hle : distance ≤ off) (hbase : ObjAt P spec p (off - distance) base)
      (hdelta : Denotes base.data delta out) :
      ObjAt P spec p off ⟨base.kind, out⟩
  | ref {off off' : ℕ} {e : PackEntry O} {delta out : Bytes} {base : Obj} {baseId : O}
      (he : EntryAt P spec p off e delta) (hh : e.header = .refDelta baseId)
      (hid : p.lookup baseId = some off') (hbase : ObjAt P spec p off' base)
      (hdelta : Denotes base.data delta out) : ObjAt P spec p off ⟨base.kind, out⟩

/-- Packs that are self-contained and content-addressed. -/
structure RemotePacks.Sound (P : RemotePacks O) (spec : P.zlib.Spec) (objects : O → Obj) :
    Prop where
  contained : ∀ p ∈ P.packs, ∀ oid off, p.lookup oid = some off → ∃ o, ObjAt P spec p off o
  addressed : ∀ p ∈ P.packs, ∀ oid off o, p.lookup oid = some off → ObjAt P spec p off o →
    o = objects oid
  fits : ∀ p ∈ P.packs, p.content.length ≤ isizeMax

/-- The object that a chain of `n` deltas leads to, with bases found as they are located. -/
inductive Resolves (P : RemotePacks O) (spec : P.zlib.Spec) : ℕ × ℕ → ℕ → Obj → Prop
  | base {pi off : ℕ} {p : Pack O} {e : PackEntry O} {data : Bytes} {kind : Kind}
      (hp : P.packs[pi]? = some p) (he : EntryAt P spec p off e data)
      (hh : e.header = .base kind) : Resolves P spec (pi, off) 0 ⟨kind, data⟩
  | delta {pi off n : ℕ} {next : ℕ × ℕ} {p : Pack O} {e : PackEntry O} {delta out : Bytes}
      {base : Obj} (hp : P.packs[pi]? = some p) (he : EntryAt P spec p off e delta)
      (hh : ∀ kind, e.header ≠ .base kind) (hnext : P.baseOf pi e = .ok next)
      (hbase : Resolves P spec next n base) (hdelta : Denotes base.data delta out) :
      Resolves P spec (pi, off) (n + 1) ⟨base.kind, out⟩

variable {P : RemotePacks O} {spec : P.zlib.Spec} {objects : O → Obj} {oid : O} {pos : ℕ × ℕ}
  {pi off i : ℕ} {p : Pack O} {ps : List (Pack O)}

theorem locateFrom_some (h : locateFrom oid i ps = some pos) :
    ∃ k p, pos.1 = i + k ∧ ps[k]? = some p ∧ p.lookup oid = some pos.2 ∧
      ∀ j < k, ∀ q, ps[j]? = some q → q.lookup oid = none := by
  induction ps generalizing i with
  | nil => cases h
  | cons p ps ih =>
    rw [locateFrom] at h
    cases hp : p.lookup oid with
    | some off =>
      rw [hp] at h
      cases h
      exact ⟨0, p, rfl, rfl, hp, nofun⟩
    | none =>
      rw [hp] at h
      obtain ⟨k, q, hk, hq, hlook, hbefore⟩ := ih h
      refine ⟨k + 1, q, by omega, hq, hlook, fun j hj q' hq' => ?_⟩
      cases j with
      | zero =>
        obtain rfl := Option.some.inj hq'
        exact hp
      | succ j => exact hbefore j (Nat.lt_of_succ_lt_succ hj) q' hq'

theorem locateFrom_isSome (hp : ps[pi]? = some p) (h : p.lookup oid = some off) :
    ∃ pos, locateFrom oid i ps = some pos := by
  induction ps generalizing i pi with
  | nil => cases hp
  | cons q ps ih =>
    rw [locateFrom]
    cases hq : q.lookup oid with
    | some off' => exact ⟨_, rfl⟩
    | none =>
      cases pi with
      | zero =>
        obtain rfl := Option.some.inj hp
        rw [hq] at h
        cases h
      | succ pi => exact ih hp

theorem locate_some (h : P.locate oid = some pos) :
    ∃ p, P.packs[pos.1]? = some p ∧ p.lookup oid = some pos.2 := by
  obtain ⟨k, p, hk, hp, hlook, -⟩ := locateFrom_some h
  rw [Nat.zero_add] at hk
  exact ⟨p, hk ▸ hp, hlook⟩

theorem locate_of_lookup (hp : P.packs[pi]? = some p) (h : p.lookup oid = some off) :
    ∃ pos, P.locate oid = some pos ∧ (pos = (pi, off) ∨ pos.1 < pi) := by
  obtain ⟨pos, hpos⟩ := @locateFrom_isSome O oid pi off 0 p P.packs hp h
  obtain ⟨k, q, hk, hq, hlook, hbefore⟩ := locateFrom_some hpos
  rw [Nat.zero_add] at hk
  refine ⟨pos, hpos, ?_⟩
  rcases Nat.lt_trichotomy k pi with hlt | heq | hgt
  · exact .inr (hk ▸ hlt)
  · subst heq
    rw [hp] at hq
    obtain rfl := Option.some.inj hq
    rw [h] at hlook
    exact .inl (Prod.ext hk (Option.some.inj hlook).symm)
  · rw [hbefore pi hgt p hp] at h
    cases h

theorem resolves_of_objAt (hs : P.Sound spec objects) (pi : ℕ) :
    ∀ {p off o}, P.packs[pi]? = some p → ObjAt P spec p off o →
      ∃ n, Resolves P spec (pi, off) n o := by
  induction pi using Nat.strong_induction_on with
  | _ pi ih =>
    intro p off o hp ho
    induction ho with
    | base he hh => exact ⟨0, .base hp he hh⟩
    | @ofs off distance e delta out base he hh hle hbase hdelta ihbase =>
      obtain ⟨n, hn⟩ := ihbase
      refine ⟨n + 1, .delta hp he (by rw [hh]; nofun) ?_ hn hdelta⟩
      rw [RemotePacks.baseOf, hh, he.offset]
    | @ref off off' e delta out base baseId he hh hid hbase hdelta ihbase =>
      obtain ⟨pos, hpos, hfirst⟩ := locate_of_lookup hp hid
      have hnext : P.baseOf pi e = .ok pos := by
        rw [RemotePacks.baseOf, hh]
        simp only [hpos]
      have hn : ∃ n, Resolves P spec pos n base := by
        rcases hfirst with rfl | hlt
        · exact ihbase
        · obtain ⟨q, hq, hlook⟩ := locate_some hpos
          have hqmem := List.mem_of_getElem? hq
          obtain ⟨o', ho'⟩ := hs.contained q hqmem baseId pos.2 hlook
          have hsame : o' = base := (hs.addressed q hqmem baseId pos.2 o' hlook ho').trans
            (hs.addressed p (List.mem_of_getElem? hp) baseId off' base hid hbase).symm
          exact hsame ▸ ih pos.1 hlt hq ho'
      obtain ⟨n, hn⟩ := hn
      exact ⟨n + 1, .delta hp he (by rw [hh]; nofun) hnext hn hdelta⟩

theorem resolves_of_locate (hs : P.Sound spec objects) (h : P.locate oid = some pos) :
    ∃ n, Resolves P spec pos n (objects oid) := by
  obtain ⟨p, hp, hlook⟩ := locate_some h
  have hmem := List.mem_of_getElem? hp
  obtain ⟨o, ho⟩ := hs.contained p hmem oid pos.2 hlook
  rw [← hs.addressed p hmem oid pos.2 o hlook ho]
  exact resolves_of_objAt hs pos.1 hp ho

end Packs

section Inflating

variable {P : RemotePacks O} {spec : P.zlib.Spec} {p : Pack O} {e : PackEntry O} {data : Bytes}
  {off : ℕ} {A : Prop}

/-- The blocks met at each read are the pack's; `A` says that the store answers. -/
structure ReadsOf (reads : ℕ → Blocks) (content : Bytes) (A : Prop) : Prop where
  sound : ∀ j, (reads j).Sound content
  answers : A → ∀ j, (reads j).Answers content

theorem Unanswered.mono {A B : Prop} (h : A → B) {e : RemoteError} (he : Unanswered B e) :
    Unanswered A e :=
  ⟨he.1, fun ha => he.2 (h ha)⟩

theorem slice_prefix_drop (content : Bytes) (lo hi : ℕ) :
    slice content (lo, hi) <+: content.drop lo :=
  List.take_prefix _ _

theorem readAt_within {reads : ℕ → Blocks} {content : Bytes} {len : ℕ}
    (hr : ReadsOf reads content A) (j : ℕ) (h : off + len < 2 ^ 64) :
    Concludes (Unanswered A) (· = slice content (off, min (off + len) content.length))
      (readAt (reads j) content.length off len) := by
  have hread := @readAt_ends (reads j) content off len (hr.sound j)
  rw [Nat.mod_eq_of_lt h] at hread
  exact hread.mono (fun _ => Unanswered.mono fun ha => hr.answers ha j) fun _ h => h

theorem nextChunk_ends {reads : ℕ → Blocks} {content chunk : Bytes} {pos packOff : ℕ}
    (hr : ReadsOf reads content A) (hfits : content.length ≤ isizeMax) (hpos : pos < content.length)
    (hchunk : chunk <+: content.drop pos) (j : ℕ) :
    Concludes (Unanswered A) (fun c => c ≠ [] ∧ c <+: content.drop pos)
      (nextChunk (reads j) content.length packOff pos chunk) := by
  rw [nextChunk]
  split_ifs with hne hend
  · exact ⟨hne, hchunk⟩
  · exact absurd hpos (Nat.not_lt.mpr hend)
  · have hblock : pos < (pos / blockSize + 1) * blockSize := by
      rw [succ_start]
      exact Nat.lt_div_mul_add blockSize_pos
    rw [isizeMax] at hfits
    refine (readAt_within hr j (by omega)).mono (fun _ h => h) ?_
    rintro _ rfl
    refine ⟨fun hnil => ?_, slice_prefix_drop _ _ _⟩
    have hlen := congrArg List.length hnil
    rw [Tiling.length_slice (Nat.min_le_right _ _), List.length_nil] at hlen
    omega

theorem inflateLoop_ends {reads : ℕ → Blocks} {content : Bytes} {expected packOff : ℕ}
    (hr : ReadsOf reads content A) (hfits : content.length ≤ isizeMax) (fuel : ℕ) :
    ∀ {j s pos c rest d chunk out}, spec.Decodes s c d → content.drop pos = c ++ rest →
      chunk <+: content.drop pos → out.length + d.length = expected →
      content.length < pos + fuel → Concludes (Unanswered A) (· = out ++ d)
        (inflateLoop P.zlib reads content.length expected packOff fuel j s pos chunk out) := by
  induction fuel with
  | zero =>
    intro j s pos c rest d chunk out hdec hdrop _ _ hfuel
    rw [List.drop_of_length_le (Nat.add_zero pos ▸ hfuel.le)] at hdrop
    exact absurd (List.append_eq_nil_iff.mp hdrop.symm).1 (spec.nonempty hdec)
  | succ fuel ih =>
    intro j s pos c rest d chunk out hdec hdrop hchunk hlen hfuel
    have hpos : pos < content.length := by
      by_contra hout
      rw [List.drop_of_length_le (Nat.not_lt.mp hout)] at hdrop
      exact spec.nonempty hdec (List.append_eq_nil_iff.mp hdrop.symm).1
    rw [inflateLoop]
    refine (nextChunk_ends hr hfits hpos hchunk j).bind fun chunk' hchunk' => ?_
    obtain ⟨hne, hbegin⟩ := hchunk'
    have hcompare : chunk' <+: c ∨ c <+: chunk' := by
      rw [hdrop] at hbegin
      exact List.prefix_or_prefix_of_prefix hbegin (List.prefix_append c rest)
    obtain ⟨r, hfeed, hstep⟩ := spec.feed hdec hne hcompare
      (Nat.lt_of_lt_of_le Nat.one_pos (Nat.le_max_right (expected - out.length) 1))
      ((show d.length ≤ expected - out.length by omega).trans (Nat.le_max_left _ _))
    simp only [hfeed]
    rcases hstep with hall | ⟨hgoes, hconsumed, c', d', rfl, rfl, hdec'⟩
    · rw [if_pos (.inl (by rw [hall, List.length_append]; omega)), hall]
      exact rfl
    · rw [List.length_append] at hlen
      split_ifs with hdone
      · have hnil : d' = [] := by
          rcases hdone with hdone | hdone
          · rw [List.length_append] at hdone
            exact List.eq_nil_of_length_eq_zero (by omega)
          · rw [hgoes] at hdone
            cases hdone
        rw [hnil, List.append_nil]
        exact rfl
      · have hpositive := List.length_pos_iff.mpr hne
        have hdrop' : content.drop (pos + r.consumed) = c' ++ rest := by
          rw [← List.drop_drop, hdrop, hconsumed, List.append_assoc, List.drop_left]
        rw [← List.append_assoc]
        refine ih hdec' hdrop' ?_ (by rw [List.length_append]; omega) (by omega)
        rw [hconsumed, List.drop_length]
        exact List.nil_prefix

theorem prefetch_ends {b : Blocks} {content : Bytes} {dataOff n : ℕ} (hb : b.Sound content)
    (ha : A → b.Answers content) :
    Concludes (Unanswered A) (fun _ => True) (prefetch b content.length dataOff n) := by
  rw [prefetch]
  have hblock (m : ℕ) : Concludes (Unanswered A) (· = blockOf content m)
      (block b content.length m) :=
    (block_ends hb).mono (fun _ => Unanswered.mono ha) fun _ h => h
  split_ifs
  · exact (Concludes.mapM fun m _ => hblock m).map fun _ _ => trivial
  · trivial

theorem EntryAt.lt (he : EntryAt P spec p off e data) : off < p.content.length := by
  obtain ⟨c, rest, hdrop, hstream⟩ := he.stream
  by_contra hout
  rw [List.drop_of_length_le ((Nat.not_lt.mp hout).trans he.header)] at hdrop
  exact spec.nonempty (spec.start hstream) (List.append_eq_nil_iff.mp hdrop.symm).1

theorem readEntryHeader_ends {reads : ℕ → Blocks} (he : EntryAt P spec p off e data)
    (hr : ReadsOf reads p.content A) (hfits : p.content.length ≤ isizeMax) (j : ℕ) :
    Concludes (Unanswered A) (· = (e, slice p.content (off, min (off + 64) p.content.length)))
      (readEntryHeader P (reads j) p off) := by
  have hlt := he.lt
  rw [isizeMax] at hfits
  refine (readAt_within hr j (by omega)).bind fun head hhead => ?_
  rw [hhead]
  simp only [he.parsed]
  exact rfl

theorem inflateWithHead_ends {reads : ℕ → Blocks} (he : EntryAt P spec p off e data)
    (hr : ReadsOf reads p.content A) (hfits : p.content.length ≤ isizeMax) :
    Concludes (Unanswered A) (· = data) (inflateWithHead P.zlib reads p e
      (slice p.content (off, min (off + 64) p.content.length))) := by
  obtain ⟨c, rest, hdrop, hstream⟩ := he.stream
  have hlater : ReadsOf (fun j => reads (j + 1)) p.content A :=
    ⟨fun j => hr.sound (j + 1), fun ha j => hr.answers ha (j + 1)⟩
  have hchunk : (slice p.content (off, min (off + 64) p.content.length)).drop
      (e.dataOffset - e.packOffset) <+: p.content.drop e.dataOffset := by
    have hoff : p.content.drop e.dataOffset =
        (p.content.drop off).drop (e.dataOffset - e.packOffset) := by
      rw [List.drop_drop, he.offset, Nat.add_sub_cancel' he.header]
    rw [hoff]
    exact (slice_prefix_drop _ _ _).drop _
  refine (prefetch_ends (hr.sound 0) fun ha => hr.answers ha 0).bind fun _ _ => ?_
  refine (inflateLoop_ends hlater hfits _ (spec.start hstream) hdrop hchunk
    (by rw [List.length_nil, Nat.zero_add, he.size]) (by omega)).bind fun out hout => ?_
  rw [List.nil_append] at hout
  rw [if_neg (by rw [hout, he.size]; exact fun h => h rfl)]
  exact hout

end Inflating

end Walgit.Remote
