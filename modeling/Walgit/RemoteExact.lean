import Walgit.RemoteChain

/-!
# Exact decoding of remote packs

An object comes out as it is, whatever is cached and wherever the bases are
found. Its header comes out only where the chain is short enough, and a range
only where its end is a number of 64 bits.
-/

namespace Walgit.Remote

open Tiling (slice)

section Exact

variable {O : Type}

/-- `find` ends and finds nothing but the object; `header` agrees with it just where one of the
first 256 entries of the chain is a base or is met in the cache; `read_at` is exact just where the
end asked for is of 64 bits, or nothing is there. -/
theorem find_header_readAt_exact (P : RemotePacks O) (spec : P.zlib.Spec) (objects : O → Obj)
    (hs : P.Sound spec objects) (oid : O) (m m' : Met) (hm : m.Reached P) (hm' : m'.Reached P)
    (hanswers : m'.Answers P) (p : Pack O) (hp : p ∈ P.packs) (b : Blocks)
    (hb : b.Reached p.content) (off len : ℕ) (hlen : len < 2 ^ 64) :
    (find P m oid).2 ≠ .error .outOfFuel ∧
    (∀ o, (find P m oid).2 = .ok (some o) → o = objects oid ∧
      (header P m' oid = .ok (some (o.kind, o.data.length)) ↔
        ∃ pos, P.locate oid = some pos ∧ WithinReach P spec m'.objects 256 0 pos)) ∧
    ((∀ out, readAt b p.content.length off len = .ok out →
        out = slice p.content (off, min (off + len) p.content.length)) ↔
      off + len < 2 ^ 64 ∨ p.content.length ≤ off) := by
  obtain ⟨-, hends⟩ := find_ends hs hm.blocks.reads (hm.holds hs) oid
  refine ⟨fun hfuel => ?_, fun o ho => ?_, ?_⟩
  · rcases hends.of_error hfuel with h | ⟨h, -⟩
    · exact h.1 rfl
    · cases h
  · have hreads := hm'.blocks.reads.answering hanswers
    have hfound := hends.of_ok ho
    cases hpos : P.locate oid with
    | none =>
      rw [hpos] at hfound
      cases hfound
    | some pos =>
      rw [hpos] at hfound
      obtain rfl := Option.some.inj hfound
      refine ⟨rfl, (header_eq_iff hs hreads (hm'.holds hs) hpos).trans ⟨fun h => ⟨pos, rfl, h⟩, ?_⟩⟩
      rintro ⟨pos', hpos', hreach⟩
      obtain rfl := Option.some.inj hpos'
      exact hreach
  · exact readAt_exact_iff hb.sound hlen ((hs.fits p hp).trans_lt (by decide))

end Exact

/-! A pack of blobs, each of which is a delta over the one before it. -/

section Stored

/-- The data of a zlib stream of one stored block, once it is all there. -/
def storedData : Bytes → Option Bytes
  | cmf :: flg :: final :: lo :: hi :: _ :: _ :: rest =>
    let size := lo.toNat + 256 * hi.toNat
    if cmf = 0x78 ∧ flg = 0x01 ∧ final = 0x01 ∧ size + 4 ≤ rest.length then some (rest.take size)
    else none
  | _ => none

/-- A call of zlib on a stream of one stored block, which is given out with its last byte. -/
def storedFeed (seen chunk : Bytes) : Fed Bytes :=
  match storedData (seen ++ chunk) with
  | some d => ⟨seen ++ chunk, d.length + 11 - seen.length, d, true⟩
  | none => ⟨seen ++ chunk, chunk.length, [], false⟩

def storedInflater : Inflater where
  State := Bytes
  start := []
  feed seen chunk _ := some (storedFeed seen chunk)

def adler32 (d : Bytes) : Bytes :=
  let (a, b) := d.foldl (fun (a, b) x => ((a + x.toNat) % 65521, (b + a + x.toNat) % 65521)) (1, 0)
  [UInt8.ofNat (b / 256), UInt8.ofNat b, UInt8.ofNat (a / 256), UInt8.ofNat a]

/-- Less than 256 bytes as one stored block. -/
def storedStream (d : Bytes) : Bytes :=
  [0x78, 0x01, 0x01, UInt8.ofNat d.length, 0x00, 0xff - UInt8.ofNat d.length, 0xff] ++
    (d ++ adler32 d)

variable {c d x : Bytes}

theorem storedData_append (h : storedData c = some d) (x : Bytes) :
    storedData (c ++ x) = some d := by
  match c, h with
  | cmf :: flg :: final :: lo :: hi :: lo' :: hi' :: rest, h =>
    rw [storedData] at h
    split_ifs at h with hc
    obtain ⟨hcmf, hflg, hfinal, hlen⟩ := hc
    rw [← h]
    simp only [List.cons_append, storedData]
    rw [if_pos ⟨hcmf, hflg, hfinal, by rw [List.length_append]; omega⟩,
      List.take_append_of_le_length (by omega)]

theorem storedData_storedStream (hd : d.length < 256) : storedData (storedStream d) = some d := by
  have hsize : (UInt8.ofNat d.length).toNat + 256 * (0x00 : UInt8).toNat = d.length := by
    rw [UInt8.toNat_ofNat_of_lt' hd]
    rfl
  have hlen : d.length + 4 ≤ (d ++ adler32 d).length := by
    rw [List.length_append]
    exact le_rfl
  simp only [storedStream, List.cons_append, List.nil_append, storedData, hsize]
  rw [if_pos ⟨trivial, trivial, trivial, hlen⟩, List.take_left]

theorem storedFeed_spec {seen chunk : Bytes} (h : storedData (seen ++ c) = some d)
    (hchunk : chunk <+: c ∨ c <+: chunk) :
    (storedFeed seen chunk).out = d ∨ (storedFeed seen chunk).streamEnd = false ∧
      (storedFeed seen chunk).consumed = chunk.length ∧ ∃ c' d', c = chunk ++ c' ∧
        d = (storedFeed seen chunk).out ++ d' ∧ c' ≠ [] ∧
          storedData ((storedFeed seen chunk).state ++ c') = some d' := by
  rw [storedFeed]
  cases hfed : storedData (seen ++ chunk) with
  | some d' =>
    refine .inl ?_
    rcases hchunk with ⟨more, rfl⟩ | ⟨more, rfl⟩
    · have hmore := storedData_append hfed more
      rw [List.append_assoc, h] at hmore
      exact (Option.some.inj hmore).symm
    · have hmore := storedData_append h more
      rw [List.append_assoc, hfed] at hmore
      exact Option.some.inj hmore
  | none =>
    refine .inr ⟨rfl, rfl, ?_⟩
    rcases hchunk with ⟨more, rfl⟩ | ⟨more, rfl⟩
    · rw [← List.append_assoc] at h
      refine ⟨more, d, rfl, rfl, fun hnil => ?_, h⟩
      rw [hnil, List.append_nil, hfed] at h
      cases h
    · rw [← List.append_assoc, storedData_append h more] at hfed
      cases hfed

theorem storedData_ne_nil (h : storedData c = some d) : c ≠ [] := by
  rintro rfl
  cases h

def storedSpec : storedInflater.Spec where
  Stream c d := storedData c = some d
  Decodes seen c d := c ≠ [] ∧ storedData (List.append seen c) = some d
  start h := ⟨storedData_ne_nil h, h⟩
  nonempty h := h.1
  feed h _ hchunk _ _ := ⟨_, rfl, storedFeed_spec h.2 hchunk⟩

end Stored

section Blobs

def blobData (k : ℕ) : Bytes := [0, 0, 0, 0, 0, 0, UInt8.ofNat (k / 256), UInt8.ofNat k]

/-- A copy of the first six bytes, and the last two. -/
def blobDelta (k : ℕ) : Bytes := [8, 8, 0x90, 6, 2, UInt8.ofNat (k / 256), UInt8.ofNat k]

/-- The first blob is stored whole, the others as deltas over the entry 20 bytes before. -/
def entryBytes : ℕ → Bytes
  | 0 => 0x38 :: storedStream (blobData 0)
  | k + 1 => 0x67 :: 20 :: storedStream (blobDelta (k + 1))

/-- A pack of the blobs up to `n`; no read looks at the checksum at its end. -/
def packBytes (n : ℕ) : Bytes :=
  [0x50, 0x41, 0x43, 0x4b, 0, 0, 0, 2, 0, 0, UInt8.ofNat ((n + 1) / 256), UInt8.ofNat (n + 1)] ++
    ((List.range (n + 1)).flatMap entryBytes ++ List.replicate 20 0)

def entryPlace (k : ℕ) : ℕ := 12 + 20 * k

/-- `Entry::from_bytes` for blobs and deltas with sizes below 16 and distances below 128. -/
def shortEntry (head : Bytes) (off : ℕ) : Option (PackEntry ℕ) :=
  match head with
  | [] => none
  | b :: rest =>
    if b.toNat / 16 = 3 then some ⟨.base .blob, b.toNat % 16, off + 1, off⟩
    else if b.toNat / 16 = 6 then
      match rest with
      | [] => none
      | distance :: _ =>
        if distance.toNat < 128 then
          some ⟨.ofsDelta distance.toNat, b.toNat % 16, off + 2, off⟩
        else none
    else none

def blobPack (n : ℕ) : Pack ℕ where
  content := packBytes n
  lookup k := if k ≤ n then some (entryPlace k) else none

def blobPacks (n : ℕ) : RemotePacks ℕ := ⟨[blobPack n], shortEntry, storedInflater⟩

def blob (k : ℕ) : Obj := ⟨.blob, blobData k⟩

/-- Nothing is cached and the store answers. -/
def fresh (n : ℕ) : Met := ⟨fun _ _ => none, fun _ _ _ => answering (packBytes n)⟩

variable {n k : ℕ}

theorem length_entryBytes (k : ℕ) : (entryBytes k).length = 20 := by
  cases k <;> rfl

theorem length_entries (k : ℕ) : ((List.range k).flatMap entryBytes).length = 20 * k := by
  induction k with
  | zero => rfl
  | succ k ih =>
    rw [List.range_succ, List.flatMap_append, List.length_append, ih, List.flatMap_singleton,
      length_entryBytes, Nat.mul_succ]

theorem length_packBytes (n : ℕ) : (packBytes n).length = 52 + 20 * n := by
  rw [packBytes, List.length_append, List.length_append, length_entries, List.length_replicate]
  simp only [List.length_cons, List.length_nil]
  omega

theorem drop_packBytes (hk : k ≤ n) :
    ∃ rest, (packBytes n).drop (entryPlace k) = entryBytes k ++ rest := by
  have hrange : List.range (n + 1) = List.range k ++ k :: List.range' (k + 1) (n - k) := by
    have hsplit := @List.range'_append_1 0 k (n - k + 1)
    rw [Nat.zero_add, ← Nat.add_assoc, Nat.add_sub_cancel' hk, List.range'_succ] at hsplit
    rw [List.range_eq_range', List.range_eq_range', hsplit]
  refine ⟨(List.range' (k + 1) (n - k)).flatMap entryBytes ++ List.replicate 20 0, ?_⟩
  rw [packBytes, entryPlace, ← List.drop_drop, hrange, List.flatMap_append, List.flatMap_cons,
    List.append_assoc, List.append_assoc]
  exact List.drop_left' (length_entries k)

def entryOf : ℕ → PackEntry ℕ
  | 0 => ⟨.base .blob, 8, entryPlace 0 + 1, entryPlace 0⟩
  | k + 1 => ⟨.ofsDelta 20, 7, entryPlace (k + 1) + 2, entryPlace (k + 1)⟩

def entryData : ℕ → Bytes
  | 0 => blobData 0
  | k + 1 => blobDelta (k + 1)

theorem slice_head (content : Bytes) (off : ℕ) :
    slice content (off, min (off + 64) content.length) = (content.drop off).take 64 := by
  rw [slice, List.take_eq_take_iff, List.length_drop]
  omega

theorem entryAt (hk : k ≤ n) : EntryAt (blobPacks n) storedSpec (blobPack n) (entryPlace k)
    (entryOf k) (entryData k) := by
  obtain ⟨rest, hdrop⟩ := drop_packBytes hk
  have hhead := slice_head (packBytes n) (entryPlace k)
  rw [hdrop] at hhead
  cases k with
  | zero => exact {
      parsed := by
        rw [blobPack, hhead]
        rfl
      offset := rfl
      header := Nat.le_succ _
      stream := by
        refine ⟨storedStream (blobData 0), rest, ?_, storedData_storedStream (by decide)⟩
        rw [entryOf, blobPack, ← List.drop_drop, hdrop]
        rfl
      size := rfl
      fits := by decide }
  | succ k => exact {
      parsed := by
        rw [blobPack, hhead]
        rfl
      offset := rfl
      header := Nat.le_add_right _ _
      stream := by
        have hshort : (blobDelta (k + 1)).length < 256 := (by decide : 7 < 256)
        refine ⟨storedStream (blobDelta (k + 1)), rest, ?_, storedData_storedStream hshort⟩
        rw [entryOf, blobPack, ← List.drop_drop, hdrop]
        rfl
      size := rfl
      fits := (by decide : 7 ≤ isizeMax) }

theorem blobDelta_denotes (k : ℕ) :
    Denotes (blobData k) (blobDelta (k + 1)) (blobData (k + 1)) := by
  have height : SizeHeader [8] 8 := ⟨.last (b := 8) (by decide), by simp⟩
  have hofs : Fields 0x90 [0x01, 0x02, 0x04, 0x08] 0 [] :=
    .omitted (by decide) (.omitted (by decide) (.omitted (by decide) (.omitted (by decide) .nil)))
  have hsize : Fields 0x90 [0x10, 0x20, 0x40] 6 [6] :=
    .given (b := 6) (by decide) (.omitted (by decide) (.omitted (by decide) .nil))
  have hcopy : Instr.Written (.copy 0 6) [0x90, 6] := .copy (by decide) hofs hsize
  have hinsert (a b : UInt8) : Instr.Written (.insert [a, b]) [2, a, b] :=
    .insert (by decide) (by decide) rfl
  refine ⟨(by decide : 8 ≤ isizeMax),
    [0x90, 6, 2, UInt8.ofNat ((k + 1) / 256), UInt8.ofNat (k + 1)],
    ⟨[8], [8], rfl, height, height⟩, [.copy 0 6, .insert _],
    .cons hcopy (.cons (hinsert _ _) .nil), ?_, rfl⟩
  rw [List.forall_mem_cons, List.forall_mem_singleton]
  exact ⟨(by decide : 6 ≤ 8), trivial⟩

theorem entryPlace_succ (k : ℕ) : entryPlace (k + 1) - 20 = entryPlace k := by
  rw [entryPlace, entryPlace]
  omega

theorem blob_objAt (hk : k ≤ n) :
    ObjAt (blobPacks n) storedSpec (blobPack n) (entryPlace k) (blob k) := by
  induction k with
  | zero => exact .base (entryAt hk) rfl
  | succ k ih =>
    have hbase := ih (Nat.le_of_succ_le hk)
    rw [← entryPlace_succ] at hbase
    have hle : 20 ≤ entryPlace (k + 1) := by
      rw [entryPlace]
      omega
    exact .ofs (entryAt hk) rfl hle hbase (blobDelta_denotes k)

theorem blob_resolves (hk : k ≤ n) :
    Resolves (blobPacks n) storedSpec (0, entryPlace k) k (blob k) := by
  induction k with
  | zero => exact .base rfl (entryAt hk) rfl
  | succ k ih =>
    have hnext : (blobPacks n).baseOf 0 (entryOf (k + 1)) = .ok (0, entryPlace k) := by
      rw [← entryPlace_succ]
      rfl
    exact .delta rfl (entryAt hk) nofun hnext (ih (Nat.le_of_succ_le hk)) (blobDelta_denotes k)

theorem blob_locate (hk : k ≤ n) : (blobPacks n).locate k = some (0, entryPlace k) := by
  have hlookup : (blobPack n).lookup k = some (entryPlace k) := if_pos hk
  rw [RemotePacks.locate, blobPacks, locateFrom, hlookup]

theorem blobPacks_sound (hn : n < 2 ^ 16) : (blobPacks n).Sound storedSpec blob := by
  have hfits : (blobPack n).content.length ≤ isizeMax := by
    rw [blobPack, length_packBytes, isizeMax]
    omega
  have hlookup {p : Pack ℕ} (hp : p ∈ (blobPacks n).packs) {k off : ℕ}
      (h : p.lookup k = some off) : p = blobPack n ∧ k ≤ n ∧ off = entryPlace k := by
    obtain rfl := List.mem_singleton.mp hp
    rw [blobPack] at h
    dsimp only at h
    split_ifs at h with hk
    exact ⟨rfl, hk, (Option.some.inj h).symm⟩
  constructor
  · intro p hp k off h
    obtain ⟨rfl, hk, rfl⟩ := hlookup hp h
    exact ⟨blob k, blob_objAt hk⟩
  · intro p hp k off o h ho
    obtain ⟨rfl, hk, rfl⟩ := hlookup hp h
    exact ho.unique hfits (blob_objAt hk)
  · intro p hp
    obtain rfl := List.mem_singleton.mp hp
    exact hfits

theorem fresh_pack {i : ℕ} {p : Pack ℕ} (hp : (blobPacks n).packs[i]? = some p) :
    p = blobPack n :=
  List.mem_singleton.mp (List.mem_of_getElem? hp)

theorem fresh_reached (n : ℕ) : (fresh n).Reached (blobPacks n) where
  objects _ := .empty
  blocks i pi p j hp := by
    rw [fresh_pack hp]
    exact answering_reached _

theorem fresh_answers (n : ℕ) : (fresh n).Answers (blobPacks n) := by
  intro i pi p j hp
  rw [fresh_pack hp]
  exact fun _ _ _ _ => rfl

theorem fresh_reads (n : ℕ) : (fresh n).Reads (blobPacks n) True :=
  (fresh_reached n).blocks.reads.answering (fresh_answers n)

/-- `find` gives the blob that is 256 deltas away from its base, and `header` an error. -/
theorem header_of_256_deltas :
    (blobPacks 256).Sound storedSpec blob ∧ (fresh 256).Reached (blobPacks 256) ∧
      (fresh 256).Answers (blobPacks 256) ∧
      (find (blobPacks 256) (fresh 256) 256).2 = .ok (some (blob 256)) ∧
      header (blobPacks 256) (fresh 256) 256 = .error .chainTooDeep := by
  have hs := blobPacks_sound (n := 256) (by decide)
  have hreached := fresh_reached 256
  have hreads := fresh_reads 256
  have hobj := hreached.holds hs
  have hpos := blob_locate (le_refl 256)
  have hres := blob_resolves (le_refl 256)
  refine ⟨hs, hreached, fresh_answers 256, find_eq hs hreads hobj hpos hres (by decide),
    header_too_deep hs hreads hobj hpos fun h => ?_⟩
  exact absurd ((withinReach_empty_iff hs hres).mp h) (by decide)

/-- Both blobs of a pack of two come out with their headers, and its ranges are exact. -/
theorem find_header_readAt_two_blobs :
    (find (blobPacks 1) (fresh 1) 1).2 = .ok (some (blob 1)) ∧
      header (blobPacks 1) (fresh 1) 1 = .ok (some (.blob, 8)) ∧
      ∀ out, readAt (answering (packBytes 1)) (packBytes 1).length 12 64 = .ok out →
        out = slice (packBytes 1) (12, min (12 + 64) (packBytes 1).length) := by
  have hs := blobPacks_sound (n := 1) (by decide)
  have hreached := fresh_reached 1
  have hpos := blob_locate (le_refl 1)
  have hres := blob_resolves (le_refl 1)
  have hfind := find_eq hs (fresh_reads 1) (hreached.holds hs) hpos hres (by decide)
  obtain ⟨-, hexact, hread⟩ := find_header_readAt_exact (blobPacks 1) storedSpec blob hs 1 (fresh 1)
    (fresh 1) hreached hreached (fresh_answers 1) (blobPack 1) (List.mem_singleton.mpr rfl)
    (answering (packBytes 1)) (answering_reached _) 12 64 (by decide)
  have hreach : WithinReach (blobPacks 1) storedSpec (fresh 1).objects 256 0 (0, entryPlace 1) :=
    (withinReach_empty_iff hs hres).mpr (by decide)
  exact ⟨hfind, (hexact _ hfind).2.mpr ⟨_, hpos, hreach⟩, hread.mpr (.inl (by decide))⟩

end Blobs

end Walgit.Remote
