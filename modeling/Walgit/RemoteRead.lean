import Walgit.Deltas
import Walgit.Lib.Outcome
import Walgit.Objects

/-!
# Reading packs by ranges

The bytes of a pack stay in the store and are read in blocks of one megabyte
through a cache. A range is assembled from the blocks that cover it, and the
compressed data of an entry is fed to zlib piece by piece, up to the end of a
block each time.
-/

namespace Walgit.Remote

open Objects (Kind)
open Tiling (slice slice_append slice_slice length_slice)

@[irreducible] def blockSize : ℕ := 1024 * 1024

theorem blockSize_pos : 0 < blockSize := by
  rw [blockSize]
  decide

/-- The errors, by their cause; a loop that ran out of fuel is no error of the source. -/
inductive RemoteError
  | outOfFuel
  | store
  | shortRange (start stop got : ℕ)
  | beyondBlock
  | packIndex (pi : ℕ)
  | entry (off : ℕ)
  | truncated (off : ℕ)
  | inflate (off : ℕ)
  | inflated (off got expected : ℕ)
  | chainTooDeep
  | baseMissing
  | delta (pi off : ℕ) (stop : DeltaStop)
  | deltaHeader (stop : DeltaStop)
  deriving DecidableEq, Repr

/-- What one read meets: the blocks that are cached at its time, and how the
store answers for a range. -/
structure Blocks where
  cached : ℕ → Option Bytes
  get : ℕ → ℕ → Option Bytes

section Ranges

def block (b : Blocks) (size n : ℕ) : Except RemoteError Bytes :=
  let start := n * blockSize
  let stop := min (start + blockSize) size
  if stop ≤ start then .ok []
  else
    match b.cached n with
    | some body => .ok body
    | none =>
      match b.get start stop with
      | none => .error .store
      | some body =>
        if body.length ≠ stop - start then .error (.shortRange start stop body.length)
        else .ok body

/-- A part of a block, which has to lie in it. -/
def sliceBlock (body : Bytes) (s e : ℕ) : Except RemoteError Bytes :=
  if s ≤ e ∧ e ≤ body.length then .ok (slice body (s, e)) else .error .beyondBlock

/-- The loop over the blocks from number `n` on. -/
def assemble (off stop : ℕ) : ℕ → List Bytes → Except RemoteError Bytes
  | _, [] => .ok []
  | n, body :: bodies => do
    let bstart := n * blockSize
    let piece ← sliceBlock body (off - bstart) (min (stop - bstart) body.length)
    let rest ← assemble off stop (n + 1) bodies
    .ok (piece ++ rest)

def joinBlocks (off stop : ℕ) (bodies : List Bytes) : Except RemoteError Bytes :=
  let first := off / blockSize
  match bodies with
  | [body] => sliceBlock body (off - first * blockSize) (stop - first * blockSize)
  | _ => assemble off stop first bodies

/-- The numbers of the blocks from `off` to `stop`. -/
def blockNumbers (off stop : ℕ) : List ℕ :=
  List.range' (off / blockSize) ((stop - 1) / blockSize - off / blockSize + 1)

/-- `read_at`; the sum of position and length is one of 64 bits. -/
def readAt (b : Blocks) (size off len : ℕ) : Except RemoteError Bytes :=
  let stop := min ((off + len) % 2 ^ 64) size
  if stop ≤ off then .ok []
  else do
    let bodies ← (blockNumbers off stop).mapM (block b size)
    joinBlocks off stop bodies

def blockOf (content : Bytes) (n : ℕ) : Bytes :=
  slice content (n * blockSize, min (n * blockSize + blockSize) content.length)

/-- Cached blocks are the pack's, and the store answers with a beginning of the range. -/
structure Blocks.Sound (b : Blocks) (content : Bytes) : Prop where
  cached : ∀ n body, b.cached n = some body → body = blockOf content n
  get : ∀ start stop body, b.get start stop = some body → body <+: slice content (start, stop)

/-- The store answers every read with the whole range. -/
def Blocks.Answers (b : Blocks) (content : Bytes) : Prop :=
  ∀ start stop, start < stop → stop ≤ content.length →
    b.get start stop = some (slice content (start, stop))

variable {b : Blocks} {content body out : Bytes} {n off len stop k : ℕ}

theorem length_blockOf : (blockOf content n).length =
    min (n * blockSize + blockSize) content.length - n * blockSize :=
  length_slice (Nat.min_le_right _ _)

/-- An error of a read that the store need not answer. -/
def Unanswered (answers : Prop) (e : RemoteError) : Prop := e ≠ .outOfFuel ∧ ¬ answers

theorem block_ends (h : b.Sound content) : Concludes (Unanswered (b.Answers content))
    (· = blockOf content n) (block b content.length n) := by
  have hlen := @length_blockOf content n
  rw [block]
  split_ifs with hempty
  · exact (List.eq_nil_of_length_eq_zero (by omega)).symm
  have hfull : slice content (n * blockSize, min (n * blockSize + blockSize) content.length) =
      blockOf content n := rfl
  have hasked (ha : b.Answers content) := ha _ _ (Nat.not_le.mp hempty) (Nat.min_le_right _ _)
  cases hcached : b.cached n with
  | some body => exact h.cached n body hcached
  | none =>
    cases hget : b.get (n * blockSize) (min (n * blockSize + blockSize) content.length) with
    | none =>
      refine ⟨nofun, fun ha => ?_⟩
      rw [hasked ha] at hget
      cases hget
    | some body =>
      dsimp only
      split_ifs with hshort
      · refine ⟨nofun, fun ha => hshort ?_⟩
        rw [hasked ha, hfull] at hget
        rw [← Option.some.inj hget, hlen]
      · refine (h.get _ _ _ hget).eq_of_length ?_
        rw [hfull, hlen]
        exact not_not.mp hshort

theorem sliceBlock_eq {lo hi s e : ℕ} (h : s ≤ e) (he : lo + e ≤ hi) (hi' : hi ≤ content.length) :
    sliceBlock (slice content (lo, hi)) s e = .ok (slice content (lo + s, lo + e)) := by
  have hlen : (slice content (lo, hi)).length = hi - lo := length_slice hi'
  rw [sliceBlock, hlen, if_pos ⟨h, by omega⟩, slice_slice he]

theorem slice_eq_nil {lo hi : ℕ} (h : hi ≤ lo) : slice content (lo, hi) = [] := by
  rw [slice, Nat.sub_eq_zero_of_le h, List.take_zero]

theorem piece_eq {lo hi : ℕ} (hi' : hi ≤ content.length) (hoff : off < hi) (hlo : lo < stop)
    (hos : off < stop) (hlh : lo ≤ hi) :
    sliceBlock (slice content (lo, hi)) (off - lo)
        (min (stop - lo) (slice content (lo, hi)).length) =
      .ok (slice content (max off lo, min stop hi)) := by
  have hstart : lo + (off - lo) = max off lo := by omega
  have hend : lo + min (stop - lo) (hi - lo) = min stop hi := by omega
  have hle : off - lo ≤ min (stop - lo) (hi - lo) := by omega
  rw [length_slice hi', sliceBlock_eq hle (hend.trans_le (Nat.min_le_right _ _)) hi', hstart, hend]

theorem piece_append {lo hi : ℕ} (hlh : lo ≤ hi) (hoff : off ≤ hi) :
    slice content (max off lo, min stop hi) ++ slice content (max off hi, stop) =
      slice content (max off lo, stop) := by
  rw [Nat.max_eq_right hoff]
  by_cases hmore : hi ≤ stop
  · rw [Nat.min_eq_right hmore, slice_append (Nat.max_le.mpr ⟨hoff, hlh⟩) hmore]
  · have hle := (Nat.not_le.mp hmore).le
    rw [Nat.min_eq_left hle, slice_eq_nil hle, List.append_nil]

theorem succ_start (n : ℕ) : (n + 1) * blockSize = n * blockSize + blockSize :=
  Nat.succ_mul n blockSize

theorem assemble_eq (hstop : stop ≤ content.length) (hoff : off < stop)
    (hfirst : off < n * blockSize + blockSize) (hlast : stop ≤ (n + k) * blockSize)
    (hin : ∀ m, n ≤ m → m < n + k → m * blockSize < stop) :
    assemble off stop n ((List.range' n k).map (blockOf content)) =
      .ok (slice content (max off (n * blockSize), stop)) := by
  induction k generalizing n with
  | zero =>
    have hend : stop ≤ max off (n * blockSize) := hlast.trans (Nat.le_max_right _ _)
    rw [List.range'_zero, List.map_nil, assemble, slice_eq_nil hend]
  | succ k ih =>
    have hn := hin n le_rfl (Nat.lt_add_of_pos_right k.succ_pos)
    have hlater : off < (n + 1) * blockSize + blockSize := by
      rw [succ_start]
      exact Nat.lt_add_right _ hfirst
    have hlast' : stop ≤ (n + 1 + k) * blockSize := by rwa [Nat.add_right_comm]
    have hrest := ih hlater hlast' fun m hm hk => hin m (Nat.le_of_succ_le hm) (by omega)
    have hempty : off < min (n * blockSize + blockSize) content.length :=
      Nat.lt_min.mpr ⟨hfirst, hoff.trans_le hstop⟩
    have hblock : n * blockSize ≤ min (n * blockSize + blockSize) content.length :=
      Nat.le_min.mpr ⟨Nat.le_add_right _ _, (hn.trans_le hstop).le⟩
    have hpiece := piece_eq (Nat.min_le_right _ _) hempty hn hoff hblock
    rw [← Nat.min_assoc, Nat.min_right_comm, Nat.min_eq_left hstop] at hpiece
    rw [List.range'_succ, List.map_cons, assemble]
    rw [blockOf, hpiece, hrest, ok_bind, ok_bind, succ_start,
      piece_append (Nat.le_add_right _ _) hfirst.le]

theorem assemble_blocks (hstop : stop ≤ content.length) (hoff : off < stop) :
    assemble off stop (off / blockSize) ((blockNumbers off stop).map (blockOf content)) =
      .ok (slice content (off, stop)) := by
  have hfirst : off / blockSize * blockSize ≤ off := Nat.div_mul_le_self _ _
  have hnext : off < off / blockSize * blockSize + blockSize := Nat.lt_div_mul_add blockSize_pos
  have hlast : stop - 1 < (stop - 1) / blockSize * blockSize + blockSize :=
    Nat.lt_div_mul_add blockSize_pos
  have hdiv : off / blockSize ≤ (stop - 1) / blockSize := Nat.div_le_div_right (by omega)
  have hcount : off / blockSize + ((stop - 1) / blockSize - off / blockSize + 1) =
      (stop - 1) / blockSize + 1 := by omega
  have hall : stop ≤ (off / blockSize + ((stop - 1) / blockSize - off / blockSize + 1)) *
      blockSize := by
    rw [hcount, succ_start]
    omega
  have hin : ∀ m, off / blockSize ≤ m →
      m < off / blockSize + ((stop - 1) / blockSize - off / blockSize + 1) →
      m * blockSize < stop := by
    intro m _ hm
    rw [hcount, Nat.lt_succ_iff, Nat.le_div_iff_mul_le blockSize_pos] at hm
    omega
  rw [blockNumbers, assemble_eq hstop hoff hnext hall hin, Nat.max_eq_left hfirst]

theorem sliceBlock_only (hstop : stop ≤ content.length) (hoff : off < stop)
    (honly : (stop - 1) / blockSize = off / blockSize) :
    sliceBlock (blockOf content (off / blockSize)) (off - off / blockSize * blockSize)
      (stop - off / blockSize * blockSize) = .ok (slice content (off, stop)) := by
  have hfirst : off / blockSize * blockSize ≤ off := Nat.div_mul_le_self _ _
  have hlast : stop - 1 < (stop - 1) / blockSize * blockSize + blockSize :=
    Nat.lt_div_mul_add blockSize_pos
  rw [honly] at hlast
  rw [blockOf]
  generalize off / blockSize * blockSize = lo at hfirst hlast
  have hend : lo + (stop - lo) = stop := Nat.add_sub_cancel' (hfirst.trans hoff.le)
  have hin : lo + (stop - lo) ≤ min (lo + blockSize) content.length := by
    rw [hend]
    exact Nat.le_min.mpr ⟨Nat.le_of_pred_lt hlast, hstop⟩
  rw [sliceBlock_eq (Nat.sub_le_sub_right hoff.le lo) hin (Nat.min_le_right _ _),
    Nat.add_sub_cancel' hfirst, hend]

theorem joinBlocks_eq (hstop : stop ≤ content.length) (hoff : off < stop) :
    joinBlocks off stop ((blockNumbers off stop).map (blockOf content)) =
      .ok (slice content (off, stop)) := by
  have hall := assemble_blocks hstop hoff
  rw [blockNumbers] at hall ⊢
  cases hcount : (stop - 1) / blockSize - off / blockSize with
  | zero =>
    have hdiv : off / blockSize ≤ (stop - 1) / blockSize := Nat.div_le_div_right (by omega)
    exact sliceBlock_only hstop hoff (by omega)
  | succ k =>
    rw [hcount] at hall
    exact hall

theorem readAt_ends (h : b.Sound content) : Concludes (Unanswered (b.Answers content))
    (· = slice content (off, min ((off + len) % 2 ^ 64) content.length))
    (readAt b content.length off len) := by
  rw [readAt]
  split_ifs with hempty
  · exact (slice_eq_nil hempty).symm
  · refine (Concludes.mapM fun n _ => block_ends h).bind fun bodies hbodies => ?_
    rw [hbodies, joinBlocks_eq (Nat.min_le_right _ _) (Nat.not_le.mp hempty)]
    exact rfl

theorem readAt_exact_iff (h : b.Sound content) (hlen : len < 2 ^ 64)
    (hsize : content.length < 2 ^ 64) :
    (∀ out, readAt b content.length off len = .ok out →
        out = slice content (off, min (off + len) content.length)) ↔
      off + len < 2 ^ 64 ∨ content.length ≤ off := by
  constructor
  · intro hexact
    by_contra hout
    have hwrap : ¬ off + len < 2 ^ 64 := fun hlt => hout (.inl hlt)
    have hin : off < content.length := Nat.not_le.mp fun hle => hout (.inr hle)
    have hmod : (off + len) % 2 ^ 64 < off := by omega
    have hread : readAt b content.length off len = .ok [] := by
      rw [readAt, if_pos ((Nat.min_le_left _ _).trans hmod.le)]
    have hempty := congrArg List.length (hexact [] hread)
    rw [length_slice (Nat.min_le_right _ _), List.length_nil] at hempty
    omega
  · intro hcond out hout
    rw [(readAt_ends h).of_ok hout]
    rcases hcond with hlt | hle
    · rw [Nat.mod_eq_of_lt hlt]
    · rw [slice_eq_nil ((Nat.min_le_right _ _).trans hle),
        slice_eq_nil ((Nat.min_le_right _ _).trans hle)]

/-- What the block cache can hold of a pack: blocks that were read, less the evicted ones. -/
inductive BlockCache (content : Bytes) : (ℕ → Option Bytes) → Prop
  | empty : BlockCache content fun _ => none
  | evict {c : ℕ → Option Bytes} (keep : ℕ → Bool) (hc : BlockCache content c) :
      BlockCache content fun n => if keep n then c n else none
  | insert {c : ℕ → Option Bytes} {get : ℕ → ℕ → Option Bytes} {n : ℕ} {body : Bytes}
      (hc : BlockCache content c)
      (hget : ∀ start stop body, get start stop = some body → body <+: slice content (start, stop))
      (hread : block ⟨c, get⟩ content.length n = .ok body) :
      BlockCache content (Function.update c n (some body))

theorem BlockCache.sound {c : ℕ → Option Bytes} (hc : BlockCache content c) :
    ∀ n body, c n = some body → body = blockOf content n := by
  induction hc with
  | empty => nofun
  | evict keep _ ih =>
    intro n body hn
    dsimp only at hn
    split_ifs at hn
    exact ih n body hn
  | @insert c get n body _ hget hread ih =>
    intro m body' hm
    rw [Function.update_apply] at hm
    split_ifs at hm with hmn
    · obtain rfl := Option.some.inj hm
      rw [hmn]
      exact (block_ends ⟨ih, hget⟩).of_ok hread
    · exact ih m body' hm

/-- A read meets blocks that the cache can hold at its time, and a store that gives nothing but a
beginning of the range asked for. -/
structure Blocks.Reached (b : Blocks) (content : Bytes) : Prop where
  cached : ∀ n, ∃ c, BlockCache content c ∧ b.cached n = c n
  get : ∀ start stop body, b.get start stop = some body → body <+: slice content (start, stop)

theorem Blocks.Reached.sound (h : b.Reached content) : b.Sound content where
  cached n body hn := by
    obtain ⟨c, hc, heq⟩ := h.cached n
    exact hc.sound n body (heq.symm.trans hn)
  get := h.get

end Ranges

end Walgit.Remote
