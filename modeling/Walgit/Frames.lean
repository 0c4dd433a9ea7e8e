import Mathlib.Order.Bounds.Basic
import Walgit.Lib.Leb128

/-!
# Frames of the log

A log object is a sequence of frames, each an entry with its length in front.
It grows by appending frames, and a reader takes the frames that are whole and
leaves one that is cut at the end.
-/

namespace Walgit.Frame

abbrev Bytes := List UInt8

/-- `prost`: lengths and messages as bytes. The reader of a length also gives
the bytes after it, and nothing if the length is cut or no number of 64 bits. -/
structure Prost (LogEntry : Type) where
  encodeVarint : ℕ → Bytes
  decodeVarint : Bytes → Option (ℕ × Bytes)
  encode : LogEntry → Bytes
  decode : Bytes → Except String LogEntry

variable {LogEntry : Type}

section Code

variable (P : Prost LogEntry)

def encodeEntry (e : LogEntry) : Bytes :=
  P.encodeVarint (P.encode e).length ++ P.encode e

def encodeEntries (es : List LogEntry) : Bytes := es.flatMap (encodeEntry P)

/-- The loop of `decode_entries`, for at most as many passes as it is given;
a length has 64 bits, like `usize`. -/
def decodeLoop (buf : Bytes) : ℕ → List LogEntry → ℕ → Option (Except String (List LogEntry × ℕ))
  | 0, _, _ => none
  | n + 1, out, pos =>
    match P.decodeVarint (buf.drop pos) with
    | none => some (.ok (out, pos))
    | some (len, probe) =>
      if probe.length < len then some (.ok (out, pos))
      else
        match P.decode (probe.take len) with
        | .error e => some (.error e)
        | .ok e => decodeLoop buf n (out ++ [e]) (buf.length - probe.length + len)

def decodeEntries (buf : Bytes) : Option (Except String (List LogEntry × ℕ)) :=
  decodeLoop P buf (buf.length + 1) [] 0

/-- What is documented of `prost`: lengths and messages are read back, a length
that is cut is not read, and a message has fewer than 2⁶⁴ bytes. -/
structure Prost.Lawful : Prop where
  decodeVarint_append : ∀ n < 2 ^ 64, ∀ d, P.decodeVarint (P.encodeVarint n ++ d) = some (n, d)
  decodeVarint_cut : ∀ n < 2 ^ 64, ∀ d, d <+: P.encodeVarint n → d ≠ P.encodeVarint n →
    P.decodeVarint d = none
  decode_encode : ∀ e, P.decode (P.encode e) = .ok e
  length_lt : ∀ e, (P.encode e).length < 2 ^ 64

/-- How many of the frames lie wholly in the first `len` bytes. -/
def IsWhole (es : List LogEntry) (len k : ℕ) : Prop :=
  IsGreatest {j | j ≤ es.length ∧ (encodeEntries P (es.take j)).length ≤ len} k

/-- Any beginning of the frames gives the entries of those that are whole, and
where the last of them ends. -/
def DecodesPrefixes : Prop :=
  ∀ es p, p <+: encodeEntries P es →
    ∃ k, IsWhole P es p.length k ∧
      decodeEntries P p = some (.ok (es.take k, (encodeEntries P (es.take k)).length))

end Code

section Lengths

variable {P : Prost LogEntry} {p : Bytes} {es : List LogEntry} {e : LogEntry} {k len : ℕ}

theorem Prost.Lawful.encodeVarint_ne_nil (h : P.Lawful) {n : ℕ} (hn : n < 2 ^ 64) :
    P.encodeVarint n ≠ [] := by
  intro hnil
  obtain ⟨m, hm, hne⟩ : ∃ m < 2 ^ 64, m ≠ n := by
    by_cases h0 : n = 0
    · exact ⟨1, by decide, by omega⟩
    · exact ⟨0, by decide, Ne.symm h0⟩
  have hread := h.decodeVarint_append n hn (P.encodeVarint m)
  have hother := h.decodeVarint_append m hm []
  rw [hnil, List.nil_append] at hread
  rw [List.append_nil, hread] at hother
  exact hne (congrArg Prod.fst (Option.some.inj hother)).symm

theorem Prost.Lawful.decodeVarint_nil (h : P.Lawful) : P.decodeVarint [] = none :=
  h.decodeVarint_cut 0 (by decide) [] List.nil_prefix
    (h.encodeVarint_ne_nil (by decide)).symm

theorem Prost.Lawful.length_encodeEntry_pos (h : P.Lawful) (e : LogEntry) :
    0 < (encodeEntry P e).length := by
  rw [encodeEntry, List.length_append]
  exact Nat.add_pos_left (List.length_pos_iff.mpr (h.encodeVarint_ne_nil (h.length_lt e))) _

theorem encodeEntries_cons : encodeEntries P (e :: es) = encodeEntry P e ++ encodeEntries P es :=
  List.flatMap_cons

theorem length_take_succ : (encodeEntries P ((e :: es).take (k + 1))).length =
    (encodeEntry P e).length + (encodeEntries P (es.take k)).length := by
  rw [List.take_succ_cons, encodeEntries_cons, List.length_append]

theorem isWhole_nil : IsWhole P [] len 0 :=
  ⟨⟨le_rfl, Nat.zero_le _⟩, fun _ hj => hj.1⟩

theorem isWhole_cut (h : len < (encodeEntry P e).length) : IsWhole P (e :: es) len 0 := by
  refine ⟨⟨Nat.zero_le _, Nat.zero_le _⟩, fun j hj => ?_⟩
  cases j with
  | zero => exact le_rfl
  | succ j =>
    have hlen := hj.2
    rw [length_take_succ] at hlen
    omega

theorem IsWhole.cons (h : IsWhole P es len k) :
    IsWhole P (e :: es) ((encodeEntry P e).length + len) (k + 1) := by
  refine ⟨⟨Nat.succ_le_succ h.1.1, ?_⟩, fun j hj => ?_⟩
  · rw [length_take_succ]
    exact Nat.add_le_add_left h.1.2 _
  · cases j with
    | zero => exact Nat.zero_le _
    | succ j =>
      have hlen := hj.2
      rw [length_take_succ] at hlen
      exact Nat.succ_le_succ (h.2 ⟨Nat.le_of_succ_le_succ hj.1, Nat.le_of_add_le_add_left hlen⟩)

theorem isWhole_all : IsWhole P es (encodeEntries P es).length es.length := by
  refine ⟨⟨le_rfl, ?_⟩, fun j hj => hj.1⟩
  rw [List.take_length]

end Lengths

section Loop

variable {P : Prost LogEntry} {buf p d : Bytes} {out es : List LogEntry} {e : LogEntry}
  {n pos k : ℕ}

theorem decodeLoop_frame (h : P.Lawful) (hd : buf.drop pos = encodeEntry P e ++ d) :
    decodeLoop P buf (n + 1) out pos =
      decodeLoop P buf n (out ++ [e]) (pos + (encodeEntry P e).length) := by
  have hpos := h.length_encodeEntry_pos e
  have hlen := congrArg List.length hd
  rw [List.length_drop, List.length_append] at hlen
  rw [encodeEntry, List.append_assoc] at hd
  have hnext : buf.length - (P.encode e ++ d).length + (P.encode e).length =
      pos + (encodeEntry P e).length := by
    rw [encodeEntry, List.length_append] at hlen hpos ⊢
    rw [List.length_append]
    omega
  rw [decodeLoop, hd, h.decodeVarint_append _ (h.length_lt e)]
  dsimp only
  rw [if_neg (by rw [List.length_append]; omega), List.take_left, h.decode_encode, hnext]

theorem decodeLoop_nil (h : P.Lawful) (hd : buf.drop pos = []) :
    decodeLoop P buf (n + 1) out pos = some (.ok (out, pos)) := by
  rw [decodeLoop, hd, h.decodeVarint_nil]

theorem decodeLoop_cut (h : P.Lawful) (hd : buf.drop pos <+: encodeEntry P e)
    (hne : buf.drop pos ≠ encodeEntry P e) :
    decodeLoop P buf (n + 1) out pos = some (.ok (out, pos)) := by
  have hvarint : P.encodeVarint (P.encode e).length <+: encodeEntry P e := List.prefix_append _ _
  by_cases hread : P.encodeVarint (P.encode e).length <+: buf.drop pos
  · obtain ⟨m, hm⟩ := hread
    rw [← hm, encodeEntry, List.prefix_append_right_inj] at hd
    have hshort : m.length < (P.encode e).length :=
      lt_of_le_of_ne hd.length_le fun heq => hne (by rw [← hm, hd.eq_of_length heq, encodeEntry])
    rw [decodeLoop, ← hm, h.decodeVarint_append _ (h.length_lt e)]
    exact if_pos hshort
  · have hcut := (List.prefix_or_prefix_of_prefix hd hvarint).resolve_right hread
    rw [decodeLoop, h.decodeVarint_cut _ (h.length_lt e) _ hcut fun heq => hread (heq ▸ hcut)]

theorem stopped_eq : some (Except.ok (ε := String) (out, pos)) =
    some (.ok (out ++ es.take 0, pos + (encodeEntries P (es.take 0)).length)) := by
  rw [List.take_zero, List.append_nil]
  rfl

theorem decodeLoop_append_left (h : P.Lawful) (hp : p <+: encodeEntries P es)
    (hd : buf.drop pos = p) (hn : p.length < n) :
    ∃ k, IsWhole P es p.length k ∧ decodeLoop P buf n out pos =
      some (.ok (out ++ es.take k, pos + (encodeEntries P (es.take k)).length)) := by
  induction es generalizing p out pos n with
  | nil =>
    obtain ⟨n, rfl⟩ := Nat.exists_eq_add_of_le' (Nat.zero_lt_of_lt hn)
    exact ⟨0, isWhole_nil,
      (decodeLoop_nil h (hd.trans (List.prefix_nil.mp hp))).trans stopped_eq⟩
  | cons e es ih =>
    obtain ⟨n, rfl⟩ := Nat.exists_eq_add_of_le' (Nat.zero_lt_of_lt hn)
    rw [encodeEntries_cons] at hp
    by_cases hframe : encodeEntry P e <+: p
    · obtain ⟨d, rfl⟩ := hframe
      rw [List.prefix_append_right_inj] at hp
      have hrest : buf.drop (pos + (encodeEntry P e).length) = d := by
        rw [← List.drop_drop, hd, List.drop_left]
      have hfuel : d.length < n := by
        have hpos := h.length_encodeEntry_pos e
        rw [List.length_append] at hn
        omega
      obtain ⟨k, hk, hloop⟩ := @ih d (out ++ [e]) n _ hp hrest hfuel
      refine ⟨k + 1, ?_, ?_⟩
      · rw [List.length_append]
        exact hk.cons
      · rw [decodeLoop_frame h hd, hloop, length_take_succ, List.take_succ_cons,
          List.append_assoc, List.singleton_append, Nat.add_assoc]
    · have hcut : p <+: encodeEntry P e :=
        (List.prefix_or_prefix_of_prefix hp (List.prefix_append _ _)).resolve_right hframe
      have hne : p ≠ encodeEntry P e := fun heq => hframe (heq ▸ List.prefix_rfl)
      have hshort : p.length < (encodeEntry P e).length :=
        lt_of_le_of_ne hcut.length_le fun heq => hne (hcut.eq_of_length heq)
      subst hd
      exact ⟨0, isWhole_cut hshort, (decodeLoop_cut h hcut hne).trans stopped_eq⟩

end Loop

section Whole

variable {P : Prost LogEntry}

/-- Every beginning of the bytes of a log's entries is decoded up to the last
whole frame, and the bytes of all entries to these entries. -/
theorem log_frames_decode (P : Prost LogEntry) (h : P.Lawful) :
    DecodesPrefixes P ∧ ∀ es, decodeEntries P (encodeEntries P es) =
      some (.ok (es, (encodeEntries P es).length)) := by
  have hprefixes : DecodesPrefixes P := fun es p hp => by
    obtain ⟨k, hk, hloop⟩ :=
      @decodeLoop_append_left _ P p p [] es (p.length + 1) 0 h hp List.drop_zero
      (Nat.lt_succ_self _)
    rw [List.nil_append, Nat.zero_add] at hloop
    exact ⟨k, hk, hloop⟩
  refine ⟨hprefixes, fun es => ?_⟩
  obtain ⟨k, hk, hall⟩ := hprefixes es _ List.prefix_rfl
  obtain rfl := hk.unique isWhole_all
  rwa [List.take_length] at hall

end Whole

section Numbers

/-- Lengths as `prost` writes them, in groups of seven bits and at most ten
bytes, with any format of the messages. -/
def Prost.ofMessages (encode : LogEntry → Bytes) (decode : Bytes → Except String LogEntry) :
    Prost LogEntry where
  encodeVarint := Leb128.encode
  decodeVarint d := (Leb128.decode 10 d).filter fun r => r.1 < 2 ^ 64
  encode := encode
  decode := decode

theorem lawful_ofMessages {encode : LogEntry → Bytes} {decode : Bytes → Except String LogEntry}
    (h : ∀ e, decode (encode e) = .ok e) (hlen : ∀ e, (encode e).length < 2 ^ 64) :
    (Prost.ofMessages encode decode).Lawful where
  decodeVarint_append n hn d := by
    have hten : (Leb128.encode n).length ≤ 10 := Leb128.length_encode_le (by omega)
    rw [Prost.ofMessages]
    dsimp only
    rw [(Leb128.reads_encode n).decode_append hten, Option.filter_some]
    exact if_pos (decide_eq_true hn)
  decodeVarint_cut n _ d hcut hne := by
    rw [Prost.ofMessages]
    dsimp only
    rw [(Leb128.reads_encode n).decode_cut hcut hne, Option.filter_none]
  decode_encode := h
  length_lt := hlen

/-- An entry of which only the number is set, as `prost` writes it: nothing for
zero, else the field's tag and the number. -/
def encodeSeq (seq : UInt64) : Bytes := if seq = 0 then [] else 0x08 :: Leb128.encode seq.toNat

def decodeSeq : Bytes → Except String UInt64
  | [] => .ok 0
  | tag :: d =>
    match Leb128.decode 10 d with
    | some (n, []) => if tag = 0x08 ∧ n < 2 ^ 64 then .ok (.ofNat n) else .error "invalid key"
    | _ => .error "invalid varint"

theorem decodeSeq_encodeSeq (seq : UInt64) : decodeSeq (encodeSeq seq) = .ok seq := by
  rw [encodeSeq]
  split_ifs with hzero
  · rw [hzero]
    rfl
  · have hten : (Leb128.encode seq.toNat).length ≤ 10 :=
      Leb128.length_encode_le (seq.toNat_lt.trans (by decide))
    have hread := (Leb128.reads_encode seq.toNat).decode_append hten []
    rw [List.append_nil] at hread
    rw [decodeSeq, hread]
    dsimp only
    rw [if_pos ⟨rfl, seq.toNat_lt⟩, UInt64.ofNat_toNat]

theorem length_encodeSeq (seq : UInt64) : (encodeSeq seq).length < 2 ^ 64 := by
  have hten : (Leb128.encode seq.toNat).length ≤ 10 :=
    Leb128.length_encode_le (seq.toNat_lt.trans (by decide))
  rw [encodeSeq]
  split_ifs
  · decide
  · rw [List.length_cons]
    omega

def seqFrames : Prost UInt64 := .ofMessages encodeSeq decodeSeq

theorem seqFrames_lawful : seqFrames.Lawful :=
  lawful_ofMessages decodeSeq_encodeSeq length_encodeSeq

theorem log_frames_decode_seqs :
    DecodesPrefixes seqFrames ∧ ∀ es, decodeEntries seqFrames (encodeEntries seqFrames es) =
      some (.ok (es, (encodeEntries seqFrames es).length)) :=
  log_frames_decode seqFrames seqFrames_lawful

/-- An empty frame, and a second one that is cut in its number. -/
example : decodeEntries seqFrames [0, 3, 8, 200] = some (.ok ([0], 1)) := by rfl

end Numbers

end Walgit.Frame
