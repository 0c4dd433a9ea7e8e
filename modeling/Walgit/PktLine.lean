import Walgit.Lib.Hex
import Walgit.Lib.Pieces
import Walgit.Lib.Utf8

/-!
# Packet lines

A packet is its length in four hexadecimal digits, which count themselves, and
its payload; the lengths 0, 1 and 2 are the flush, delimiter and response-end
packets. The reader takes the digits in either case and asks its source until
a packet is complete. The writers are three, and all of them write the digits
in lower case.
-/

namespace Walgit.Pkt

abbrev Bytes := List UInt8

def ascii (s : String) : Bytes := s.toList.map fun c => .ofNat c.toNat

def utf8 (s : String) : Bytes := Utf8.encode s.toList

def maxPktData : ℕ := 65516

inductive PktLine
  | data (b : Bytes)
  | flush
  | delim
  | responseEnd
  deriving DecidableEq, Repr

inductive PktError
  | shortHeader
  | nonHex (b : UInt8)
  | length (len : ℕ)
  | unexpectedEof
  deriving DecidableEq, Repr

def PktError.message : PktError → String
  | .shortHeader => "short pkt-line header"
  | .nonHex b => "non-hex pkt-line char 0x" ++ String.ofList (Nat.toDigits 16 b.toNat)
  | .length len => "invalid pkt-line length " ++ toString len
  | .unexpectedEof => "early eof"

section Reader

def parsePktLen (hdr : Bytes) : Except PktError ℕ :=
  hdr.foldlM (fun val b =>
    match Hex.value? b with
    | some d => .ok (val * 16 + d)
    | none => .error (.nonHex b)) 0

/-- `read_pkt_line`: nothing at a clean end of the source. -/
def readPktLine (r : Pieces UInt8) : Except PktError (Option PktLine × Pieces UInt8) :=
  let hdr := r.readUpTo 4
  if hdr.1.length = 0 then .ok (none, hdr.2)
  else if hdr.1.length < 4 then .error .shortHeader
  else
    match parsePktLen hdr.1 with
    | .error e => .error e
    | .ok len =>
      if len = 0 then .ok (some .flush, hdr.2)
      else if len = 1 then .ok (some .delim, hdr.2)
      else if len = 2 then .ok (some .responseEnd, hdr.2)
      else if len < 4 then .error (.length len)
      else
        let buf := hdr.2.readUpTo (len - 4)
        if buf.1.length < len - 4 then .error .unexpectedEof
        else .ok (some (.data buf.1), buf.2)

end Reader

section Writers

/-- `{len:04x}`. -/
def pktLenHex (len : ℕ) : Bytes :=
  (List.leftpad 4 '0' (Nat.toDigits 16 len)).map fun c => .ofNat c.toNat

def writePktLine (data : Bytes) : Bytes :=
  if data = [] then ascii "0004"
  else (slices maxPktData data).flatMap fun chunk => pktLenHex (chunk.length + 4) ++ chunk

def encodeData (data : Bytes) : Bytes :=
  ((List.range 4).map fun i =>
    let nibble := ((data.length + 4) >>> (12 - 4 * i)) &&& 0xf
    if nibble < 10 then UInt8.ofNat (48 + nibble) else .ofNat (97 + nibble - 10)) ++ data

def encodeFlush : Bytes := ascii "0000"

def encodeDelim : Bytes := ascii "0001"

def encodeResponseEnd : Bytes := ascii "0002"

def maxDataLen : ℕ := 65516

def hexTable : List UInt8 := ascii "0123456789abcdef"

/-- `encode_line` of the server; nothing where the assertion on the length fails. -/
def encodeLine (data : Bytes) : Option Bytes :=
  let len := data.length + 4
  if data.length ≤ maxDataLen then
    some ([hexTable.getD ((len >>> 12) &&& 0xf) 0, hexTable.getD ((len >>> 8) &&& 0xf) 0,
      hexTable.getD ((len >>> 4) &&& 0xf) 0, hexTable.getD (len &&& 0xf) 0] ++ data)
  else none

end Writers

section Format

def PktLine.code : PktLine → ℕ
  | .data b => b.length + 4
  | .flush => 0
  | .delim => 1
  | .responseEnd => 2

def PktLine.payload : PktLine → Bytes
  | .data b => b
  | _ => []

/-- The packet's length can be written, and git's limit is kept. -/
def PktLine.Fits (p : PktLine) : Prop := p.payload.length ≤ maxPktData

/-- The encoding of a packet with the digits in lower case. -/
def PktLine.encode (p : PktLine) : Bytes := Hex.four p.code ++ p.payload

/-- Digits that say the packet's length, in either case. -/
structure HeaderOf (p : PktLine) (hdr : Bytes) : Prop where
  digits : hdr.map Hex.lower = Hex.four p.code
  small : p.code < 16 ^ 4

/-- The bytes are the packets one after the other, up to the case of the digits. -/
inductive Framed : List PktLine → Bytes → Prop
  | nil : Framed [] []
  | cons {p : PktLine} {ps : List PktLine} {hdr s : Bytes} (h : HeaderOf p hdr)
      (hs : Framed ps s) : Framed (p :: ps) (hdr ++ (p.payload ++ s))

variable {p : PktLine} {hdr s : Bytes} {n : ℕ}

theorem parsePktLen_four (h : hdr.map Hex.lower = Hex.four n) (hn : n < 16 ^ 4) :
    parsePktLen hdr = .ok n := by
  match hdr with
  | [a, b, c, d] =>
    rw [Hex.four, List.map_cons, List.map_cons, List.map_cons, List.map_cons, List.map_nil,
      List.cons.injEq, List.cons.injEq, List.cons.injEq, List.cons.injEq] at h
    obtain ⟨ha, hb, hc, hd, -⟩ := h
    have hval : ∀ {x : UInt8} {k : ℕ}, k < 16 → Hex.lower x = Hex.digit k →
        Hex.value? x = some k := by
      intro x k hk hx
      rw [← Hex.value?_lower, hx, Hex.value?_digit hk]
    simp only [parsePktLen, List.foldlM_cons, List.foldlM_nil,
      hval (Nat.mod_lt _ (by decide)) ha, hval (Nat.mod_lt _ (by decide)) hb,
      hval (Nat.mod_lt _ (by decide)) hc, hval (Nat.mod_lt _ (by decide)) hd]
    have hfour := Hex.four_value hn
    change Except.ok _ = Except.ok n
    congr 1
    omega
  | [] | [_] | [_, _] | [_, _, _] | _ :: _ :: _ :: _ :: _ :: _ =>
    have hlen := congrArg List.length h
    simp at hlen

theorem four_of_parsePktLen (hlen : hdr.length = 4) (h : parsePktLen hdr = .ok n) :
    hdr.map Hex.lower = Hex.four n ∧ n < 16 ^ 4 := by
  match hdr with
  | [a, b, c, d] =>
    simp only [parsePktLen, List.foldlM_cons, List.foldlM_nil] at h
    cases ha : Hex.value? a with
    | none => rw [ha] at h; cases h
    | some va =>
    cases hb : Hex.value? b with
    | none => rw [ha, hb] at h; cases h
    | some vb =>
    cases hc : Hex.value? c with
    | none => rw [ha, hb, hc] at h; cases h
    | some vc =>
    cases hd : Hex.value? d with
    | none => rw [ha, hb, hc, hd] at h; cases h
    | some vd =>
    rw [ha, hb, hc, hd] at h
    have hn : (((0 * 16 + va) * 16 + vb) * 16 + vc) * 16 + vd = n := Except.ok.inj h
    rw [Nat.zero_mul, Nat.zero_add] at hn
    obtain ⟨ha16, hla⟩ := Hex.digit_value ha
    obtain ⟨hb16, hlb⟩ := Hex.digit_value hb
    obtain ⟨hc16, hlc⟩ := Hex.digit_value hc
    obtain ⟨hd16, hld⟩ := Hex.digit_value hd
    rw [← hn, Hex.four_of_digits ha16 hb16 hc16 hd16, List.map_cons, List.map_cons,
      List.map_cons, List.map_cons, List.map_nil, hla, hlb, hlc, hld]
    exact ⟨rfl, by omega⟩

theorem HeaderOf.length_eq (h : HeaderOf p hdr) : hdr.length = 4 := by
  rw [← List.length_map Hex.lower, h.digits, Hex.length_four]

theorem readPktLine_header {r : Pieces UInt8} (hlen : 4 ≤ r.all.length) :
    ∃ r', r'.all = r.all.drop 4 ∧ readPktLine r =
      match parsePktLen (r.all.take 4) with
      | .error e => .error e
      | .ok len =>
        if len = 0 then .ok (some .flush, r')
        else if len = 1 then .ok (some .delim, r')
        else if len = 2 then .ok (some .responseEnd, r')
        else if len < 4 then .error (.length len)
        else if (r'.readUpTo (len - 4)).1.length < len - 4 then .error .unexpectedEof
        else .ok (some (.data (r'.readUpTo (len - 4)).1), (r'.readUpTo (len - 4)).2) := by
  obtain ⟨htake, hdrop⟩ := @Pieces.readUpTo_eq _ r 4
  refine ⟨(r.readUpTo 4).2, hdrop, ?_⟩
  have hfour : (r.readUpTo 4).1.length = 4 := by
    rw [htake, List.length_take]
    omega
  rw [readPktLine, if_neg (by omega), if_neg (by omega), htake]

/-- The reader takes a packet off its encoding, whatever the pieces are. -/
theorem readPktLine_framed {r : Pieces UInt8} (h : HeaderOf p hdr)
    (hall : r.all = hdr ++ (p.payload ++ s)) :
    ∃ r', readPktLine r = .ok (some p, r') ∧ r'.all = s := by
  have hlen := h.length_eq
  obtain ⟨r', hr', hread⟩ := @readPktLine_header r (by rw [hall, List.length_append]; omega)
  rw [hall, List.take_left' hlen, parsePktLen_four h.digits h.small] at hread
  rw [hall, List.drop_left' hlen] at hr'
  cases p with
  | flush => exact ⟨r', hread, hr'⟩
  | delim => exact ⟨r', hread, hr'⟩
  | responseEnd => exact ⟨r', hread, hr'⟩
  | data b =>
    obtain ⟨htake, hdrop⟩ := @Pieces.readUpTo_eq _ r' b.length
    rw [hr', PktLine.payload, List.take_left' rfl] at htake
    rw [hr', PktLine.payload, List.drop_left' rfl] at hdrop
    have hcode : (PktLine.data b).code - 4 = b.length := Nat.add_sub_cancel _ 4
    have hpos : 4 ≤ (PktLine.data b).code := Nat.le_add_left 4 b.length
    refine ⟨(r'.readUpTo b.length).2, ?_, hdrop⟩
    rw [hread]
    simp only [hcode, htake]
    rw [if_neg (by omega), if_neg (by omega), if_neg (by omega), if_neg (by omega),
      if_neg (Nat.lt_irrefl _)]

theorem framed_of_readPktLine {r r' : Pieces UInt8} (h : readPktLine r = .ok (some p, r')) :
    ∃ hdr, HeaderOf p hdr ∧ r.all = hdr ++ (p.payload ++ r'.all) := by
  by_cases hlen : 4 ≤ r.all.length
  · obtain ⟨q, hq, hread⟩ := readPktLine_header hlen
    have hsplit : r.all = r.all.take 4 ++ q.all := by rw [hq, List.take_append_drop]
    rw [hread] at h
    cases hparse : parsePktLen (r.all.take 4) with
    | error e =>
      rw [hparse] at h
      cases h
    | ok len =>
      obtain ⟨hdigits, hsmall⟩ := four_of_parsePktLen (List.length_take_of_le hlen) hparse
      rw [hparse] at h
      dsimp only at h
      split_ifs at h with h0 h1 h2 h3 h4
      · subst h0
        cases h
        exact ⟨_, ⟨hdigits, by decide⟩, hsplit⟩
      · subst h1
        cases h
        exact ⟨_, ⟨hdigits, by decide⟩, hsplit⟩
      · subst h2
        cases h
        exact ⟨_, ⟨hdigits, by decide⟩, hsplit⟩
      · cases h
        obtain ⟨htake, hdrop⟩ := @Pieces.readUpTo_eq _ q (len - 4)
        have hle : (q.readUpTo (len - 4)).1.length ≤ len - 4 := by
          rw [htake]
          exact List.length_take_le _ _
        have hcode : (PktLine.data (q.readUpTo (len - 4)).1).code = len := by
          rw [PktLine.code]
          omega
        refine ⟨_, ⟨hcode.symm ▸ hdigits, hcode.symm ▸ hsmall⟩, ?_⟩
        rw [PktLine.payload, htake, hdrop, List.take_append_drop]
        exact hsplit
  · obtain ⟨htake, -⟩ := @Pieces.readUpTo_eq _ r 4
    have hshort : (r.readUpTo 4).1.length < 4 := by
      rw [htake, List.length_take]
      omega
    rw [readPktLine] at h
    split_ifs at h
    cases h

/-- A clean end is the end of the source. -/
theorem readPktLine_none {r r' : Pieces UInt8} :
    readPktLine r = .ok (none, r') → r.all = [] ∧ r'.all = [] := by
  intro h
  obtain ⟨htake, hdrop⟩ := @Pieces.readUpTo_eq _ r 4
  rw [readPktLine] at h
  dsimp only at h
  split at h
  · next hzero =>
    cases h
    have hnil := List.eq_nil_of_length_eq_zero hzero
    rw [htake, List.take_eq_nil_iff, or_iff_right (by decide)] at hnil
    rw [hdrop, hnil]
    exact ⟨rfl, rfl⟩
  · split at h
    · cases h
    · split at h
      · cases h
      · split_ifs at h <;> cases h

theorem readPktLine_nil {r : Pieces UInt8} (h : r.all = []) :
    ∃ r', readPktLine r = .ok (none, r') ∧ r'.all = [] := by
  obtain ⟨htake, hdrop⟩ := @Pieces.readUpTo_eq _ r 4
  rw [h] at htake hdrop
  refine ⟨(r.readUpTo 4).2, ?_, hdrop⟩
  rw [readPktLine, if_pos (by rw [htake]; rfl)]

theorem readPktLine_lt {r r' : Pieces UInt8} (h : readPktLine r = .ok (some p, r')) :
    r'.all.length < r.all.length := by
  obtain ⟨hdr, hhdr, hall⟩ := framed_of_readPktLine h
  have hlen := hhdr.length_eq
  rw [hall, List.length_append, List.length_append]
  omega

/-- The packets of a source, up to its clean end. -/
def readPktLines (r : Pieces UInt8) : Except PktError (List PktLine) :=
  match h : readPktLine r with
  | .error e => .error e
  | .ok (none, _) => .ok []
  | .ok (some p, r') =>
    have : r'.all.length < r.all.length := readPktLine_lt h
    (readPktLines r').map (p :: ·)
termination_by r.all.length

section Lines

variable {r r' : Pieces UInt8} {ps : List PktLine}

theorem readPktLines_error {e : PktError} (h : readPktLine r = .error e) :
    readPktLines r = .error e := by
  rw [readPktLines]
  split <;> simp_all

theorem readPktLines_end (h : readPktLine r = .ok (none, r')) : readPktLines r = .ok [] := by
  rw [readPktLines]
  split <;> simp_all

theorem readPktLines_cons (h : readPktLine r = .ok (some p, r')) :
    readPktLines r = (readPktLines r').map (p :: ·) := by
  rw [readPktLines]
  split <;> simp_all

/-- The reader gets these packets off a source iff the source is their encoding. -/
theorem readPktLines_iff : readPktLines r = .ok ps ↔ Framed ps r.all := by
  constructor
  · intro h
    induction r using readPktLines.induct generalizing ps with
    | case1 r e hread =>
      rw [readPktLines_error hread] at h
      cases h
    | case2 r r' hread =>
      rw [readPktLines_end hread] at h
      cases h
      rw [(readPktLine_none hread).1]
      exact .nil
    | case3 r p r' hread _ ih =>
      rw [readPktLines_cons hread] at h
      obtain ⟨hdr, hhdr, hall⟩ := framed_of_readPktLine hread
      rw [hall]
      cases hmore : readPktLines r' with
      | error e =>
        rw [hmore] at h
        cases h
      | ok qs =>
        rw [hmore] at h
        cases h
        exact .cons hhdr (ih hmore)
  · generalize hs : r.all = s
    intro h
    induction h generalizing r with
    | nil =>
      obtain ⟨r', hread, -⟩ := readPktLine_nil hs
      exact readPktLines_end hread
    | cons hhdr _ ih =>
      obtain ⟨r', hread, hall⟩ := readPktLine_framed hhdr hs
      rw [readPktLines_cons hread, ih hall]
      rfl

end Lines

section Encode

variable {ps qs : List PktLine}

theorem headerOf_four (h : p.code < 16 ^ 4) : HeaderOf p (Hex.four p.code) := by
  refine ⟨?_, h⟩
  simp only [Hex.four, List.map_cons, List.map_nil, Hex.lower_digit (Nat.mod_lt _ (by decide))]

theorem framed_encode (h : ∀ p ∈ ps, p.code < 16 ^ 4) : Framed ps (ps.flatMap PktLine.encode) := by
  induction ps with
  | nil => exact .nil
  | cons p ps ih =>
    rw [List.forall_mem_cons] at h
    rw [List.flatMap_cons, PktLine.encode, List.append_assoc]
    exact .cons (headerOf_four h.1) (ih h.2)

theorem Framed.unique (h : Framed ps s) (h' : Framed qs s) : ps = qs := by
  have hs : s = (Pieces.one s).all := (Pieces.all_one s).symm
  rw [hs] at h h'
  exact Except.ok.inj ((readPktLines_iff.mpr h).symm.trans (readPktLines_iff.mpr h'))

theorem PktLine.Fits.code_lt (h : p.Fits) : p.code < 16 ^ 4 := by
  cases p with
  | data b =>
    rw [PktLine.Fits, PktLine.payload, maxPktData] at h
    rw [PktLine.code]
    omega
  | flush | delim | responseEnd => decide

end Encode

section Cut

variable {ps : List PktLine}

/-- Part of a packet. -/
structure Part (t : Bytes) (p : PktLine) : Prop where
  small : p.code < 16 ^ 4
  starts : t <+: p.encode
  short : t.length < p.encode.length

theorem Part.error {t : Bytes} {p : PktLine} {r : Pieces UInt8} (h : Part t p) (hne : t ≠ [])
    (hall : r.all = t) : ∃ e, readPktLine r = .error e := by
  match hread : readPktLine r with
  | .error e => exact ⟨e, rfl⟩
  | .ok (none, r') => exact absurd (hall.symm.trans (readPktLine_none hread).1) hne
  | .ok (some q, r') =>
    obtain ⟨rest, hrest⟩ := h.starts
    obtain ⟨hdr, hhdr, heq⟩ := framed_of_readPktLine hread
    have hwhole : (Pieces.one p.encode).all = Hex.four p.code ++ (p.payload ++ []) := by
      rw [Pieces.all_one, PktLine.encode, List.append_nil]
    have hpart : (Pieces.one p.encode).all = hdr ++ (q.payload ++ (r'.all ++ rest)) := by
      rw [Pieces.all_one, ← hrest, ← hall, heq, List.append_assoc, List.append_assoc]
    obtain ⟨r₁, hread₁, hr₁⟩ := readPktLine_framed (headerOf_four h.small) hwhole
    obtain ⟨r₂, hread₂, hr₂⟩ := readPktLine_framed hhdr hpart
    rw [hread₁] at hread₂
    cases hread₂
    rw [hr₁] at hr₂
    have hlen := h.short
    rw [← hrest, (List.append_eq_nil_iff.mp hr₂.symm).2, List.append_nil] at hlen
    exact absurd hlen (Nat.lt_irrefl _)

end Cut

end Format

end Walgit.Pkt
