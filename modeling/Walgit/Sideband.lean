import Walgit.PktLine

/-!
# Side bands

A side-band frame is a packet whose first byte names its band. Data of any
length is cut into frames, each with the band in front of its part. The
narration of a fetch puts the band in front of the whole line and cuts it
afterwards, and a section line is never cut, so these two carry only what fits
into one frame.
-/

namespace Walgit.Pkt

section Headers

variable {n : ℕ} {data : Bytes}

theorem leftpad_toDigits {k : ℕ} (hk : 0 < k) :
    List.leftpad (k + 1) '0' (Nat.toDigits 16 n) =
      List.leftpad k '0' (Nat.toDigits 16 (n / 16)) ++ [(n % 16).digitChar] := by
  by_cases h : n < 16
  · rw [Nat.toDigits_of_lt_base h, Nat.div_eq_of_lt h, Nat.mod_eq_of_lt h, Nat.toDigits_zero,
      List.leftpad, List.leftpad, List.length_singleton, List.length_singleton,
      Nat.add_sub_cancel, ← List.replicate_succ', Nat.sub_add_cancel hk]
  · rw [Nat.toDigits_of_base_le (by decide) (Nat.le_of_not_lt h), List.leftpad, List.leftpad,
      List.length_append, List.length_singleton, Nat.add_sub_add_right, List.append_assoc]

theorem pktLenHex_eq (h : n < 16 ^ 4) : pktLenHex n = Hex.four n := by
  have hdigit : ∀ {k : ℕ}, k < 16 → UInt8.ofNat k.digitChar.toNat = Hex.digit k :=
    fun hk => by rw [Hex.digitChar_toNat hk, UInt8.ofNat_toNat]
  have hmod : ∀ k : ℕ, k % 16 < 16 := fun k => Nat.mod_lt k (by decide)
  have htop : n / 16 / 16 / 16 < 16 := by omega
  have hone : List.leftpad 1 '0' (Nat.toDigits 16 (n / 16 / 16 / 16)) =
      [(n / 16 / 16 / 16).digitChar] := by
    rw [Nat.toDigits_of_lt_base htop]
    rfl
  rw [pktLenHex, leftpad_toDigits (by decide), leftpad_toDigits (by decide),
    leftpad_toDigits (by decide), hone]
  simp only [List.map_cons, List.map_nil, hdigit htop, hdigit (hmod _),
    List.cons_append, List.nil_append]
  rw [Hex.four, show n / 4096 % 16 = n / 16 / 16 / 16 by omega,
    show n / 256 % 16 = n / 16 / 16 % 16 by omega]

theorem nibble_eq (k : ℕ) : (n >>> k) &&& 0xf = n / 2 ^ k % 16 := by
  rw [Nat.shiftRight_eq_div_pow]
  exact Nat.and_two_pow_sub_one_eq_mod _ 4

/-- The header is four digits also for a length that four digits cannot say. -/
theorem encodeData_eq : encodeData data = Hex.four (data.length + 4) ++ data := by
  have hslot : ∀ k : ℕ, (if (data.length + 4) >>> k &&& 0xf < 10
      then UInt8.ofNat (48 + ((data.length + 4) >>> k &&& 0xf))
      else UInt8.ofNat (97 + ((data.length + 4) >>> k &&& 0xf) - 10)) =
        Hex.digit ((data.length + 4) / 2 ^ k % 16) := by
    intro k
    rw [nibble_eq, Hex.digit]
    split_ifs
    · rfl
    · congr 1
      omega
  have hrange : List.range 4 = [0, 1, 2, 3] := rfl
  rw [encodeData, hrange]
  simp only [List.map_cons, List.map_nil, hslot]
  simp only [Nat.reduceMul, Nat.reduceSub, Nat.reducePow, Nat.div_one]
  rw [Hex.four]

theorem getD_hexTable : ∀ d < 16, hexTable.getD d 0 = Hex.digit d := by
  decide

theorem encodeLine_eq (h : data.length ≤ maxDataLen) :
    encodeLine data = some (Hex.four (data.length + 4) ++ data) := by
  have hmod : ∀ k : ℕ, k % 16 < 16 := fun k => Nat.mod_lt k (by decide)
  have hlast : (data.length + 4) &&& 0xf = (data.length + 4) % 16 :=
    Nat.and_two_pow_sub_one_eq_mod _ 4
  simp only [encodeLine, if_pos h, nibble_eq, hlast, getD_hexTable _ (hmod _), Hex.four,
    Nat.reducePow]

theorem writePktLine_eq (h : data.length ≤ maxPktData) :
    writePktLine data = Hex.four (data.length + 4) ++ data := by
  rw [writePktLine]
  split_ifs with hnil
  · rw [hnil]
    rfl
  · have hsmall : data.length + 4 < 16 ^ 4 := by
      rw [maxPktData] at h
      omega
    rw [slices_of_length_le hnil h, List.flatMap_singleton, pktLenHex_eq hsmall]

end Headers

section Bands

/-- `write_channel`: every part of the data in a frame of its own. -/
def writeChannel (channel : UInt8) (buf : Bytes) : Bytes :=
  if buf = [] then pktLenHex (4 + 1) ++ [channel]
  else (slices (maxPktData - 1) buf).flatMap fun chunk =>
    pktLenHex (chunk.length + 4 + 1) ++ [channel] ++ chunk

def writeData (buf : Bytes) : Bytes := writeChannel 1 buf

def writeProgress (msg : Bytes) : Bytes := writeChannel 2 msg

def writeError (msg : Bytes) : Bytes := writeChannel 3 msg

def asLine (text : String) : Bytes :=
  if (utf8 text).getLast? = some 10 then utf8 text else utf8 text ++ [10]

/-- `sideband_pkt` of the server; nothing where the length assertion fails. -/
def sidebandPkt (band : UInt8) (text : String) : Option Bytes :=
  ((slices maxDataLen (band :: asLine text)).mapM encodeLine).map List.flatten

/-- `line` of a fetch: a section line on band 1. -/
def sectionLine (data : Bytes) : Bytes := encodeData (1 :: data)

/-- What a packet brings on a band. -/
def bandPayload (band : UInt8) : PktLine → Bytes
  | .data (b :: rest) => if b = band then rest else []
  | _ => []

/-- The bytes are packets within git's limit, and these bring the data on the band. -/
def Carries (band : UInt8) (s data : Bytes) : Prop :=
  ∃ ps, Framed ps s ∧ (∀ p ∈ ps, p.code ≤ 65520) ∧ ps.flatMap (bandPayload band) = data

variable {band : UInt8} {s data : Bytes} {text : String} {p : PktLine} {ps : List PktLine}

theorem length_bandPayload_le : (bandPayload band p).length ≤ p.payload.length := by
  cases p with
  | data b =>
    cases b with
    | nil => exact Nat.le_refl _
    | cons c rest =>
      rw [bandPayload, PktLine.payload]
      split_ifs
      · exact Nat.le_succ _
      · exact Nat.zero_le _
  | flush | delim | responseEnd => exact Nat.le_refl _

theorem Framed.length_eq (h : Framed ps s) :
    s.length = (ps.map fun p => 4 + p.payload.length).sum := by
  induction h with
  | nil => rfl
  | cons hhdr _ ih =>
    rw [List.length_append, List.length_append, hhdr.length_eq, ih, List.map_cons, List.sum_cons,
      Nat.add_assoc]

theorem length_demux_le : (ps.flatMap (bandPayload band)).length + 4 * ps.length ≤
    (ps.map fun p => 4 + p.payload.length).sum := by
  induction ps with
  | nil => exact Nat.le_refl _
  | cons p ps ih =>
    have hp := @length_bandPayload_le band p
    rw [List.flatMap_cons, List.length_append, List.length_cons, List.map_cons, List.sum_cons]
    omega

theorem framed_parts {cs : List Bytes} (hlen : ∀ c ∈ cs, c.length + 5 ≤ 65520) :
    Framed (cs.map fun c => .data (band :: c))
      (cs.flatMap fun c => Hex.four (c.length + 5) ++ [band] ++ c) := by
  have hcode : ∀ p ∈ cs.map fun c => PktLine.data (band :: c), p.code < 16 ^ 4 := by
    intro p hp
    obtain ⟨c, hc, rfl⟩ := List.mem_map.mp hp
    exact Nat.lt_of_le_of_lt (hlen c hc) (by decide)
  have hframed := framed_encode hcode
  rw [List.flatMap_map] at hframed
  convert hframed using 2
  funext c
  rw [PktLine.encode, List.append_assoc]
  rfl

theorem carries_of_framed {cs : List Bytes} (h : Framed (cs.map fun c => .data (band :: c)) s)
    (hlen : ∀ c ∈ cs, c.length + 5 ≤ 65520) : Carries band s cs.flatten := by
  refine ⟨_, h, ?_, ?_⟩
  · intro p hp
    obtain ⟨c, hc, rfl⟩ := List.mem_map.mp hp
    exact hlen c hc
  · rw [List.flatMap_map]
    simp [bandPayload, List.flatMap_id']

theorem framed_writeChannel (band : UInt8) (data : Bytes) :
    ∃ cs : List Bytes, Framed (cs.map fun c => .data (band :: c)) (writeChannel band data) ∧
      (∀ c ∈ cs, c.length + 5 ≤ 65520) ∧ cs.flatten = data := by
  rw [writeChannel]
  split_ifs with hnil
  · have hone : ∀ c ∈ [([] : Bytes)], c.length + 5 ≤ 65520 := by
      simp
    have hparts := @framed_parts band _ hone
    refine ⟨[[]], ?_, hone, hnil.symm⟩
    rw [pktLenHex_eq (by decide)]
    simpa using hparts
  · have hlen : ∀ c ∈ slices (maxPktData - 1) data, c.length + 5 ≤ 65520 := by
      intro c hc
      have := (length_le_of_mem_slices hc).2
      rw [maxPktData] at this
      omega
    refine ⟨_, ?_, hlen, flatten_slices (by decide)⟩
    convert @framed_parts band _ hlen using 1
    refine List.flatMap_congr fun c hc => ?_
    rw [pktLenHex_eq (Nat.lt_of_le_of_lt (hlen c hc) (by decide))]

theorem carries_writeChannel : Carries band (writeChannel band data) data := by
  obtain ⟨cs, hframed, hlen, rfl⟩ := framed_writeChannel band data
  exact carries_of_framed hframed hlen

theorem mapM_encodeLine {cs : List Bytes} (h : ∀ c ∈ cs, c.length ≤ maxDataLen) :
    cs.mapM encodeLine = some (cs.map fun c => (PktLine.data c).encode) := by
  induction cs with
  | nil => rfl
  | cons c cs ih =>
    rw [List.forall_mem_cons] at h
    rw [List.mapM_cons, encodeLine_eq h.1, ih h.2]
    rfl

theorem sidebandPkt_eq : sidebandPkt band text = some
    (((slices maxDataLen (band :: asLine text)).map .data).flatMap PktLine.encode) := by
  rw [sidebandPkt, mapM_encodeLine fun c hc => (length_le_of_mem_slices hc).2, Option.map_some,
    List.flatMap_def, List.map_map]
  rfl

theorem framed_slices : Framed ((slices maxDataLen data).map .data)
    (((slices maxDataLen data).map .data).flatMap PktLine.encode) := by
  refine framed_encode fun p hp => ?_
  obtain ⟨c, hc, rfl⟩ := List.mem_map.mp hp
  have hle := (length_le_of_mem_slices hc).2
  rw [maxDataLen] at hle
  rw [PktLine.code]
  omega

theorem length_demux_slices {cs : List Bytes} (h : ∀ c ∈ cs, c ≠ []) :
    ((cs.map PktLine.data).flatMap (bandPayload band)).length + cs.length ≤ cs.flatten.length := by
  induction cs with
  | nil => exact Nat.le_refl _
  | cons c cs ih =>
    rw [List.forall_mem_cons] at h
    have hrest := ih h.2
    obtain ⟨b, rest, rfl⟩ := List.exists_cons_of_ne_nil h.1
    have hle : (bandPayload band (.data (b :: rest))).length ≤ rest.length := by
      rw [bandPayload]
      split_ifs
      · exact Nat.le_refl _
      · exact Nat.zero_le _
    rw [List.map_cons, List.flatMap_cons, List.flatten_cons, List.length_append,
      List.length_append, List.length_cons, List.length_cons]
    omega

theorem carries_sidebandPkt : (∃ s, sidebandPkt band text = some s ∧ Carries band s (asLine text)) ↔
    (asLine text).length < maxDataLen := by
  rw [sidebandPkt_eq]
  constructor
  · rintro ⟨s, hs, ps, hframed, -, hdata⟩
    by_contra hlong
    cases hs
    rw [hframed.unique framed_slices] at hdata
    have hlen := @length_demux_slices band _ fun c hc =>
      (@length_le_of_mem_slices _ maxDataLen (band :: asLine text) c hc).1
    have hdrop : (band :: asLine text).drop maxDataLen ≠ [] := by
      rw [ne_eq, List.drop_eq_nil_iff, List.length_cons]
      omega
    have htwo : 2 ≤ (slices maxDataLen (band :: asLine text)).length := by
      rw [slices_cons (by decide) (List.cons_ne_nil _ _), slices_cons (by decide) hdrop]
      exact Nat.le_add_left 2 _
    rw [hdata, flatten_slices (by decide), List.length_cons] at hlen
    omega
  · intro hshort
    refine ⟨_, rfl, _, framed_slices, ?_, ?_⟩
    · intro p hp
      obtain ⟨c, hc, rfl⟩ := List.mem_map.mp hp
      have hle := (length_le_of_mem_slices hc).2
      rw [maxDataLen] at hle
      rw [PktLine.code]
      omega
    · rw [slices_of_length_le (List.cons_ne_nil _ _) hshort]
      simp [bandPayload]

theorem carries_sectionLine : Carries 1 (sectionLine data) data ↔ data.length < maxPktData := by
  rw [sectionLine, encodeData_eq, maxPktData]
  constructor
  · rintro ⟨ps, hframed, hsmall, hdata⟩
    have hlen := hframed.length_eq
    have hle := @length_demux_le 1 ps
    rw [hdata, ← hlen] at hle
    rw [List.length_append, Hex.length_four, List.length_cons] at hlen hle
    rcases ps with _ | ⟨p, _ | ⟨q, ps⟩⟩
    · cases hlen
    · rw [List.map_singleton, List.sum_singleton] at hlen
      have hcode := hsmall p List.mem_cons_self
      cases p with
      | data b =>
        rw [PktLine.payload] at hlen
        rw [PktLine.code] at hcode
        omega
      | flush | delim | responseEnd =>
        change 4 + (data.length + 1) = 4 + 0 at hlen
        omega
    · rw [List.length_cons, List.length_cons] at hle
      omega
  · intro hshort
    have hone : ∀ c ∈ [data], c.length + 5 ≤ 65520 := by
      intro c hc
      rw [List.mem_singleton.mp hc]
      omega
    simpa using carries_of_framed (@framed_parts 1 _ hone) hone

end Bands

section Claim

/-- The writers of a data packet. -/
inductive Writer
  | writePktLine
  | encodeData
  | encodeLine

def Writer.write : Writer → Bytes → Option Bytes
  | .writePktLine, data => some (Pkt.writePktLine data)
  | .encodeData, data => some (Pkt.encodeData data)
  | .encodeLine, data => Pkt.encodeLine data

def Writer.packet (w : Writer) : PktLine → Option Bytes
  | .data b => w.write b
  | .flush => some encodeFlush
  | .delim => some encodeDelim
  | .responseEnd => some encodeResponseEnd

/-- The packets as a writer sends them. -/
def Writer.packets (w : Writer) (ps : List PktLine) : Option Bytes :=
  (ps.mapM w.packet).map List.flatten

variable {w : Writer} {p : PktLine} {ps : List PktLine} {text : String}

theorem Writer.packet_eq (h : p.Fits) : w.packet p = some p.encode := by
  cases p with
  | data b =>
    cases w with
    | writePktLine => exact congrArg some (writePktLine_eq h)
    | encodeData => exact congrArg some encodeData_eq
    | encodeLine => exact encodeLine_eq h
  | flush | delim | responseEnd => rfl

theorem Writer.packets_eq (h : ∀ p ∈ ps, p.Fits) :
    w.packets ps = some (ps.flatMap PktLine.encode) := by
  have hmap : ps.mapM w.packet = some (ps.map PktLine.encode) := by
    induction ps with
    | nil => rfl
    | cons p ps ih =>
      rw [List.forall_mem_cons] at h
      rw [List.mapM_cons, packet_eq h.1, ih h.2]
      rfl
  rw [packets, hmap, Option.map_some, List.flatMap_def]

/-- What a reader of packets takes, and nothing else: their encoding, with digits in either
case. -/
structure ReaderExact : Prop where
  packets : ∀ (r : Pieces UInt8) ps, readPktLines r = .ok ps ↔ Framed ps r.all
  packet : ∀ (r r' : Pieces UInt8) p, readPktLine r = .ok (some p, r') →
    ∃ hdr, HeaderOf p hdr ∧ r.all = hdr ++ (p.payload ++ r'.all)
  finish : ∀ r r' : Pieces UInt8, readPktLine r = .ok (none, r') → r.all = []

theorem readerExact : ReaderExact :=
  ⟨fun _ _ => readPktLines_iff, fun _ _ _ => framed_of_readPktLine,
    fun _ _ h => (readPktLine_none h).1⟩

/-- Packets are read back as they were written, in whatever pieces; what is read as packets is
their encoding; and the frames carry the data, but for a narrated line or a section line that
does not fit into one frame. -/
theorem framing_round_trip (band : UInt8) (text : String) (data : Bytes) :
    (∀ (w : Writer) ps, (∀ p ∈ ps, p.Fits) →
      ∃ s, w.packets ps = some s ∧ ∀ r : Pieces UInt8, r.all = s → readPktLines r = .ok ps) ∧
    ReaderExact ∧ Carries band (writeChannel band data) data ∧
    ((∃ s, sidebandPkt band text = some s ∧ Carries band s (asLine text)) ↔
      (asLine text).length < maxDataLen) ∧
    (Carries 1 (sectionLine data) data ↔ data.length < maxPktData) := by
  refine ⟨fun w ps hfits => ⟨_, w.packets_eq hfits, fun r hr => ?_⟩, readerExact,
    carries_writeChannel, carries_sidebandPkt, carries_sectionLine⟩
  rw [readPktLines_iff, hr]
  exact framed_encode fun p hp => (hfits p hp).code_lt

theorem length_asLine_replicate (n : ℕ) :
    (asLine (String.ofList (List.replicate n 'a'))).length = n + 1 := by
  have hbytes : utf8 (String.ofList (List.replicate n 'a')) = List.replicate n 97 := by
    induction n with
    | zero => rfl
    | succ n ih =>
      rw [utf8, String.toList_ofList, Utf8.encode] at ih ⊢
      rw [List.replicate_succ, List.flatMap_cons, ih, List.replicate_succ]
      rfl
  have hlast : (List.replicate n (97 : UInt8)).getLast? ≠ some 10 := by
    intro h
    have hmem := List.eq_of_mem_replicate (List.mem_of_getLast? h)
    cases hmem
  rw [asLine, hbytes, if_neg hlast, List.length_append, List.length_replicate]
  rfl

/-- The second frame of a long narrated line has no band. -/
theorem long_line_uncarried : ¬ ∃ s,
    sidebandPkt 2 (String.ofList (List.replicate 65516 'a')) = some s ∧
      Carries 2 s (asLine (String.ofList (List.replicate 65516 'a'))) := by
  rw [carries_sidebandPkt, length_asLine_replicate, maxDataLen]
  omega

end Claim

end Walgit.Pkt
