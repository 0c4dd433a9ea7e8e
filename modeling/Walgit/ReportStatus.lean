import Walgit.Sideband
import Walgit.PushRequest

/-!
# The report of a push

A report has a line for the unpacking and one for every command, each in a
packet of its own, and goes out on the data band. The texts of errors stand in
the lines as they are. The client takes every packet for one status.
-/

namespace Walgit.Pkt

section Code

/-- `split_inclusive` at line ends. -/
def splitInclusive : Bytes → List Bytes
  | [] => []
  | b :: bs =>
    if b = 10 then [b] :: splitInclusive bs
    else match splitInclusive bs with
      | [] => [[b]]
      | line :: lines => (b :: line) :: lines

/-- The name of a ref and what became of its command. -/
abbrev RefResult := String × Except String Unit

def unpackLine : Except String Unit → Bytes
  | .ok () => ascii "unpack ok" ++ [10]
  | .error msg => ascii "unpack ng " ++ utf8 msg ++ [10]

def statusLine : RefResult → Bytes
  | (name, .ok ()) => ascii "ok " ++ utf8 name ++ [10]
  | (name, .error msg) => ascii "ng " ++ utf8 name ++ [32] ++ utf8 msg ++ [10]

def reportLines (unpack : Except String Unit) (perRef : List RefResult) : List Bytes :=
  unpackLine unpack :: perRef.map statusLine

def framedReport (body : Bytes) : Bytes := (splitInclusive body).flatMap encodeData ++ encodeFlush

def reportStatus (caps : ReceiveCaps) (unpack : Except String Unit) (perRef : List RefResult) :
    Bytes :=
  let framed := framedReport (reportLines unpack perRef).flatten
  if caps.sideBand64k then writeData framed ++ encodeFlush else framed

def refused (names : List String) (msg : String) : List RefResult :=
  names.map fun name => (name, .error msg)

/-- The report of a push that is refused before any work, with the message on the
progress band in front. -/
def refusalReport (caps : ReceiveCaps) (names : List String) (msg : String) : Option Bytes :=
  let report := reportStatus caps (.error msg) (refused names msg)
  if caps.sideBand64k then (sidebandPkt 2 (msg ++ "\n")).map (· ++ report) else some report

end Code

section Client

structure RefStatus where
  accepted : Bool
  name : Bytes
  message : Option Bytes
  deriving DecidableEq

/-- A packet's text without the line end. -/
def chomp (line : Bytes) : Bytes := if line.getLast? = some 10 then line.dropLast else line

def splitSpace (b : Bytes) : Bytes × Option Bytes :=
  match b.span (· ≠ 32) with
  | (a, []) => (a, none)
  | (a, _ :: rest) => (a, some rest)

def readStatus (line : Bytes) : Option RefStatus :=
  match splitSpace (chomp line) with
  | (_, none) => none
  | (head, some rest) =>
    if head = ascii "ok" ∨ head = ascii "ng" then
      some ⟨head = ascii "ok", (splitSpace rest).1, (splitSpace rest).2⟩
    else none

def readUnpack (line : Bytes) : Option Bytes :=
  if ascii "unpack " <+: chomp line then some ((chomp line).drop 7) else none

/-- The statuses up to the flush, which ends the report. -/
def readStatuses : List PktLine → Option (List RefStatus)
  | [.flush] => some []
  | .data line :: rest => do
    let status ← readStatus line
    let statuses ← readStatuses rest
    some (status :: statuses)
  | _ => none

def readReport : List PktLine → Option (Bytes × List RefStatus)
  | .data line :: rest => do
    let unpack ← readUnpack line
    let statuses ← readStatuses rest
    some (unpack, statuses)
  | _ => none

def unpackStatus : Except String Unit → Bytes
  | .ok () => ascii "ok"
  | .error msg => ascii "ng " ++ utf8 msg

def refStatus : RefResult → RefStatus
  | (name, .ok ()) => ⟨true, utf8 name, none⟩
  | (name, .error msg) => ⟨false, utf8 name, some (utf8 msg)⟩

/-- The report is packets within git's limit, and they say of every command what
became of it, in order, and nothing else. -/
def Understood (report : Bytes) (unpack : Except String Unit) (perRef : List RefResult) : Prop :=
  ∃ ps, Framed ps report ∧ (∀ p ∈ ps, p.Fits) ∧
    readReport ps = some (unpackStatus unpack, perRef.map refStatus)

/-- A frame within git's limit, of data or of progress. -/
structure Frame (c : Bytes) : Prop where
  fits : c.length + 4 ≤ 65520
  band : c.head? = some 1 ∨ c.head? = some 2

/-- What comes off the wire: with side bands, the frames up to the flush, of
which the data band counts. -/
def Delivered (caps : ReceiveCaps) (wire : Bytes) (unpack : Except String Unit)
    (perRef : List RefResult) : Prop :=
  if caps.sideBand64k then
    ∃ cs : List Bytes, Framed (cs.map .data ++ [.flush]) wire ∧ (∀ c ∈ cs, Frame c) ∧
      Understood ((cs.map .data).flatMap (bandPayload 1)) unpack perRef
  else Understood wire unpack perRef

/-- No text has a line end, and every line fits into a packet. -/
structure PlainTexts (unpack : Except String Unit) (perRef : List RefResult) : Prop where
  unpack : ∀ msg, unpack = .error msg →
    '\n' ∉ msg.toList ∧ (utf8 msg).length + 11 ≤ maxPktData
  accepted : ∀ name, (name, .ok ()) ∈ perRef → (utf8 name).length + 4 ≤ maxPktData
  refused : ∀ name msg, (name, .error msg) ∈ perRef →
    '\n' ∉ msg.toList ∧ (utf8 name).length + (utf8 msg).length + 5 ≤ maxPktData

end Client

section Lines

variable {b : Bytes} {l line rest : Bytes} {lines : List Bytes}

theorem flatten_splitInclusive (b : Bytes) : (splitInclusive b).flatten = b := by
  induction b with
  | nil => rfl
  | cons x b ih =>
    rw [splitInclusive]
    split
    · rw [List.flatten_cons, ih]
      rfl
    · split
      · next h =>
        rw [h] at ih
        rw [← ih]
        rfl
      · next h =>
        rw [h] at ih
        rw [← ih]
        rfl

theorem count_le_splitInclusive (b : Bytes) : b.count 10 ≤ (splitInclusive b).length := by
  induction b with
  | nil => exact Nat.le_refl 0
  | cons x b ih =>
    rw [splitInclusive]
    by_cases h : x = 10
    · rw [if_pos h, h, List.count_cons_self, List.length_cons]
      exact Nat.succ_le_succ ih
    · rw [if_neg h, List.count_cons_of_ne h]
      split
      · next hnil =>
        rw [hnil] at ih
        exact ih.trans (Nat.zero_le 1)
      · next hcons =>
        rwa [hcons] at ih

theorem splitInclusive_append (h : 10 ∉ l) :
    splitInclusive (l ++ [10] ++ rest) = (l ++ [10]) :: splitInclusive rest := by
  induction l with
  | nil => rw [List.nil_append, List.singleton_append, splitInclusive, if_pos rfl]
  | cons x l ih =>
    rw [List.mem_cons, not_or] at h
    rw [List.cons_append, List.cons_append, splitInclusive, if_neg (Ne.symm h.1), ih h.2]

/-- The byte string is one line: its end is its only line end. -/
def OneLine (line : Bytes) : Prop := ∃ l, line = l ++ [10] ∧ 10 ∉ l

theorem splitInclusive_lines (h : ∀ line ∈ lines, OneLine line) :
    splitInclusive lines.flatten = lines := by
  induction lines with
  | nil => rfl
  | cons line lines ih =>
    rw [List.forall_mem_cons] at h
    obtain ⟨l, rfl, hl⟩ := h.1
    rw [List.flatten_cons, splitInclusive_append hl, ih h.2]

theorem oneLine_of_count (h : line.getLast? = some 10) (hcount : line.count 10 = 1) :
    OneLine line := by
  obtain ⟨l, rfl⟩ := List.getLast?_eq_some_iff.mp h
  rw [List.count_append, List.count_singleton_self] at hcount
  exact ⟨l, rfl, List.count_eq_zero.mp (by omega)⟩

end Lines

section Reading

variable {line head rest name msg : Bytes} {status : RefStatus} {n : String}

theorem length_le_chomp (line : Bytes) : line.length ≤ (chomp line).length + 1 := by
  rw [chomp]
  split
  · rw [List.length_dropLast]
    omega
  · exact Nat.le_succ _

theorem chomp_append (l : Bytes) : chomp (l ++ [10]) = l := by
  rw [chomp, if_pos (by simp), List.dropLast_concat]

theorem splitSpace_append (h : 32 ∉ head) :
    splitSpace (head ++ [32] ++ rest) = (head, some rest) := by
  have hspan : (head ++ 32 :: rest).span (· ≠ 32) = (head, 32 :: rest) :=
    span_append (fun x hx => decide_eq_true (ne_of_mem_of_not_mem hx h)) (by decide)
  rw [splitSpace, List.append_assoc, List.singleton_append, hspan]

theorem splitSpace_all (h : 32 ∉ head) : splitSpace head = (head, none) := by
  rw [splitSpace, span_all fun x hx => decide_eq_true (ne_of_mem_of_not_mem hx h)]

theorem length_splitSpace (b : Bytes) :
    b.length = (splitSpace b).1.length + ((splitSpace b).2.map fun r => r.length + 1).getD 0 := by
  have hall : (b.span (· ≠ 32)).1 ++ (b.span (· ≠ 32)).2 = b := by
    rw [List.span_eq_takeWhile_dropWhile]
    exact List.takeWhile_append_dropWhile
  have hlen := congrArg List.length hall
  rw [List.length_append] at hlen
  rw [splitSpace]
  rcases hs : b.span (· ≠ 32) with ⟨a, _ | ⟨x, r⟩⟩
  · rw [hs] at hlen ⊢
    exact hlen.symm
  · rw [hs] at hlen ⊢
    exact hlen.symm

theorem length_of_readStatus (h : readStatus line = some status) :
    line.length ≤ 4 + status.name.length + (status.message.map fun m => m.length + 1).getD 0 := by
  rw [readStatus] at h
  have hchomp := length_le_chomp line
  have hline := length_splitSpace (chomp line)
  rcases hs : splitSpace (chomp line) with ⟨head, _ | rest⟩
  · rw [hs] at h
    cases h
  · rw [hs] at h hline
    simp only [Option.map_some, Option.getD_some] at h hline
    split at h
    · next hhead =>
      cases h
      have hrest := length_splitSpace rest
      have htwo : head.length = 2 := by
        rcases hhead with rfl | rfl <;> rfl
      dsimp only
      omega
    · cases h

theorem length_of_readUnpack {u : Bytes} (h : readUnpack line = some u) :
    line.length ≤ 8 + u.length := by
  rw [readUnpack] at h
  split at h
  · next hpre =>
    cases h
    have hchomp := length_le_chomp line
    have hle := hpre.length_le
    have hseven : (ascii "unpack ").length = 7 := rfl
    rw [List.length_drop]
    omega
  · cases h

theorem not_mem_utf8 {k : ℕ} (hk : k < 128) (h : Char.ofNat k ∉ n.toList) :
    UInt8.ofNat k ∉ utf8 n := fun hmem => h (Utf8.mem_of_ofNat_mem_encode hk hmem)

theorem plain_name (h : validateRefName n = true) : 32 ∉ utf8 n ∧ 10 ∉ utf8 n := by
  have hforbidden := (not_forbidden_of_validateRefName h).2
  have hplain : ∀ {c : Char}, forbiddenInRefName c = true → c ∉ n.toList := fun hc hmem =>
    Bool.false_ne_true ((hforbidden _ hmem).symm.trans hc)
  exact ⟨not_mem_utf8 (by decide) (hplain (by decide)),
    not_mem_utf8 (by decide) (hplain (by decide))⟩

theorem readStatus_statusLine {r : RefResult} (h : validateRefName r.1 = true) :
    readStatus (statusLine r) = some (refStatus r) := by
  obtain ⟨hspace, -⟩ := plain_name h
  have hok : 32 ∉ ascii "ok" := by decide
  have hng : 32 ∉ ascii "ng" := by decide
  obtain ⟨name, (msg | ⟨⟨⟩⟩)⟩ := r
  · have hline : chomp (statusLine (name, .error msg)) =
        ascii "ng" ++ [32] ++ (utf8 name ++ [32] ++ utf8 msg) := by
      rw [statusLine, chomp_append]
      simp [ascii]
    rw [readStatus, hline, splitSpace_append hng]
    dsimp only
    rw [splitSpace_append hspace, if_pos (.inr rfl)]
    rfl
  · have hline : chomp (statusLine (name, .ok ())) = ascii "ok" ++ [32] ++ utf8 name := by
      rw [statusLine, chomp_append]
      simp [ascii]
    rw [readStatus, hline, splitSpace_append hok]
    dsimp only
    rw [splitSpace_all hspace, if_pos (.inl rfl)]
    rfl

theorem readUnpack_unpackLine (u : Except String Unit) :
    readUnpack (unpackLine u) = some (unpackStatus u) := by
  have hline : chomp (unpackLine u) = ascii "unpack " ++ unpackStatus u := by
    rcases u with msg | ⟨⟨⟩⟩
    · rw [unpackLine, chomp_append, unpackStatus]
      simp [ascii]
    · rfl
  have hseven : (ascii "unpack ").length = 7 := rfl
  rw [readUnpack, hline, if_pos (List.prefix_append _ _), ← hseven, List.drop_left]

end Reading

section Counting

variable {unpack : Except String Unit} {perRef : List RefResult} {qs lines : List Bytes}
  {report : Bytes}

/-- The packets carry no more than the lines, and every line has its end. -/
def Within (qs lines : List Bytes) : Prop :=
  List.Forall₂ (fun q line => q.length ≤ line.length ∧ 1 ≤ line.count 10) qs lines

theorem Within.sum_le (h : Within qs lines) :
    (qs.map fun q => 4 + q.length).sum ≤
      (lines.map fun line => line.length + 4 * line.count 10).sum := by
  induction h with
  | nil => exact Nat.le_refl 0
  | cons hq _ ih =>
    rw [List.map_cons, List.map_cons, List.sum_cons, List.sum_cons]
    omega

theorem Within.tight (h : Within qs lines)
    (hsum : (lines.map fun line => line.length + 4 * line.count 10).sum ≤
      (qs.map fun q => 4 + q.length).sum) :
    ∀ line ∈ lines, line.count 10 = 1 ∧ ∃ q ∈ qs, line.length = q.length := by
  induction h with
  | nil => exact List.forall_mem_nil _
  | cons hq htail ih =>
    have hle := Within.sum_le htail
    rw [List.map_cons, List.map_cons, List.sum_cons, List.sum_cons] at hsum
    rw [List.forall_mem_cons]
    refine ⟨⟨by omega, _, List.mem_cons_self, by omega⟩, fun line hline => ?_⟩
    obtain ⟨hcount, q, hmem, hlen⟩ := ih (by omega) line hline
    exact ⟨hcount, q, List.mem_cons_of_mem _ hmem, hlen⟩

theorem readStatuses_eq_some {ps : List PktLine} {statuses : List RefStatus}
    (h : readStatuses ps = some statuses) : ∃ qs : List Bytes, ps = qs.map .data ++ [.flush] ∧
      List.Forall₂ (fun q status => readStatus q = some status) qs statuses := by
  induction ps using readStatuses.induct generalizing statuses with
  | case1 =>
    cases h
    exact ⟨[], rfl, .nil⟩
  | case2 line rest ih =>
    rw [readStatuses, Option.bind_eq_bind, Option.bind_eq_some_iff] at h
    obtain ⟨status, hstatus, h⟩ := h
    rw [Option.bind_eq_bind, Option.bind_eq_some_iff] at h
    obtain ⟨statuses', hrest, h⟩ := h
    cases h
    obtain ⟨qs, rfl, hqs⟩ := ih hrest
    exact ⟨line :: qs, rfl, .cons hstatus hqs⟩
  | case3 ps hflush hdata =>
    rw [readStatuses] at h
    · cases h
    · exact hflush
    · exact hdata

theorem readStatuses_map
    (h : List.Forall₂ (fun q r => readStatus q = some (refStatus r)) qs perRef) :
    readStatuses (qs.map .data ++ [.flush]) = some (perRef.map refStatus) := by
  induction h with
  | nil => rfl
  | cons hq _ ih =>
    rw [List.map_cons, List.cons_append, readStatuses, hq, ih]
    rfl

theorem length_of_refStatus {q : Bytes} {r : RefResult} (h : readStatus q = some (refStatus r)) :
    q.length ≤ (statusLine r).length := by
  have hlen := length_of_readStatus h
  obtain ⟨name, (msg | ⟨⟨⟩⟩)⟩ := r
  · simp only [refStatus, Option.map_some, Option.getD_some] at hlen
    rw [statusLine, List.length_append, List.length_append, List.length_append, List.length_append]
    have hthree : (ascii "ng ").length = 3 := rfl
    simp only [List.length_singleton]
    omega
  · simp only [refStatus, Option.map_none, Option.getD_none] at hlen
    rw [statusLine, List.length_append, List.length_append]
    have hthree : (ascii "ok ").length = 3 := rfl
    simp only [List.length_singleton]
    omega

theorem length_of_unpackStatus {q : Bytes} (h : readUnpack q = some (unpackStatus unpack)) :
    q.length ≤ (unpackLine unpack).length := by
  have hlen := length_of_readUnpack h
  rcases unpack with msg | ⟨⟨⟩⟩
  · rw [unpackStatus, List.length_append] at hlen
    rw [unpackLine, List.length_append, List.length_append]
    have hthree : (ascii "ng ").length = 3 := rfl
    have hten : (ascii "unpack ng ").length = 10 := rfl
    simp only [List.length_singleton]
    omega
  · exact hlen

theorem one_le_count (l : Bytes) : 1 ≤ (l ++ [10]).count 10 := by
  rw [List.count_append, List.count_singleton_self]
  exact Nat.le_add_left 1 _

theorem lineEnd_unpackLine : 1 ≤ (unpackLine unpack).count 10 := by
  rcases unpack with msg | ⟨⟨⟩⟩ <;> exact one_le_count _

theorem lineEnd_statusLine (r : RefResult) : 1 ≤ (statusLine r).count 10 := by
  obtain ⟨name, (msg | ⟨⟨⟩⟩)⟩ := r <;> exact one_le_count _

theorem packets_of_readReport {ps : List PktLine}
    (h : readReport ps = some (unpackStatus unpack, perRef.map refStatus)) :
    ∃ qs : List Bytes, ps = qs.map .data ++ [.flush] ∧ Within qs (reportLines unpack perRef) := by
  rcases ps with _ | ⟨_ | _ | _ | _, rest⟩
  · cases h
  · next line =>
    rw [readReport, Option.bind_eq_bind, Option.bind_eq_some_iff] at h
    obtain ⟨u, hu, h⟩ := h
    rw [Option.bind_eq_bind, Option.bind_eq_some_iff] at h
    obtain ⟨statuses, hrest, h⟩ := h
    rw [Option.some.injEq, Prod.mk.injEq] at h
    obtain ⟨rfl, rfl⟩ := h
    obtain ⟨qs, rfl, hqs⟩ := readStatuses_eq_some hrest
    rw [List.forall₂_map_right_iff] at hqs
    refine ⟨line :: qs, rfl, .cons ⟨length_of_unpackStatus hu, lineEnd_unpackLine⟩ ?_⟩
    rw [List.forall₂_map_right_iff]
    exact hqs.imp fun q r hq => ⟨length_of_refStatus hq, lineEnd_statusLine r⟩
  · cases h
  · cases h
  · cases h

theorem length_flatMap_encodeData (cs : List Bytes) :
    (cs.flatMap encodeData).length = cs.flatten.length + 4 * cs.length := by
  induction cs with
  | nil => rfl
  | cons c cs ih =>
    rw [List.flatMap_cons, List.length_append, ih, encodeData_eq, List.length_append,
      Hex.length_four, List.flatten_cons, List.length_append, List.length_cons]
    omega

theorem sum_le_framedReport (lines : List Bytes) :
    (lines.map fun line => line.length + 4 * line.count 10).sum + 4 ≤
      (framedReport lines.flatten).length := by
  have hsum : (lines.map fun line => line.length + 4 * line.count 10).sum =
      lines.flatten.length + 4 * lines.flatten.count 10 := by
    induction lines with
    | nil => rfl
    | cons line lines ih =>
      rw [List.map_cons, List.sum_cons, ih, List.flatten_cons, List.length_append,
        List.count_append]
      omega
  have hcount := count_le_splitInclusive lines.flatten
  have hflush : encodeFlush.length = 4 := rfl
  rw [framedReport, List.length_append, length_flatMap_encodeData, flatten_splitInclusive, hsum,
    hflush]
  omega

/-- The lines of a report that is understood, whatever stands before it, are one line and one
packet each. -/
theorem lines_of_understood (h : Understood report unpack perRef)
    (hlen : (framedReport (reportLines unpack perRef).flatten).length ≤ report.length) :
    ∀ line ∈ reportLines unpack perRef, line.length ≤ maxPktData ∧ line.count 10 = 1 := by
  obtain ⟨ps, hframed, hfits, hread⟩ := h
  obtain ⟨qs, rfl, hwithin⟩ := packets_of_readReport hread
  have hle := sum_le_framedReport (reportLines unpack perRef)
  have hreport := hframed.length_eq
  rw [List.map_append, List.sum_append, List.map_map] at hreport
  have hflush : ([PktLine.flush].map fun p => 4 + p.payload.length).sum = 4 := rfl
  have htight := hwithin.tight (by
    have hqs : (qs.map ((fun p => 4 + p.payload.length) ∘ PktLine.data)).sum =
        (qs.map fun q => 4 + q.length).sum := rfl
    omega)
  intro line hline
  obtain ⟨hcount, q, hq, hlength⟩ := htight line hline
  have hqfits := hfits (.data q) (List.mem_append_left _ (List.mem_map_of_mem hq))
  exact ⟨hlength ▸ hqfits, hcount⟩

end Counting

section Plain

variable {unpack : Except String Unit} {perRef : List RefResult} {line : Bytes} {n : String}

theorem mem_utf8 : 10 ∈ utf8 n ↔ '\n' ∈ n.toList := by
  constructor
  · exact Utf8.mem_of_ofNat_mem_encode (n := 10) (by decide)
  · intro h
    exact List.mem_flatMap.mpr ⟨_, h, by decide⟩

/-- A line that fits and has no line end but its own. -/
def PlainLine (line : Bytes) : Prop := line.length ≤ maxPktData ∧ line.count 10 = 1

theorem plainLine_append {l : Bytes} :
    PlainLine (l ++ [10]) ↔ 10 ∉ l ∧ l.length + 1 ≤ maxPktData := by
  rw [PlainLine, List.length_append, List.count_append, List.count_singleton_self,
    List.length_singleton, ← List.count_eq_zero]
  omega

theorem plain_unpackLine_error :
    PlainLine (unpackLine (.error n)) ↔ '\n' ∉ n.toList ∧ (utf8 n).length + 11 ≤ maxPktData := by
  have hten : (ascii "unpack ng ").length = 10 := rfl
  have hascii : 10 ∉ ascii "unpack ng " := by decide
  rw [unpackLine, plainLine_append, List.mem_append, not_or, mem_utf8, List.length_append, hten]
  constructor
  · rintro ⟨⟨-, htext⟩, hlen⟩
    exact ⟨htext, by omega⟩
  · rintro ⟨htext, hlen⟩
    exact ⟨⟨hascii, htext⟩, by omega⟩

theorem plain_statusLine_ok (h : validateRefName n = true) :
    PlainLine (statusLine (n, .ok ())) ↔ (utf8 n).length + 4 ≤ maxPktData := by
  have hthree : (ascii "ok ").length = 3 := rfl
  have hascii : 10 ∉ ascii "ok " := by decide
  rw [statusLine, plainLine_append, List.mem_append, not_or, List.length_append, hthree]
  constructor
  · rintro ⟨-, hlen⟩
    omega
  · intro hlen
    exact ⟨⟨hascii, (plain_name h).2⟩, by omega⟩

theorem plain_statusLine_error {msg : String} (h : validateRefName n = true) :
    PlainLine (statusLine (n, .error msg)) ↔
      '\n' ∉ msg.toList ∧ (utf8 n).length + (utf8 msg).length + 5 ≤ maxPktData := by
  have hthree : (ascii "ng ").length = 3 := rfl
  have hascii : 10 ∉ ascii "ng " := by decide
  have hspace : 10 ∉ ([32] : Bytes) := by decide
  rw [statusLine, plainLine_append]
  simp only [List.mem_append, not_or, List.length_append, List.length_singleton, mem_utf8]
  constructor
  · rintro ⟨⟨-, htext⟩, hlen⟩
    exact ⟨htext, by omega⟩
  · rintro ⟨htext, hlen⟩
    refine ⟨⟨⟨⟨hascii, ?_⟩, hspace⟩, htext⟩, by omega⟩
    rw [← mem_utf8]
    exact (plain_name h).2

theorem plainTexts_iff (hnames : ∀ r ∈ perRef, validateRefName r.1 = true) :
    PlainTexts unpack perRef ↔ ∀ line ∈ reportLines unpack perRef, PlainLine line := by
  rw [reportLines, List.forall_mem_cons, List.forall_mem_map]
  constructor
  · intro h
    constructor
    · rcases unpack with msg | ⟨⟨⟩⟩
      · exact plain_unpackLine_error.mpr (h.unpack msg rfl)
      · exact ⟨by decide, by decide⟩
    · rintro ⟨name, (msg | ⟨⟨⟩⟩)⟩ hr
      · exact (plain_statusLine_error (hnames _ hr)).mpr (h.refused name msg hr)
      · exact (plain_statusLine_ok (hnames _ hr)).mpr (h.accepted name hr)
  · rintro ⟨hunpack, hrefs⟩
    refine ⟨fun msg hmsg => ?_, fun name hr => ?_, fun name msg hr => ?_⟩
    · rw [hmsg] at hunpack
      exact plain_unpackLine_error.mp hunpack
    · exact (plain_statusLine_ok (hnames _ hr)).mp (hrefs _ hr)
    · exact (plain_statusLine_error (hnames _ hr)).mp (hrefs _ hr)

theorem getLast?_reportLines (h : line ∈ reportLines unpack perRef) : line.getLast? = some 10 := by
  rw [reportLines, List.mem_cons, List.mem_map] at h
  rcases h with rfl | ⟨⟨name, (msg | ⟨⟨⟩⟩)⟩, -, rfl⟩
  · rcases unpack with msg | ⟨⟨⟩⟩ <;> exact List.getLast?_concat
  · exact List.getLast?_concat
  · exact List.getLast?_concat

theorem understood_of_plain (hnames : ∀ r ∈ perRef, validateRefName r.1 = true)
    (h : ∀ line ∈ reportLines unpack perRef, PlainLine line) :
    Understood (framedReport (reportLines unpack perRef).flatten) unpack perRef := by
  have hfits : ∀ p ∈ (reportLines unpack perRef).map PktLine.data ++ [.flush], p.Fits := by
    intro p hp
    rcases List.mem_append.mp hp with hp | hp
    · obtain ⟨line, hline, rfl⟩ := List.mem_map.mp hp
      exact (h line hline).1
    · rw [List.mem_singleton.mp hp]
      exact Nat.zero_le _
  have hlines := splitInclusive_lines fun line hline =>
    oneLine_of_count (getLast?_reportLines hline) (h line hline).2
  refine ⟨_, ?_, hfits, ?_⟩
  · have hframed := framed_encode fun p hp => (hfits p hp).code_lt
    rw [List.flatMap_append, List.flatMap_map] at hframed
    rw [framedReport, hlines]
    convert hframed using 2
    · refine List.flatMap_congr fun line _ => ?_
      rw [encodeData_eq]
      rfl
    · rfl
  · have hstatuses : readStatuses ((perRef.map statusLine).map .data ++ [.flush]) =
        some (perRef.map refStatus) := by
      refine readStatuses_map ?_
      rw [List.forall₂_map_left_iff, List.forall₂_same]
      exact fun r hr => readStatus_statusLine (hnames r hr)
    rw [reportLines, List.map_cons, List.cons_append, readReport, readUnpack_unpackLine, hstatuses]
    rfl

end Plain

section Claim

variable {caps : ReceiveCaps} {unpack : Except String Unit} {perRef : List RefResult}
  {ps qs : List PktLine} {s t : Bytes}

theorem Framed.append (hs : Framed ps s) (ht : Framed qs t) : Framed (ps ++ qs) (s ++ t) := by
  induction hs with
  | nil => exact ht
  | cons hhdr _ ih =>
    rw [List.cons_append, List.append_assoc, List.append_assoc]
    exact .cons hhdr ih

theorem framed_flush : Framed [.flush] encodeFlush :=
  @framed_encode [.flush] (List.forall_mem_singleton.mpr (by decide))

theorem delivered_side {pre : List Bytes} (hcaps : caps.sideBand64k = true)
    (hpre : Framed (pre.map .data) s) :
    Delivered caps (s ++ reportStatus caps unpack perRef) unpack perRef ↔
      (∀ c ∈ pre, Frame c) ∧ Understood ((pre.map .data).flatMap (bandPayload 1) ++
        framedReport (reportLines unpack perRef).flatten) unpack perRef := by
  obtain ⟨parts, hparts, hlen, hflat⟩ :=
    framed_writeChannel 1 (framedReport (reportLines unpack perRef).flatten)
  have hwire : Framed ((pre ++ parts.map (1 :: ·)).map .data ++ [.flush])
      (s ++ reportStatus caps unpack perRef) := by
    rw [reportStatus, if_pos hcaps, ← List.append_assoc, List.map_append, List.map_map]
    exact (hpre.append hparts).append framed_flush
  have hdata : ((pre ++ parts.map (1 :: ·)).map PktLine.data).flatMap (bandPayload 1) =
      (pre.map .data).flatMap (bandPayload 1) ++
        framedReport (reportLines unpack perRef).flatten := by
    have hpayload : ((parts.map (1 :: ·)).map PktLine.data).flatMap (bandPayload 1) =
        parts.flatten := by
      rw [List.map_map, List.flatMap_map]
      simp [bandPayload, List.flatMap_id']
    rw [List.map_append, List.flatMap_append, hpayload, hflat]
  have hone : ∀ c ∈ parts.map (1 :: ·), Frame c := by
    intro c hc
    obtain ⟨part, hpart, rfl⟩ := List.mem_map.mp hc
    exact ⟨hlen part hpart, .inl rfl⟩
  rw [Delivered, if_pos hcaps]
  constructor
  · rintro ⟨cs, hframed, hframes, hreport⟩
    have hinj : Function.Injective PktLine.data := fun _ _ => PktLine.data.inj
    have hcs := List.map_injective_iff.mpr hinj (List.append_left_injective _
      (hframed.unique hwire))
    rw [hcs] at hframes hreport
    rw [hdata] at hreport
    exact ⟨fun c hc => hframes c (List.mem_append_left _ hc), hreport⟩
  · rintro ⟨hframes, hreport⟩
    refine ⟨_, hwire, ?_, ?_⟩
    · exact List.forall_mem_append.mpr ⟨hframes, hone⟩
    · rw [hdata]
      exact hreport

theorem understood_iff {junk : Bytes} (hnames : ∀ r ∈ perRef, validateRefName r.1 = true)
    (hjunk : PlainTexts unpack perRef → junk = []) :
    Understood (junk ++ framedReport (reportLines unpack perRef).flatten) unpack perRef ↔
      PlainTexts unpack perRef := by
  constructor
  · intro h
    rw [plainTexts_iff hnames]
    refine lines_of_understood h ?_
    rw [List.length_append]
    exact Nat.le_add_left _ _
  · intro h
    rw [hjunk h]
    exact understood_of_plain hnames ((plainTexts_iff hnames).mp h)

theorem delivered_iff (hnames : ∀ r ∈ perRef, validateRefName r.1 = true) :
    Delivered caps (reportStatus caps unpack perRef) unpack perRef ↔ PlainTexts unpack perRef := by
  by_cases hcaps : caps.sideBand64k = true
  · have hside := @delivered_side caps unpack perRef [] [] hcaps .nil
    rw [List.nil_append] at hside
    rw [hside, and_iff_right (List.forall_mem_nil _)]
    exact understood_iff hnames fun _ => rfl
  · rw [Delivered, if_neg hcaps, reportStatus, if_neg hcaps]
    exact @understood_iff unpack perRef [] hnames fun _ => rfl

theorem refusal_delivered_iff {names : List String} {msg : String}
    (hnames : ∀ name ∈ names, validateRefName name = true) :
    (∃ wire, refusalReport caps names msg = some wire ∧
      Delivered caps wire (.error msg) (refused names msg)) ↔
      PlainTexts (.error msg) (refused names msg) := by
  have hrefs : ∀ r ∈ refused names msg, validateRefName r.1 = true :=
    List.forall_mem_map.mpr hnames
  by_cases hcaps : caps.sideBand64k = true
  · have hline : asLine (msg ++ "\n") = utf8 msg ++ [10] := by
      have hutf8 : utf8 (msg ++ "\n") = utf8 msg ++ [10] := by
        rw [utf8, String.toList_append, Utf8.encode, List.flatMap_append]
        rfl
      rw [asLine, hutf8, if_pos List.getLast?_concat]
    have hone : PlainTexts (.error msg) (refused names msg) →
        slices maxDataLen (2 :: (utf8 msg ++ [10])) = [2 :: (utf8 msg ++ [10])] := by
      intro h
      have hlen := (h.unpack msg rfl).2
      refine slices_of_length_le (List.cons_ne_nil _ _) ?_
      rw [List.length_cons, List.length_append, List.length_singleton, maxDataLen]
      rw [maxPktData] at hlen
      omega
    have hside := @delivered_side caps (.error msg) (refused names msg) _ _ hcaps
      (@framed_slices (2 :: (utf8 msg ++ [10])))
    rw [refusalReport]
    simp only [if_pos hcaps, sidebandPkt_eq, hline, Option.map_some, Option.some.injEq,
      exists_eq_left', hside]
    rw [understood_iff hrefs fun h => by rw [hone h]; rfl]
    refine and_iff_right_of_imp fun h => ?_
    rw [hone h, List.forall_mem_singleton]
    have hlen := (h.unpack msg rfl).2
    refine ⟨?_, .inr rfl⟩
    rw [List.length_cons, List.length_append, List.length_singleton]
    rw [maxPktData] at hlen
    omega
  · rw [refusalReport]
    simp only [if_neg hcaps, Option.some.injEq, exists_eq_left']
    exact delivered_iff hrefs

/-- A report is read back as one status a command, in order and with its text, if and only if no
text has a line end and every line fits into a packet; and so is the report of a refusal. -/
theorem report_faithful_iff (caps : ReceiveCaps) (unpack : Except String Unit)
    (perRef : List RefResult) (msg : String)
    (hnames : ∀ r ∈ perRef, validateRefName r.1 = true) :
    (Delivered caps (reportStatus caps unpack perRef) unpack perRef ↔
      PlainTexts unpack perRef) ∧
    ((∃ wire, refusalReport caps (perRef.map Prod.fst) msg = some wire ∧
      Delivered caps wire (.error msg) (refused (perRef.map Prod.fst) msg)) ↔
      PlainTexts (.error msg) (refused (perRef.map Prod.fst) msg)) :=
  ⟨delivered_iff hnames, refusal_delivered_iff (List.forall_mem_map.mpr hnames)⟩

/-- A push of two refs of which one is refused. -/
theorem report_faithful_iff_refused :
    Delivered { sideBand64k := true } (reportStatus { sideBand64k := true } (.ok ())
      [("refs/heads/a", .ok ()), ("refs/heads/b", .error "stale info")]) (.ok ())
      [("refs/heads/a", .ok ()), ("refs/heads/b", .error "stale info")] := by
  refine (report_faithful_iff { sideBand64k := true } (.ok ())
    [("refs/heads/a", .ok ()), ("refs/heads/b", .error "stale info")] "draining"
    (List.forall_iff_forall_mem.mp (by decide))).1.mpr ⟨?_, ?_, ?_⟩
  · intro msg hmsg
    cases hmsg
  · intro name hname
    rcases List.mem_cons.mp hname with h | h
    · cases h
      decide
    · cases List.mem_singleton.mp h
  · intro name msg hname
    rcases List.mem_cons.mp hname with h | h
    · cases h
    · cases List.mem_singleton.mp h
      decide

/-- A refusal whose text goes on with a line of its own says that another ref was updated. -/
theorem second_line_injected :
    readReport ([ascii "unpack ok\n", ascii "ng refs/heads/a no\n",
      ascii "ok refs/heads/b\n"].map .data ++ [.flush]) =
        some (ascii "ok", [⟨false, ascii "refs/heads/a", some (ascii "no")⟩,
          ⟨true, ascii "refs/heads/b", none⟩]) ∧
    Framed ([ascii "unpack ok\n", ascii "ng refs/heads/a no\n",
      ascii "ok refs/heads/b\n"].map .data ++ [.flush])
      (reportStatus {} (.ok ()) [("refs/heads/a", .error "no\nok refs/heads/b")]) ∧
    ¬ Delivered {} (reportStatus {} (.ok ()) [("refs/heads/a", .error "no\nok refs/heads/b")])
      (.ok ()) [("refs/heads/a", .error "no\nok refs/heads/b")] := by
  have hread : readReport ([ascii "unpack ok\n", ascii "ng refs/heads/a no\n",
      ascii "ok refs/heads/b\n"].map .data ++ [.flush]) =
        some (ascii "ok", [⟨false, ascii "refs/heads/a", some (ascii "no")⟩,
          ⟨true, ascii "refs/heads/b", none⟩]) := by decide
  have hframed : Framed ([ascii "unpack ok\n", ascii "ng refs/heads/a no\n",
      ascii "ok refs/heads/b\n"].map .data ++ [.flush])
      (reportStatus {} (.ok ()) [("refs/heads/a", .error "no\nok refs/heads/b")]) :=
    framed_encode (List.forall_iff_forall_mem.mp (by decide))
  refine ⟨hread, hframed, ?_⟩
  rintro ⟨ps, hps, -, hreport⟩
  rw [hps.unique hframed, hread, Option.some.injEq, Prod.mk.injEq] at hreport
  exact absurd (congrArg List.length hreport.2) (by decide)

end Claim

end Walgit.Pkt
