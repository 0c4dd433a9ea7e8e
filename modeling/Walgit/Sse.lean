import Walgit.Lib.Cutting
import Walgit.JsonSize

/-!
# The event stream

A long answer is streamed as packets: what the work reports, and at the end the
answer itself. The tasks that report are stopped after the answer is sent, so a
report can follow it. The client splits the text at blank lines, in whatever
pieces it comes, and takes the answer from it.
-/

namespace Walgit.Json

open JsonText

variable {text : List Char} {parts : List (List Char)}

theorem newline_notMem_escape (c : Char) : '\n' ∉ escape c := by
  unfold escape
  split_ifs with h1 h2 h3 h4 h5 h6 h7 h8
  all_goals try simp
  · have hdigit : ∀ n < 16, '\n' ≠ Nat.digitChar n := by decide
    simp only [unicodeEscape, hexDigits, List.mem_cons, List.not_mem_nil, or_false, not_or]
    refine ⟨by decide, by decide, ?_, ?_, ?_, ?_⟩ <;> exact hdigit _ (Nat.mod_lt _ (by decide))
  · rintro rfl
    exact h5 rfl

theorem newline_notMem_quote (cs : List Char) : '\n' ∉ quote cs := by
  simp [quote, quoteWith, newline_notMem_escape]

theorem newline_notMem_bracket {opening closing : Char} (ho : opening ≠ '\n')
    (hc : closing ≠ '\n') (h : ∀ p ∈ parts, '\n' ∉ p) : '\n' ∉ bracket opening closing parts := by
  cases parts with
  | nil => simp [bracket, List.intercalate, ho.symm, hc.symm]
  | cons p parts =>
    obtain ⟨hp, hparts⟩ := List.forall_mem_cons.mp h
    simp [bracket, intercalate_cons, ho.symm, hc.symm, hp]
    exact hparts

theorem newline_notMem_number {text : List Char} (h : ∀ c ∈ text, numberChar c = true) :
    '\n' ∉ text := fun hmem => absurd (h _ hmem) (by decide)

mutual

theorem newline_notMem_compact : ∀ v, Valid v → '\n' ∉ compact v
  | .null, _ => by decide
  | .bool b, _ => by cases b <;> decide
  | .int n, _ => newline_notMem_number fun _ => Collab.numberChar_of_int
  | .float text, hv => newline_notMem_number hv.chars
  | .string s, _ => newline_notMem_quote s.toList
  | .array items, hv =>
    newline_notMem_bracket (by decide) (by decide) (newline_notMem_compactItems items hv)
  | .object fields, hv =>
    newline_notMem_bracket (by decide) (by decide) (newline_notMem_compactFields fields hv.2)

theorem newline_notMem_compactItems : ∀ vs, ValidItems vs → ∀ p ∈ compactItems vs, '\n' ∉ p
  | [], _ => by simp [compactItems]
  | v :: vs, hv => by
    simp only [compactItems, List.forall_mem_cons]
    exact ⟨newline_notMem_compact v hv.1, newline_notMem_compactItems vs hv.2⟩

theorem newline_notMem_compactFields : ∀ fs, ValidFields fs →
    ∀ p ∈ compactFields fs, '\n' ∉ p
  | [], _ => by simp [compactFields]
  | (k, v) :: fs, hv => by
    rw [compactFields, List.forall_mem_cons]
    refine ⟨?_, newline_notMem_compactFields fs hv.2⟩
    simp [Collab.field, newline_notMem_quote, newline_notMem_compact v hv.1]

end

end Walgit.Json

namespace Walgit.Sse

open Json Cutting

section Server

inductive EventName
  | notice
  | progress
  | task
  | error
  | result
  deriving DecidableEq, Repr

def EventName.text : EventName → List Char
  | .notice => ['n', 'o', 't', 'i', 'c', 'e']
  | .progress => ['p', 'r', 'o', 'g', 'r', 'e', 's', 's']
  | .task => ['t', 'a', 's', 'k']
  | .error => ['e', 'r', 'r', 'o', 'r']
  | .result => ['r', 'e', 's', 'u', 'l', 't']

def eventField : List Char := ['e', 'v', 'e', 'n', 't', ':']

def dataField : List Char := ['d', 'a', 't', 'a', ':']

def blank : List Char := ['\n', '\n']

/-- A value whose text is JSON. -/
abbrev Document := { v : Json // v.Valid }

def packet (event : EventName) (data : Document) : List Char :=
  (eventField ++ ' ' :: event.text) ++ '\n' :: (dataField ++ ' ' :: compact data.1) ++ blank

/-- What the work reports; `percent` is a number that is printed with a point. -/
inductive Progress
  | notice (text : String)
  | progress (label : String) (done : ℕ) (total : Option ℕ) (unit : String)
      (percent : Option { t : String // FloatText t })
  | task (record : Document)

def Progress.eventName : Progress → EventName
  | .notice _ => .notice
  | .progress .. => .progress
  | .task _ => .task

def Progress.data : Progress → Document
  | .notice text => ⟨.object [("text", .string text)], by simp [Valid, ValidFields]⟩
  | .progress label done total unit percent =>
    ⟨.object ([("label", .string label), ("done", .int done)] ++
        (total.map fun n => ("total", Json.int n)).toList ++ [("unit", .string unit)] ++
        (percent.map fun t => ("percent", Json.float t.1)).toList), by
      cases total <;> cases percent <;> simp [Valid, ValidFields, Subtype.property]⟩
  | .task record => ⟨.object [("task", record.1)], by simp [Valid, ValidFields, record.2]⟩

def errorPacket (status : ℕ) (message : String) : Document :=
  ⟨.object [("status", .int status), ("message", .string message)], by simp [Valid, ValidFields]⟩

def commentText (c : List Char) : List Char := ':' :: ' ' :: c

def keepaliveComment : List Char := ['k', 'e', 'e', 'p', 'a', 'l', 'i', 'v', 'e']

def openingComment : List Char := ['w', 'a', 'l', 'g', 'i', 't']

/-- What is sent while the work is going on. -/
inductive Sent
  | keepalive
  | progress (p : Progress)

def Sent.text : Sent → List Char
  | .keepalive => commentText keepaliveComment ++ blank
  | .progress p => packet p.eventName p.data

abbrev Work := Except (ℕ × String) Document

def terminal : Work → List Char
  | .ok body => packet .result body
  | .error (status, message) => packet .error (errorPacket status message)

/-- The body of the response: the reports, the answer, and what is still sent until the tasks that
report are stopped. -/
def envelope (before : List Sent) (work : Work) (after : List Sent) : List Char :=
  (commentText openingComment ++ blank) ++ before.flatMap Sent.text ++ terminal work ++
    after.flatMap Sent.text

end Server

section Client

structure SseEvent where
  event : List Char
  data : List Char
  deriving DecidableEq, Repr

/-- White space and line ends of the client's language. -/
def isSpace (c : Char) : Bool :=
  let n := c.toNat
  (9 ≤ n && n ≤ 13) || (8192 ≤ n && n ≤ 8202) ||
    n ∈ [32, 160, 5760, 8232, 8233, 8239, 8287, 12288, 65279]

def trim (s : List Char) : List Char := (s.dropWhile isSpace).rdropWhile isSpace

def unspace : List Char → List Char
  | ' ' :: cs => cs
  | cs => cs

def readLine (st : List Char × List (List Char)) (line : List Char) :
    List Char × List (List Char) :=
  if eventField.isPrefixOf line then (trim (line.drop 6), st.2)
  else if dataField.isPrefixOf line then (st.1, st.2 ++ [unspace (line.drop 5)])
  else st

def dispatch (chunk : List Char) : Option SseEvent :=
  let st := (chunk.splitOn '\n').foldl readLine (['m', 'e', 's', 's', 'a', 'g', 'e'], [])
  if st.2 = [] then none else some ⟨st.1, List.intercalate ['\n'] st.2⟩

/-- The events of a body that comes in chunks; a body cut inside a character ends with a
replacement character. -/
def readSse (chunks : List (List Char)) (broken : Bool) : List SseEvent :=
  let st := chunks.foldl (feed '\n' ['\n']) ([], [])
  let buf := st.2 ++ if broken then ['\uFFFD'] else []
  (st.1 ++ if trim buf = [] then [] else [buf]).filterMap dispatch

/-- What the client has of an answer; the texts are those that are parsed. -/
structure Reading where
  reported : List SseEvent
  result : Option (List Char)
  error : Option (List Char)
  deriving DecidableEq, Repr

def Reading.take (r : Reading) (ev : SseEvent) : Reading :=
  if ev.event = EventName.notice.text ∨ ev.event = EventName.progress.text ∨
      ev.event = EventName.task.text then { r with reported := r.reported ++ [ev] }
  else if ev.event = EventName.result.text then { r with result := some ev.data }
  else if ev.event = EventName.error.text then { r with error := some ev.data }
  else r

inductive Answer
  | value (text : List Char)
  | failed (text : List Char)
  | ended
  deriving DecidableEq, Repr

def Reading.answer (r : Reading) : Answer :=
  match r.error, r.result with
  | some text, _ => .failed text
  | none, some text => .value text
  | none, none => .ended

def readEnvelope (chunks : List (List Char)) (broken : Bool) : Reading :=
  (readSse chunks broken).foldl Reading.take ⟨[], none, none⟩

end Client

section Spec

/-- A packet or a comment, in front of the blank line that ends it. -/
inductive Item
  | comment (c : List Char)
  | packet (event : EventName) (data : Document)

def Item.block : Item → List Char
  | .comment c => commentText c
  | .packet event data =>
    (eventField ++ ' ' :: event.text) ++ '\n' :: (dataField ++ ' ' :: compact data.1)

def Item.event : Item → Option SseEvent
  | .comment _ => none
  | .packet event data => some ⟨event.text, compact data.1⟩

def Sent.item : Sent → Item
  | .keepalive => .comment keepaliveComment
  | .progress p => .packet p.eventName p.data

def Sent.event : Sent → Option SseEvent
  | .keepalive => none
  | .progress p => some ⟨p.eventName.text, compact p.data.1⟩

def reports (l : List Sent) : List SseEvent := l.filterMap Sent.event

def answerItem : Work → Item
  | .ok body => .packet .result body
  | .error (status, message) => .packet .error (errorPacket status message)

def envelopeItems (before : List Sent) (work : Work) (after : List Sent) : List Item :=
  .comment openingComment :: (before.map Sent.item ++ answerItem work :: after.map Sent.item)

def streamText (items : List Item) : List Char :=
  (items.map fun i => i.block ++ blank).flatten

/-- A comment is one line. -/
def Item.Plain : Item → Prop
  | .comment c => '\n' ∉ c
  | .packet _ _ => True

def Work.answer : Work → Answer
  | .ok body => .value (compact body.1)
  | .error (status, message) => .failed (compact (errorPacket status message).1)

def Answer.event : Answer → Option SseEvent
  | .value text => some ⟨EventName.result.text, text⟩
  | .failed text => some ⟨EventName.error.text, text⟩
  | .ended => none

variable {items : List Item} {i : Item} {event : EventName} {data : Document}
  {before after : List Sent} {work : Work} {chunks : List (List Char)} {r : Reading}

theorem newline_notMem_event : '\n' ∉ eventField ++ ' ' :: event.text := by
  cases event <;> decide

theorem newline_notMem_data : '\n' ∉ dataField ++ ' ' :: compact data.1 := by
  simpa [dataField] using newline_notMem_compact data.1 data.2

theorem newline_notMem_comment {c : List Char} (h : '\n' ∉ c) : '\n' ∉ commentText c := by
  simpa [commentText] using h

theorem streamText_cons : streamText (i :: items) = i.block ++ blank ++ streamText items := by
  simp [streamText]

theorem streamText_sent {l : List Sent} : streamText (l.map Sent.item) = l.flatMap Sent.text := by
  induction l with
  | nil => rfl
  | cons x l ih =>
    rw [List.map_cons, streamText_cons, ih, List.flatMap_cons]
    cases x <;> rfl

theorem envelope_eq : envelope before work after =
    streamText (envelopeItems before work after) := by
  have happend : ∀ xs ys, streamText (xs ++ ys) = streamText xs ++ streamText ys := by
    simp [streamText]
  have hwork : (answerItem work).block ++ blank = terminal work := by
    cases work <;> rfl
  rw [envelopeItems, streamText_cons, happend, streamText_cons, streamText_sent, streamText_sent,
    hwork, envelope, Item.block]
  simp

theorem cut_blank : cut '\n' ['\n'] blank = some ([], []) := by decide

theorem cut_block (h : i.Plain) : cut '\n' ['\n'] (i.block ++ blank) = some (i.block, []) := by
  cases i with
  | comment c => simp [Item.block, cut_skip (newline_notMem_comment h), cut_blank]
  | packet event data =>
    have hdata : cut '\n' ['\n'] ('\n' :: (dataField ++ ' ' :: compact data.1 ++ blank)) =
        some ('\n' :: (dataField ++ ' ' :: compact data.1), []) := by
      rw [cut, if_neg (by simp [dataField, List.isPrefixOf]), cut_skip newline_notMem_data,
        cut_blank]
      simp
    rw [Item.block, List.append_assoc, cut_skip newline_notMem_event, List.cons_append, hdata]
    simp

theorem splitOn_lines (ls : List (List Char)) (h : ∀ l ∈ ls, '\n' ∉ l) (hne : ls ≠ []) :
    (List.intercalate ['\n'] ls).splitOn '\n' = ls :=
  List.splitOn_intercalate '\n' h hne

theorem dispatch_block (h : i.Plain) : dispatch i.block = i.event := by
  cases i with
  | comment c =>
    have hsplit : (commentText c).splitOn '\n' = [commentText c] := by
      simpa [List.intercalate] using splitOn_lines [commentText c]
        (by simpa using newline_notMem_comment h) (by simp)
    rw [Item.block, dispatch, hsplit]
    simp [readLine, Item.event, commentText, eventField, dataField, List.isPrefixOf]
  | packet event data =>
    have hsplit : ((eventField ++ ' ' :: event.text) ++
        '\n' :: (dataField ++ ' ' :: compact data.1)).splitOn '\n' =
        [eventField ++ ' ' :: event.text, dataField ++ ' ' :: compact data.1] := by
      rw [← splitOn_lines [eventField ++ ' ' :: event.text, dataField ++ ' ' :: compact data.1] _
        (by simp)]
      · simp [List.intercalate]
      · simp only [List.forall_mem_cons]
        exact ⟨newline_notMem_event, newline_notMem_data, by simp⟩
    have htrim : trim (' ' :: event.text) = event.text := by
      cases event <;> decide
    rw [Item.block, dispatch, hsplit]
    simp [readLine, Item.event, List.isPrefixOf, unspace, htrim, List.intercalate, eventField,
      dataField]

theorem readSse_items (hplain : ∀ i ∈ items, i.Plain) (h : chunks.flatten = streamText items) :
    readSse chunks false = items.filterMap Item.event := by
  have hnil : ([], []) = drain '\n' ['\n'] [] := (drain_none rfl).symm
  have hdrain : drain '\n' ['\n'] (streamText items) = (items.map Item.block, []) := by
    rw [streamText, ← drain_flatten (items.map Item.block), List.map_map]
    · rfl
    · intro p hp
      obtain ⟨i, hi, rfl⟩ := List.mem_map.mp hp
      exact cut_block (hplain i hi)
  rw [readSse, hnil, foldl_feed, h, List.nil_append, hdrain]
  simp only [if_false, List.append_nil, Bool.false_eq_true]
  rw [if_pos (by rfl), List.append_nil, List.filterMap_map]
  apply List.filterMap_congr
  intro i hi
  exact dispatch_block (hplain i hi)

def EventName.Reports (event : EventName) : Prop := event ≠ .error ∧ event ≠ .result

theorem take_report (h : event.Reports) {text : List Char} :
    r.take ⟨event.text, text⟩ = { r with reported := r.reported ++ [⟨event.text, text⟩] } := by
  obtain ⟨herror, hresult⟩ := h
  cases event <;> simp_all [Reading.take]

theorem eventName_reports (p : Progress) : p.eventName.Reports := by
  cases p <;> simp [EventName.Reports, Progress.eventName]

theorem foldl_reports {l : List Sent} :
    (reports l).foldl Reading.take r = { r with reported := r.reported ++ reports l } := by
  induction l generalizing r with
  | nil => simp [reports]
  | cons x l ih =>
    cases x with
    | keepalive => exact ih
    | progress p =>
      have hcons : reports (.progress p :: l) =
          ⟨p.eventName.text, compact p.data.1⟩ :: reports l := rfl
      rw [hcons, List.foldl_cons, take_report (eventName_reports p), ih]
      simp

theorem filterMap_sent {l : List Sent} : (l.map Sent.item).filterMap Item.event = reports l := by
  rw [List.filterMap_map, reports]
  apply List.filterMap_congr
  intro x _
  cases x <;> rfl

theorem events_envelope : (envelopeItems before work after).filterMap Item.event =
    reports before ++ work.answer.event.toList ++ reports after := by
  have hwork : (answerItem work).event = work.answer.event := by
    cases work <;> rfl
  rw [envelopeItems, List.filterMap_cons_none rfl, List.filterMap_append, filterMap_sent,
    List.filterMap_cons, filterMap_sent, hwork]
  cases work.answer <;> simp [Answer.event]

theorem answer_of_events (before : List Sent) (work : Work) (after : List Sent) :
    let r := (reports before ++ work.answer.event.toList ++ reports after).foldl Reading.take
      ⟨[], none, none⟩
    r.answer = work.answer ∧ r.reported = reports before ++ reports after := by
  rw [List.foldl_append, List.foldl_append, foldl_reports, foldl_reports]
  cases work <;> simp [Work.answer, Answer.event, Reading.take, EventName.text, Reading.answer]

theorem plain_envelopeItems : ∀ i ∈ envelopeItems before work after, i.Plain := by
  have hsent : ∀ l : List Sent, ∀ i ∈ l.map Sent.item, i.Plain := by
    intro l i hi
    obtain ⟨x, -, rfl⟩ := List.mem_map.mp hi
    cases x <;> simp [Sent.item, Item.Plain, keepaliveComment]
  intro i hi
  simp only [envelopeItems, List.mem_cons, List.mem_append] at hi
  rcases hi with rfl | hi | rfl | hi
  · simp [Item.Plain, openingComment]
  · exact hsent before i hi
  · cases work <;> simp [answerItem, Item.Plain]
  · exact hsent after i hi

/-- The client has the answer of the work and all reports in their order, in whatever chunks the
body comes and whatever is still sent after the answer. -/
theorem envelope_answer (before after : List Sent) (work : Work) (chunks : List (List Char))
    (h : chunks.flatten = envelope before work after) :
    (readEnvelope chunks false).answer = work.answer ∧
      (readEnvelope chunks false).reported = reports (before ++ after) := by
  rw [envelope_eq] at h
  obtain ⟨hanswer, hreported⟩ := answer_of_events before work after
  rw [← events_envelope, ← readSse_items plain_envelopeItems h, ← readEnvelope] at hanswer hreported
  exact ⟨hanswer, by simpa [reports] using hreported⟩

/-- A report, the answer, and a keepalive that is still sent, in two chunks. -/
theorem envelope_answer_late :
    let body := envelope [.progress (.notice "cloning")] (.error (503, "busy")) [.keepalive]
    (readEnvelope [body.take 20, body.drop 20] false).answer = Work.answer (.error (503, "busy")) ∧
      (readEnvelope [body.take 20, body.drop 20] false).reported =
        reports ([.progress (.notice "cloning")] ++ [.keepalive]) :=
  envelope_answer [.progress (.notice "cloning")] [.keepalive] (.error (503, "busy")) _ (by simp)

section Broken

variable {tail full l : List Char} {ev : SseEvent} {evs : List SseEvent}

/-- The beginning of a text, with a replacement character where a character is cut. -/
def Beginning (t full : List Char) : Prop :=
  t <+: full ∨ ∃ u, u <+: full ∧ t = u ++ ['\uFFFD']

/-- What the reader puts at the end of the buffer. -/
def flushOf (broken : Bool) : List Char := if broken then ['\uFFFD'] else []

theorem beginning_append {broken : Bool} (h : t <+: full) :
    Beginning (t ++ flushOf broken) full := by
  cases broken with
  | false => exact .inl (by simpa [flushOf] using h)
  | true => exact .inr ⟨t, h, rfl⟩

theorem newline_notMem_flush {broken : Bool} : '\n' ∉ flushOf broken := by
  cases broken <;> decide

theorem dispatch_lines (ls : List (List Char)) (h : ∀ l ∈ ls, '\n' ∉ l) (hne : ls ≠ []) :
    dispatch (List.intercalate ['\n'] ls) =
      let st := ls.foldl readLine (['m', 'e', 's', 's', 'a', 'g', 'e'], [])
      if st.2 = [] then none else some ⟨st.1, List.intercalate ['\n'] st.2⟩ := by
  rw [dispatch, splitOn_lines ls h hne]

theorem readLine_other {st : List Char × List (List Char)}
    (h : ∀ c ∈ l.head?, c ≠ 'e' ∧ c ≠ 'd') : readLine st l = st := by
  cases l with
  | nil => rfl
  | cons c l =>
    obtain ⟨he, hd⟩ := h c rfl
    simp [readLine, eventField, dataField, List.isPrefixOf, he.symm, hd.symm]

theorem readLine_event {st : List Char × List (List Char)} :
    readLine st (eventField ++ ' ' :: event.text) = (event.text, st.2) := by
  have htrim : trim (' ' :: event.text) = event.text := by
    cases event <;> decide
  simp [readLine, eventField, htrim]

theorem readLine_data {st : List Char × List (List Char)} :
    readLine st (dataField ++ l) = (st.1, st.2 ++ [unspace l]) := by
  simp [readLine, eventField, dataField, List.isPrefixOf]

theorem dispatch_quiet (ls : List (List Char)) (h : ∀ l ∈ ls, '\n' ∉ l) (hne : ls ≠ [])
    (hquiet : ∀ l ∈ ls, dataField.isPrefixOf l = false) :
    dispatch (List.intercalate ['\n'] ls) = none := by
  have hnone : ∀ st : List Char × List (List Char), (ls.foldl readLine st).2 = st.2 := by
    clear h hne
    induction ls with
    | nil => simp
    | cons l ls ih =>
      intro st
      obtain ⟨hl, hls⟩ := List.forall_mem_cons.mp hquiet
      rw [List.foldl_cons, ih hls, readLine]
      split_ifs <;> simp_all
  rw [dispatch_lines ls h hne]
  exact if_pos (hnone _)

theorem prefix_line {a b p : List Char} (h : p <+: a ++ '\n' :: b) :
    p <+: a ∨ ∃ q, q <+: b ∧ p = a ++ '\n' :: q := by
  rcases List.prefix_or_prefix_of_prefix h (List.prefix_append _ _) with hle | ⟨r, rfl⟩
  · exact .inl hle
  · rw [List.prefix_append_right_inj] at h
    cases r with
    | nil => exact .inl (by simp)
    | cons c q =>
      rw [List.cons_prefix_cons] at h
      exact .inr ⟨q, h.2, by rw [h.1]⟩

theorem readLine_part (st : List Char × List (List Char)) (broken : Bool)
    (h : l <+: dataField ++ ' ' :: full) :
    readLine st (l ++ flushOf broken) = st ∨ ∃ t, Beginning t full ∧
      readLine st (l ++ flushOf broken) = (st.1, st.2 ++ [t]) := by
  have hshort : ∀ l ∈ dataField.inits, l ≠ dataField → ∀ broken,
      dataField.isPrefixOf (l ++ flushOf broken) = false ∧
        eventField.isPrefixOf (l ++ flushOf broken) = false := by
    decide
  rcases List.prefix_or_prefix_of_prefix h (List.prefix_append _ _) with hle | ⟨r, rfl⟩
  · rcases eq_or_ne l dataField with rfl | hne
    · refine .inr ⟨[] ++ flushOf broken, beginning_append List.nil_prefix, ?_⟩
      rw [readLine_data]
      cases broken <;> rfl
    · obtain ⟨hdata, hevent⟩ := hshort l ((List.mem_inits _ _).mpr hle) hne broken
      exact .inl (by simp [readLine, hdata, hevent])
  · right
    rw [List.prefix_append_right_inj] at h
    rw [List.append_assoc, readLine_data]
    cases r with
    | nil => exact ⟨[] ++ flushOf broken, beginning_append List.nil_prefix, by cases broken <;> rfl⟩
    | cons c v =>
      obtain ⟨rfl, hv⟩ := List.cons_prefix_cons.mp h
      exact ⟨v ++ flushOf broken, beginning_append hv, rfl⟩

theorem quiet_line (h : ∀ c ∈ l.head?, c ≠ 'd') : dataField.isPrefixOf l = false := by
  cases l with
  | nil => rfl
  | cons c l => simp [dataField, List.isPrefixOf, (h c rfl).symm]

theorem quiet_flush {broken : Bool} : dataField.isPrefixOf (flushOf broken) = false := by
  cases broken <;> decide

theorem quiet_part {a : List Char} {broken : Bool} (h : l <+: a) (ha : ∀ c ∈ a.head?, c ≠ 'd') :
    dataField.isPrefixOf (l ++ flushOf broken) = false := by
  cases l with
  | nil => exact quiet_flush
  | cons c l =>
    obtain ⟨r, rfl⟩ := h
    exact quiet_line ha

theorem dispatch_comment {c : List Char} {broken : Bool} (hc : '\n' ∉ c)
    (h : tail <+: commentText c ++ blank) : dispatch (tail ++ flushOf broken) = none := by
  have hline := newline_notMem_comment hc
  have hquiet : dataField.isPrefixOf (commentText c) = false := quiet_line (by simp [commentText])
  have hflush : '\n' ∉ flushOf broken := newline_notMem_flush
  rcases prefix_line h with hle | ⟨q, hq, rfl⟩
  · have hpart : '\n' ∉ tail ++ flushOf broken := by
      rw [List.mem_append, not_or]
      exact ⟨fun hmem => hline (hle.subset hmem), hflush⟩
    have hnone := dispatch_quiet [tail ++ flushOf broken] (by simpa using hpart) (by simp)
      (by simpa using quiet_part hle (by simp [commentText]))
    simpa [List.intercalate] using hnone
  · rcases prefix_line (a := []) hq with hle | ⟨q', hq', rfl⟩
    · obtain rfl := List.prefix_nil.mp hle
      have hnone := dispatch_quiet [commentText c, flushOf broken]
        (by simp [hline, hflush]) (by simp) (by simp [hquiet, quiet_flush])
      simpa [List.intercalate] using hnone
    · obtain rfl := List.prefix_nil.mp hq'
      have hnone := dispatch_quiet [commentText c, [], flushOf broken]
        (by simp [hline, hflush]) (by simp) (by simp [hquiet, quiet_flush]; rfl)
      simpa [List.intercalate] using hnone

theorem dispatch_part {broken : Bool} (h : tail <+: i.block ++ blank) (hplain : i.Plain)
    (hev : ev ∈ dispatch (tail ++ flushOf broken)) :
    ∃ full, i.event = some ⟨ev.event, full⟩ ∧ Beginning ev.data full := by
  have hflush : '\n' ∉ flushOf broken := newline_notMem_flush
  cases i with
  | comment c =>
    rw [dispatch_comment hplain h] at hev
    simp at hev
  | packet event data =>
    refine ⟨compact data.1, ?_⟩
    rw [Item.block, List.append_assoc, List.cons_append] at h
    rcases prefix_line h with hle | ⟨q, hq, rfl⟩
    · have hpart : '\n' ∉ tail ++ flushOf broken := by
        rw [List.mem_append, not_or]
        exact ⟨fun hmem => newline_notMem_event (hle.subset hmem), hflush⟩
      have hnone := dispatch_quiet [tail ++ flushOf broken] (by simpa using hpart) (by simp)
        (by simpa using quiet_part hle (by simp [eventField]))
      simp only [List.intercalate, List.intersperse_singleton, List.flatten_singleton] at hnone
      rw [hnone] at hev
      simp at hev
    · have hline : '\n' ∉ eventField ++ ' ' :: event.text := newline_notMem_event
      rcases prefix_line hq with hle | ⟨q', hq', rfl⟩
      · have hpart : '\n' ∉ q ++ flushOf broken := by
          rw [List.mem_append, not_or]
          exact ⟨fun hmem => newline_notMem_data (hle.subset hmem), hflush⟩
        have hlines := dispatch_lines [eventField ++ ' ' :: event.text, q ++ flushOf broken]
          (List.forall_mem_cons.mpr ⟨hline, by simpa using hpart⟩) (by simp)
        simp only [List.foldl_cons, List.foldl_nil, readLine_event] at hlines
        rcases readLine_part (event.text, []) broken hle with hst | ⟨t, ht, hst⟩
        · have hnone : dispatch (eventField ++ ' ' :: event.text ++ '\n' :: q ++ flushOf broken) =
              none := by
            simpa [List.intercalate, hst] using hlines
          rw [hnone] at hev
          simp at hev
        · have hsome : dispatch (eventField ++ ' ' :: event.text ++ '\n' :: q ++ flushOf broken) =
              some ⟨event.text, t⟩ := by
            simpa [List.intercalate, hst] using hlines
          obtain rfl := Option.some_inj.mp (hsome.symm.trans hev)
          exact ⟨rfl, ht⟩
      · have hdata : '\n' ∉ dataField ++ ' ' :: compact data.1 := newline_notMem_data
        have hquiet : ∀ st, readLine st (flushOf broken) = st := fun st =>
          readLine_other (by cases broken <;> simp [flushOf])
        have hunspace : unspace (' ' :: compact data.1) = compact data.1 := rfl
        have hsome : dispatch (eventField ++ ' ' :: event.text ++
            '\n' :: (dataField ++ ' ' :: compact data.1 ++ '\n' :: q') ++ flushOf broken) =
              some ⟨event.text, compact data.1⟩ := by
          rcases prefix_line (a := []) hq' with hnil | ⟨u, hu, rfl⟩
          · obtain rfl := List.prefix_nil.mp hnil
            have hlines := dispatch_lines [eventField ++ ' ' :: event.text,
              dataField ++ ' ' :: compact data.1, flushOf broken]
              (List.forall_mem_cons.mpr ⟨hline, List.forall_mem_cons.mpr
                ⟨hdata, by simpa using hflush⟩⟩) (by simp)
            simpa [List.intercalate, readLine_event, readLine_data, hquiet, hunspace] using hlines
          · obtain rfl := List.prefix_nil.mp hu
            have hlines := dispatch_lines [eventField ++ ' ' :: event.text,
              dataField ++ ' ' :: compact data.1, [], flushOf broken]
              (List.forall_mem_cons.mpr ⟨hline, List.forall_mem_cons.mpr
                ⟨hdata, by simpa using hflush⟩⟩) (by simp)
            have hempty : ∀ st, readLine st [] = st := fun _ => rfl
            simpa [List.intercalate, readLine_event, readLine_data, hquiet, hunspace, hempty]
              using hlines
        obtain rfl := Option.some_inj.mp (hsome.symm.trans hev)
        exact ⟨rfl, .inl (List.prefix_refl _)⟩

/-- Every event of a stream that is cut is one that was sent, but for the end of its data. -/
theorem readSse_part {broken : Bool} (hplain : ∀ i ∈ items, i.Plain)
    (h : chunks.flatten <+: streamText items) (hev : ev ∈ readSse chunks broken) :
    ∃ i ∈ items, ∃ full, i.event = some ⟨ev.event, full⟩ ∧ Beginning ev.data full := by
  have hblocks : ∀ p ∈ items.map Item.block, cut '\n' ['\n'] (p ++ ['\n', '\n']) =
      some (p, []) := by
    intro p hp
    obtain ⟨i, hi, rfl⟩ := List.mem_map.mp hp
    exact cut_block (hplain i hi)
  have htext : streamText items =
      ((items.map Item.block).map fun p => p ++ ['\n', '\n']).flatten := by
    rw [List.map_map, streamText]
    rfl
  rw [htext] at h
  obtain ⟨done, later, hsplit, hdone, hrest⟩ := drain_part hblocks h
  obtain ⟨items₁, items₂, rfl, rfl, rfl⟩ := List.map_eq_append_iff.mp hsplit
  have hnil : ([], []) = drain '\n' ['\n'] [] := drain_nil.symm
  rw [readSse, hnil, foldl_feed, List.nil_append, List.filterMap_append, List.mem_append] at hev
  rcases hev with hev | hev
  · rw [hdone, List.mem_filterMap] at hev
    obtain ⟨b, hb, hev⟩ := hev
    obtain ⟨i, hi, rfl⟩ := List.mem_map.mp hb
    have hi' := List.mem_append_left items₂ hi
    rw [dispatch_block (hplain i hi')] at hev
    exact ⟨i, hi', ev.data, hev, .inl (List.prefix_refl _)⟩
  · have hev' : ev ∈ dispatch ((drain '\n' ['\n'] chunks.flatten).2 ++ flushOf broken) := by
      split_ifs at hev with hb htrim htrim
      · simp at hev
      · simpa [hb, flushOf] using hev
      · simp at hev
      · simpa [hb, flushOf] using hev
    generalize (drain '\n' ['\n'] chunks.flatten).2 = tail at hrest hev'
    cases tail with
    | nil =>
      have hnone : dispatch ([] ++ flushOf broken) = none := by
        cases broken <;> decide
      rw [hnone] at hev'
      simp at hev'
    | cons c tail =>
      obtain ⟨p, hp, hpart⟩ := hrest c rfl
      cases items₂ with
      | nil => simp at hp
      | cons i items₂ =>
        obtain rfl : i.block = p := by simpa using hp
        have hi : i ∈ items₁ ++ i :: items₂ := by simp
        obtain ⟨full, hfull⟩ := dispatch_part hpart (hplain i hi) hev'
        exact ⟨i, hi, full, hfull⟩

theorem result_take {t : List Char} (h : (r.take ev).result = some t) :
    r.result = some t ∨ ev = ⟨EventName.result.text, t⟩ := by
  unfold Reading.take at h
  split_ifs at h with h1 h2 h3
  · exact .inl h
  · cases ev
    simp_all
  · exact .inl h
  · exact .inl h

theorem error_take {t : List Char} (h : (r.take ev).error = some t) :
    r.error = some t ∨ ev = ⟨EventName.error.text, t⟩ := by
  unfold Reading.take at h
  split_ifs at h with h1 h2 h3
  · exact .inl h
  · exact .inl h
  · cases ev
    simp_all
  · exact .inl h

theorem foldl_take (evs : List SseEvent) (r : Reading) (t : List Char) :
    ((evs.foldl Reading.take r).result = some t →
        r.result = some t ∨ ⟨EventName.result.text, t⟩ ∈ evs) ∧
      ((evs.foldl Reading.take r).error = some t →
        r.error = some t ∨ ⟨EventName.error.text, t⟩ ∈ evs) := by
  induction evs generalizing r with
  | nil => simp
  | cons ev evs ih =>
    obtain ⟨hresult, herror⟩ := ih (r.take ev)
    constructor
    · intro h
      rcases hresult h with hr | hmem
      · rcases result_take hr with hr | rfl
        · exact .inl hr
        · exact .inr List.mem_cons_self
      · exact .inr (List.mem_cons_of_mem _ hmem)
    · intro h
      rcases herror h with hr | hmem
      · rcases error_take hr with hr | rfl
        · exact .inl hr
        · exact .inr List.mem_cons_self
      · exact .inr (List.mem_cons_of_mem _ hmem)

theorem of_answer {t : List Char} : (r.answer = .value t → r.result = some t) ∧
    (r.answer = .failed t → r.error = some t) := by
  rw [Reading.answer]
  cases r.error <;> cases r.result <;> simp

theorem answer_event_iff : (work.answer.event = some ⟨EventName.result.text, full⟩ ↔
    work.answer = .value full) ∧
      (work.answer.event = some ⟨EventName.error.text, full⟩ ↔ work.answer = .failed full) := by
  cases work <;> simp [Work.answer, Answer.event, EventName.text]

theorem event_answer {name : List Char} (hi : i ∈ envelopeItems before work after)
    (hname : name = EventName.result.text ∨ name = EventName.error.text)
    (h : i.event = some ⟨name, full⟩) : work.answer.event = some ⟨name, full⟩ := by
  have hsent : ∀ l : List Sent, i ∉ l.map Sent.item := by
    intro l hl
    obtain ⟨x, -, rfl⟩ := List.mem_map.mp hl
    cases x with
    | keepalive => simp [Sent.item, Item.event] at h
    | progress p =>
      simp only [Sent.item, Item.event, Option.some_inj, SseEvent.mk.injEq] at h
      obtain ⟨rfl, -⟩ := h
      cases p <;> simp [Progress.eventName, EventName.text] at hname
  simp only [envelopeItems, List.mem_cons, List.mem_append, hsent, false_or, or_false] at hi
  rcases hi with rfl | rfl
  · simp [Item.event] at h
  · rw [← h]
    cases work <;> rfl

/-- A body that is cut anywhere never gives another answer: there is none, or it is a beginning of
the answer of the work. -/
theorem envelope_cut (before after : List Sent) (work : Work) (chunks : List (List Char))
    (broken : Bool) (h : chunks.flatten <+: envelope before work after) :
    match (readEnvelope chunks broken).answer with
    | .value t => ∃ full, work.answer = .value full ∧ Beginning t full
    | .failed t => ∃ full, work.answer = .failed full ∧ Beginning t full
    | .ended => True := by
  have hevent : ∀ name t, name = EventName.result.text ∨ name = EventName.error.text →
      ⟨name, t⟩ ∈ readSse chunks broken →
        ∃ full, work.answer.event = some ⟨name, full⟩ ∧ Beginning t full := by
    intro name t hname hmem
    rw [envelope_eq] at h
    obtain ⟨i, hi, full, hfull, hbegin⟩ := readSse_part plain_envelopeItems h hmem
    exact ⟨full, event_answer hi hname hfull, hbegin⟩
  cases hans : (readEnvelope chunks broken).answer with
  | value t =>
    have hmem := ((foldl_take _ _ t).1 (of_answer.1 hans)).resolve_left (by simp)
    obtain ⟨full, hfull, hbegin⟩ := hevent _ t (.inl rfl) hmem
    exact ⟨full, answer_event_iff.1.mp hfull, hbegin⟩
  | failed t =>
    have hmem := ((foldl_take _ _ t).2 (of_answer.2 hans)).resolve_left (by simp)
    obtain ⟨full, hfull, hbegin⟩ := hevent _ t (.inr rfl) hmem
    exact ⟨full, answer_event_iff.2.mp hfull, hbegin⟩
  | ended => trivial

/-- A body that ends with the name of its last field. -/
theorem envelope_cut_early :
    match (readEnvelope [(envelope [.keepalive] (.error (503, "busy")) []).take 60]
      true).answer with
    | .value t => ∃ full, Work.answer (.error (503, "busy")) = .value full ∧ Beginning t full
    | .failed t => ∃ full, Work.answer (.error (503, "busy")) = .failed full ∧ Beginning t full
    | .ended => True :=
  envelope_cut [.keepalive] [] (.error (503, "busy")) _ true
    (by simpa using List.take_prefix 60 _)

end Broken

end Spec

end Walgit.Sse
