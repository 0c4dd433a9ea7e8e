import Walgit.Entries
import Walgit.Lib.Decimal
import Walgit.Lib.JsonText
import Mathlib.Data.List.Sort

/-!
# The signed bytes of an entry

The web SDK signs its own canonical text of an entry; the server and the CLI
verify the signature against the text they build from the entry they parse.
Both are compact JSON with sorted keys. The reader clears `sig` and keeps the
field, the SDK signs before it adds one: the texts have different numbers of
fields, so no entry of the SDK is ever verified.
-/

namespace Walgit.Collab

open Decimal JsonText

/-- A string of JavaScript: UTF-16 code units, paired or not. -/
abbrev JsString := List UInt16

inductive JsValue (N : Type)
  | undefined
  | null
  | bool (b : Bool)
  | number (n : N)
  | string (s : JsString)
  | array (items : List (JsValue N))
  | object (fields : List (JsString × JsValue N))

/-- The numbers of the two languages: the text `JSON.stringify` gives a number, and the value
`serde_json` reads from that text. Both are made of number characters, or `null`. -/
structure Numbers (N : Type) where
  ofInt : ℤ → N
  text : N → List Char
  read : N → Json
  text_plain : ∀ n, ∀ c ∈ text n, plainChar c = true
  read_plain : ∀ n, read n = .null ∨ (∃ i, read n = .int i) ∨
    ∃ t, read n = .float t ∧ ∀ c ∈ t.toList, plainChar c = true

inductive CodePoint
  | scalar (c : Char)
  | lone (unit : UInt16)
  deriving DecidableEq, Repr

def isHighSurrogate (u : UInt16) : Bool := 0xD800 ≤ u.toNat && u.toNat < 0xDC00

def isLowSurrogate (u : UInt16) : Bool := 0xDC00 ≤ u.toNat && u.toNat < 0xE000

def CodePoint.ofUnit (u : UInt16) : CodePoint :=
  if isHighSurrogate u || isLowSurrogate u then .lone u else .scalar (Char.ofNat u.toNat)

def CodePoint.ofPair (hi lo : UInt16) : CodePoint :=
  .scalar (Char.ofNat (0x10000 + (hi.toNat - 0xD800) * 0x400 + (lo.toNat - 0xDC00)))

def codePoints : JsString → List CodePoint
  | [] => []
  | [u] => [.ofUnit u]
  | hi :: lo :: rest =>
    if isHighSurrogate hi && isLowSurrogate lo then .ofPair hi lo :: codePoints rest
    else .ofUnit hi :: codePoints (lo :: rest)

/-- `JSON.stringify` escapes a surrogate that is not paired. -/
def CodePoint.escape : CodePoint → List Char
  | .scalar c => JsonText.escape c
  | .lone u => unicodeEscape u.toNat

def CodePoint.char : CodePoint → Option Char
  | .scalar c => some c
  | .lone _ => none

def jsQuote (s : JsString) : List Char := quoteWith ((codePoints s).flatMap CodePoint.escape)

/-- The order of `toSorted`: by code units. -/
def unitsLe : JsString → JsString → Bool
  | [], _ => true
  | _ :: _, [] => false
  | a :: as, b :: bs => a < b || (a == b && unitsLe as bs)

def field (key text : List Char) : List Char := key ++ ':' :: text

def JsValue.isUndefined {N : Type} : JsValue N → Bool
  | .undefined => true
  | _ => false

section Sdk

variable {N : Type} (numbers : Numbers N)

mutual

/-- `canonicalize` of the SDK. In an array `join` leaves nothing for `undefined`. -/
def jsCanonicalize : JsValue N → List Char
  | .undefined => []
  | .null => "null".toList
  | .bool b => if b then "true".toList else "false".toList
  | .number n => numbers.text n
  | .string s => jsQuote s
  | .array items => bracket '[' ']' (jsItems items)
  | .object fields =>
    bracket '\x7b' '\x7d' (((jsFields fields).insertionSort fun a b => unitsLe a.1 b.1).map
      fun f => field (jsQuote f.1) f.2)

def jsItems : List (JsValue N) → List (List Char)
  | [] => []
  | v :: vs => jsCanonicalize v :: jsItems vs

/-- The fields that are not `undefined`, with their texts. -/
def jsFields : List (JsString × JsValue N) → List (JsString × List Char)
  | [] => []
  | (k, v) :: fs => if v.isUndefined then jsFields fs else (k, jsCanonicalize v) :: jsFields fs

end

/-- A string that JSON text can carry to Rust: every surrogate paired. -/
def readString (s : JsString) : Option String :=
  ((codePoints s).mapM CodePoint.char).map String.ofList

mutual

/-- What `serde_json` reads from the text `JSON.stringify` stores. -/
def readBack : JsValue N → Option Json
  | .undefined => some .null
  | .null => some .null
  | .bool b => some (.bool b)
  | .number n => some (numbers.read n)
  | .string s => (readString s).map .string
  | .array items => (readItems items).map .array
  | .object fields => (readFields fields).map .object

def readItems : List (JsValue N) → Option (List Json)
  | [] => some []
  | v :: vs => (readBack v).bind fun v => (readItems vs).map (v :: ·)

def readFields : List (JsString × JsValue N) → Option (List (String × Json))
  | [] => some []
  | (k, v) :: fs =>
    if v.isUndefined then readFields fs
    else (readString k).bind fun k => (readBack v).bind fun v => (readFields fs).map ((k, v) :: ·)

end

structure JsRefs where
  base : Option JsString
  head : Option JsString

/-- The arguments of `signedEntry` that reach the entry. -/
structure EntryInput (N : Type) where
  kind : JsString
  id : JsString
  actor : JsString
  parent : JsString
  refs : Option JsRefs
  body : List (JsString × JsValue N)

def units (s : String) : JsString := s.toList.map fun c => UInt16.ofNat c.toNat

def optional (s : Option JsString) : JsValue N := s.elim .undefined .string

def JsRefs.value (r : JsRefs) : JsValue N :=
  .object [(units "base", optional r.base), (units "head", optional r.head)]

def EntryInput.entry (input : EntryInput N) (ts : ℤ) : List (JsString × JsValue N) :=
  [(units "version", .number (numbers.ofInt 1)), (units "kind", .string input.kind),
    (units "id", .string input.id), (units "actor", .string input.actor),
    (units "ts", .number (numbers.ofInt ts)), (units "parent", .string input.parent)] ++
  (input.refs.elim [] fun r => [(units "refs", r.value)]) ++
  [(units "body", .object input.body)]

def EntryInput.signedText (input : EntryInput N) (ts : ℤ) : List Char :=
  jsCanonicalize numbers (.object (input.entry numbers ts))

/-- `signedEntry`: the entry with the signature its `sign` gave. -/
def EntryInput.stored (input : EntryInput N) (ts : ℤ) (signature : JsString) : JsValue N :=
  .object (input.entry numbers ts ++ [(units "sig", .string (units "ed25519:" ++ signature))])

end Sdk

section Reader

mutual

/-- `canonicalize_into`; `keys.sort_unstable` orders by bytes, that is by code points. -/
def canonicalize : Json → List Char
  | .null => "null".toList
  | .bool b => if b then "true".toList else "false".toList
  | .int n => (toString n).toList
  | .float text => text.toList
  | .string s => quote s.toList
  | .array items => bracket '[' ']' (canonicalItems items)
  | .object fields =>
    bracket '\x7b' '\x7d' (((canonicalFields fields).insertionSort fun a b => a.1 ≤ b.1).map
      fun f => field (quote f.1.toList) f.2)

def canonicalItems : List Json → List (List Char)
  | [] => []
  | v :: vs => canonicalize v :: canonicalItems vs

def canonicalFields : List (String × Json) → List (String × List Char)
  | [] => []
  | (k, v) :: fs => (k, canonicalize v) :: canonicalFields fs

end

/-- An optional string field: missing and `null` are `None`. -/
def readOptional (v : Json) (key : String) : Option (Option String) :=
  match v.get key with
  | none => some none
  | some .null => some none
  | some (.string s) => some (some s)
  | some _ => none

def readRefs (v : Json) : Option (Option EntryRefs) :=
  match v.get "refs" with
  | none => some none
  | some .null => some none
  | some (.object fields) => do
    let base ← readOptional (.object fields) "base"
    let head ← readOptional (.object fields) "head"
    some (some ⟨base, head⟩)
  | some _ => none

/-- `Entry` read from a parsed document. -/
def readEntry (v : Json) : Option Entry := do
  let version ← (v.get "version").bind Json.asU64
  guard (version < 2 ^ 32)
  let kind ← (v.get "kind").bind Json.asStr
  let id ← (v.get "id").bind Json.asStr
  let actor ← (v.get "actor").bind Json.asStr
  let ts ← (v.get "ts").bind Json.asI64
  let parent ← (v.get "parent").bind Json.asStr
  let refs ← readRefs v
  let body ← v.get "body"
  let sig ← ((v.get "sig").elim (some "") Json.asStr)
  some ⟨version, kind, id, actor, ts, parent, refs, body, sig⟩

def EntryRefs.value (r : EntryRefs) : Json :=
  .object (r.base.toList.map (fun s => ("base", Json.string s)) ++
    r.head.toList.map fun s => ("head", Json.string s))

/-- `serde_json::to_value` of an entry: `refs` is skipped when absent, `sig` never is. -/
def Entry.fields (e : Entry) : List (String × Json) :=
  [("version", .int e.version), ("kind", .string e.kind), ("id", .string e.id),
    ("actor", .string e.actor), ("ts", .int e.ts), ("parent", .string e.parent)] ++
    e.refs.toList.map (fun r => ("refs", r.value)) ++
    [("body", e.body), ("sig", .string e.sig)]

/-- `entry_canonical`. -/
def entryCanonical (e : Entry) : List Char :=
  canonicalize (.object ({ e with sig := "" } : Entry).fields)

end Reader

/-! ## Both texts are scanned as JSON -/

theorem neutral_field {key text : List Char} (hk : Neutral key) (ht : Neutral text) :
    Neutral (field key text) :=
  hk.append ((neutral_of_plain (List.all_eq_true.mp (by decide)) : Neutral [':']).append ht)

theorem inert_codePoint (p : CodePoint) : Inert p.escape := by
  cases p with
  | scalar c => exact inert_escape c
  | lone u => exact inert_unicodeEscape _

theorem neutral_jsQuote (s : JsString) : Neutral (jsQuote s) :=
  neutral_quoteWith (inert_flatMap fun p _ => inert_codePoint p)

theorem brackets_array : Brackets '[' ']' := .inl ⟨rfl, rfl⟩

theorem brackets_object : Brackets '\x7b' '\x7d' := .inr ⟨rfl, rfl⟩

theorem neutral_null : Neutral "null".toList := neutral_of_plain (List.all_eq_true.mp (by decide))

theorem neutral_bool (b : Bool) : Neutral (if b then "true".toList else "false".toList) := by
  cases b
  · exact neutral_of_plain (List.all_eq_true.mp (by decide))
  · exact neutral_of_plain (List.all_eq_true.mp (by decide))

theorem plainChar_of_isDigit {c : Char} (h : c.isDigit = true) : plainChar c = true := by
  by_contra hc
  simp only [plainChar, decide_eq_true_eq, not_not, List.mem_cons, List.not_mem_nil, or_false] at hc
  obtain rfl | rfl | rfl | rfl | rfl | rfl := hc <;> cases h

theorem plainChar_of_nat {n : ℕ} {c : Char} (h : c ∈ (toString n).toList) :
    plainChar c = true :=
  plainChar_of_isDigit (isDigit_of_nat h)

theorem plainChar_of_int {n : ℤ} {c : Char} (h : c ∈ (toString n).toList) :
    plainChar c = true := by
  cases n with
  | ofNat n => exact plainChar_of_nat h
  | negSucc n =>
    rw [toList_negSucc] at h
    obtain rfl | h := List.mem_cons.mp h
    · decide
    · exact plainChar_of_nat h

theorem neutral_int (n : ℤ) : Neutral (toString n).toList :=
  neutral_of_plain fun _ hc => plainChar_of_int hc

section Neutral

variable {N : Type} {numbers : Numbers N}

theorem neutral_sorted {K : Type} {r : K × List Char → K × List Char → Prop} [DecidableRel r]
    {key : K → List Char} (hk : ∀ k, Neutral (key k)) {fields : List (K × List Char)}
    (h : ∀ f ∈ fields, Neutral f.2) :
    ∀ p ∈ (fields.insertionSort r).map fun f => field (key f.1) f.2, Neutral p := by
  intro p hp
  obtain ⟨f, hf, rfl⟩ := List.mem_map.mp hp
  exact neutral_field (hk f.1) (h f ((List.mem_insertionSort r).mp hf))

mutual

theorem neutral_js : ∀ v : JsValue N, Neutral (jsCanonicalize numbers v)
  | .undefined => neutral_of_plain (by simp [jsCanonicalize])
  | .null => neutral_null
  | .bool b => neutral_bool b
  | .number n => neutral_of_plain (numbers.text_plain n)
  | .string s => neutral_jsQuote s
  | .array items => neutral_bracket brackets_array (neutral_jsItems items)
  | .object fields =>
    neutral_bracket brackets_object (neutral_sorted neutral_jsQuote (neutral_jsFields fields))

theorem neutral_jsItems : ∀ vs : List (JsValue N), ∀ p ∈ jsItems numbers vs, Neutral p
  | [] => by simp [jsItems]
  | v :: vs => by
    intro p hp
    obtain rfl | hp := List.mem_cons.mp hp
    · exact neutral_js v
    · exact neutral_jsItems vs p hp

theorem neutral_jsFields : ∀ fs : List (JsString × JsValue N),
    ∀ f ∈ jsFields numbers fs, Neutral f.2
  | [] => by simp [jsFields]
  | (k, v) :: fs => by
    intro f hf
    rw [jsFields] at hf
    split_ifs at hf
    · exact neutral_jsFields fs f hf
    · obtain rfl | hf := List.mem_cons.mp hf
      · exact neutral_js v
      · exact neutral_jsFields fs f hf

end

theorem neutral_number {v : Json} {n : N} (h : numbers.read n = v) : Neutral (canonicalize v) := by
  subst h
  obtain hn | ⟨i, hi⟩ | ⟨t, ht, hp⟩ := numbers.read_plain n
  · rw [hn]
    exact neutral_null
  · rw [hi]
    exact neutral_int i
  · rw [ht]
    exact neutral_of_plain hp

mutual

theorem neutral_readBack : ∀ (v : JsValue N) (w : Json), readBack numbers v = some w →
    Neutral (canonicalize w)
  | .undefined, w, h => by
    obtain rfl := Option.some.inj h
    exact neutral_null
  | .null, w, h => by
    obtain rfl := Option.some.inj h
    exact neutral_null
  | .bool b, w, h => by
    obtain rfl := Option.some.inj h
    exact neutral_bool b
  | .number n, w, h => neutral_number (Option.some.inj h)
  | .string s, w, h => by
    obtain ⟨t, -, rfl⟩ := Option.map_eq_some_iff.mp h
    exact neutral_quote t.toList
  | .array items, w, h => by
    obtain ⟨ws, hws, rfl⟩ := Option.map_eq_some_iff.mp h
    exact neutral_bracket brackets_array (neutral_readItems items ws hws)
  | .object fields, w, h => by
    obtain ⟨ws, hws, rfl⟩ := Option.map_eq_some_iff.mp h
    exact neutral_bracket brackets_object
      (neutral_sorted (fun k => neutral_quote k.toList) (neutral_readFields fields ws hws))

theorem neutral_readItems : ∀ (vs : List (JsValue N)) (ws : List Json),
    readItems numbers vs = some ws → ∀ p ∈ canonicalItems ws, Neutral p
  | [], ws, h => by
    obtain rfl := Option.some.inj h
    simp [canonicalItems]
  | v :: vs, ws, h => by
    obtain ⟨w, hw, h⟩ := Option.bind_eq_some_iff.mp h
    obtain ⟨rest, hrest, rfl⟩ := Option.map_eq_some_iff.mp h
    intro p hp
    obtain rfl | hp := List.mem_cons.mp hp
    · exact neutral_readBack v w hw
    · exact neutral_readItems vs rest hrest p hp

theorem neutral_readFields : ∀ (fs : List (JsString × JsValue N)) (ws : List (String × Json)),
    readFields numbers fs = some ws → ∀ f ∈ canonicalFields ws, Neutral f.2
  | [], ws, h => by
    obtain rfl := Option.some.inj h
    simp [canonicalFields]
  | (k, v) :: fs, ws, h => by
    rw [readFields] at h
    split_ifs at h
    · exact neutral_readFields fs ws h
    · obtain ⟨key, -, h⟩ := Option.bind_eq_some_iff.mp h
      obtain ⟨w, hw, h⟩ := Option.bind_eq_some_iff.mp h
      obtain ⟨rest, hrest, rfl⟩ := Option.map_eq_some_iff.mp h
      intro f hf
      obtain rfl | hf := List.mem_cons.mp hf
      · exact neutral_readBack v w hw
      · exact neutral_readFields fs rest hrest f hf

end

/-! ## The number of fields -/

theorem scan_signedText (input : EntryInput N) (ts : ℤ) :
    (scan .init (input.signedText numbers ts)).commas = 6 + input.refs.toList.length := by
  have hlen : (jsFields numbers (input.entry numbers ts)).length =
      7 + input.refs.toList.length := by
    cases hr : input.refs <;>
      simp [EntryInput.entry, jsFields, JsValue.isUndefined, JsRefs.value, hr]
  have hfields : ∀ f ∈ jsFields numbers (input.entry numbers ts), Neutral f.2 :=
    neutral_jsFields (input.entry numbers ts)
  rw [Scan.init, EntryInput.signedText, jsCanonicalize,
    scan_bracket brackets_object (neutral_sorted neutral_jsQuote hfields)]
  simp only [if_true, List.length_map, List.length_insertionSort, hlen]
  omega

theorem canonicalFields_eq (fields : List (String × Json)) :
    canonicalFields fields = fields.map fun f => (f.1, canonicalize f.2) := by
  induction fields with
  | nil => rfl
  | cons f fs ih => rw [canonicalFields, ih, List.map_cons]

theorem neutral_object {fields : List (String × Json)}
    (h : ∀ f ∈ fields, Neutral (canonicalize f.2)) :
    ∀ p ∈ ((canonicalFields fields).insertionSort fun a b => a.1 ≤ b.1).map
      fun f => field (quote f.1.toList) f.2, Neutral p := by
  refine neutral_sorted (fun k : String => neutral_quote k.toList) fun f hf => ?_
  rw [canonicalFields_eq] at hf
  obtain ⟨g, hg, rfl⟩ := List.mem_map.mp hf
  exact h g hg

theorem neutral_string (s : String) : Neutral (canonicalize (.string s)) := neutral_quote s.toList

theorem neutral_refs (r : EntryRefs) : Neutral (canonicalize r.value) := by
  refine neutral_bracket brackets_object (neutral_object fun f hf => ?_)
  rcases List.mem_append.mp hf with hf | hf
  · obtain ⟨s, -, rfl⟩ := List.mem_map.mp hf
    exact neutral_string s
  · obtain ⟨s, -, rfl⟩ := List.mem_map.mp hf
    exact neutral_string s

theorem neutral_entryFields {e : Entry} (hbody : Neutral (canonicalize e.body)) :
    ∀ f ∈ e.fields, Neutral (canonicalize f.2) := by
  intro f hf
  simp only [Entry.fields, List.mem_append, List.mem_cons, List.not_mem_nil, or_false,
    List.mem_map] at hf
  obtain ((rfl | rfl | rfl | rfl | rfl | rfl) | ⟨r, -, rfl⟩) | rfl | rfl := hf
  · exact neutral_int _
  · exact neutral_string _
  · exact neutral_string _
  · exact neutral_string _
  · exact neutral_int _
  · exact neutral_string _
  · exact neutral_refs r
  · exact hbody
  · exact neutral_string _

theorem scan_entryCanonical {e : Entry} (hbody : Neutral (canonicalize e.body)) :
    (scan .init (entryCanonical e)).commas = 7 + e.refs.toList.length := by
  have hneutral := neutral_object (neutral_entryFields (e := { e with sig := "" }) hbody)
  have hlen : (canonicalFields ({ e with sig := "" } : Entry).fields).length =
      8 + e.refs.toList.length := by
    rw [canonicalFields_eq, List.length_map]
    simp only [Entry.fields, List.length_append, List.length_cons, List.length_nil, List.length_map]
    omega
  rw [Scan.init, entryCanonical, canonicalize, scan_bracket brackets_object hneutral]
  simp only [if_true, List.length_map, List.length_insertionSort, hlen]
  omega

/-! ## The entry read back -/

theorem readFields_cons {k : String} {v : JsValue N} {rest : List (JsString × JsValue N)}
    {fs : List (String × Json)} (hk : readString (units k) = some k) (hv : v.isUndefined = false)
    (h : readFields numbers ((units k, v) :: rest) = some fs) :
    ∃ w ws, readBack numbers v = some w ∧ readFields numbers rest = some ws ∧
      fs = (k, w) :: ws := by
  rw [readFields, hv, hk] at h
  obtain ⟨w, hw, h⟩ := Option.bind_eq_some_iff.mp (by simpa using h)
  obtain ⟨ws, hws, rfl⟩ := Option.map_eq_some_iff.mp h
  exact ⟨w, ws, hw, hws, rfl⟩

theorem readEntry_parts {v : Json} {e : Entry} (h : readEntry v = some e) :
    readRefs v = some e.refs ∧ v.get "body" = some e.body := by
  simp only [readEntry, Option.bind_eq_bind, Option.bind_eq_some_iff] at h
  obtain ⟨_, -, _, -, _, -, _, -, _, -, _, -, _, -, refs, hrefs, body, hbody, _, -, heq⟩ := h
  obtain rfl := Option.some.inj heq
  exact ⟨hrefs, hbody⟩

theorem readRefs_none {v : Json} {refs : Option EntryRefs} (hv : v.get "refs" = none)
    (h : readRefs v = some refs) : refs = none := by
  rw [readRefs, hv] at h
  exact (Option.some.inj h).symm

theorem readRefs_object {v : Json} {refs : Option EntryRefs} {fields : List (String × Json)}
    (hv : v.get "refs" = some (.object fields)) (h : readRefs v = some refs) :
    refs.isSome = true := by
  simp only [readRefs, hv, Option.bind_eq_bind, Option.bind_eq_some_iff] at h
  obtain ⟨base, -, head, -, heq⟩ := h
  rw [← Option.some.inj heq]
  rfl

theorem readEntry_stored {input : EntryInput N} {ts : ℤ} {signature : JsString} {v : Json}
    {e : Entry} (hv : readBack numbers (input.stored numbers ts signature) = some v)
    (he : readEntry v = some e) :
    e.refs.toList.length = input.refs.toList.length ∧ Neutral (canonicalize e.body) := by
  obtain ⟨fs, h, rfl⟩ := Option.map_eq_some_iff.mp hv
  obtain ⟨hrefs, hbody⟩ := readEntry_parts he
  obtain ⟨version, _, -, h1, rfl⟩ := readFields_cons (by decide) rfl h
  obtain ⟨kind, _, -, h2, rfl⟩ := readFields_cons (by decide) rfl h1
  obtain ⟨id, _, -, h3, rfl⟩ := readFields_cons (by decide) rfl h2
  obtain ⟨actor, _, -, h4, rfl⟩ := readFields_cons (by decide) rfl h3
  obtain ⟨time, _, -, h5, rfl⟩ := readFields_cons (by decide) rfl h4
  obtain ⟨parent, _, -, h6, rfl⟩ := readFields_cons (by decide) rfl h5
  cases hr : input.refs with
  | none =>
    rw [hr] at h6
    obtain ⟨body, _, hread, h7, rfl⟩ := readFields_cons (by decide) rfl h6
    obtain ⟨sig, _, -, h8, rfl⟩ := readFields_cons (by decide) rfl h7
    obtain rfl := Option.some.inj h8
    obtain rfl : body = e.body := by simpa [Json.get, List.lookup] using hbody
    rw [readRefs_none (by simp [Json.get, List.lookup]) hrefs]
    exact ⟨rfl, neutral_readBack _ _ hread⟩
  | some r =>
    rw [hr] at h6
    obtain ⟨refs, _, hobj, h7, rfl⟩ := readFields_cons (by decide) rfl h6
    obtain ⟨body, _, hread, h8, rfl⟩ := readFields_cons (by decide) rfl h7
    obtain rfl : body = e.body := by simpa [Json.get, List.lookup] using hbody
    obtain ⟨fields, -, rfl⟩ := Option.map_eq_some_iff.mp hobj
    have hsome := readRefs_object (show Json.get _ "refs" = some (.object fields) by
      simp [Json.get, List.lookup]) hrefs
    obtain ⟨refs, hrefs⟩ := Option.isSome_iff_exists.mp hsome
    rw [hrefs]
    exact ⟨rfl, neutral_readBack _ _ hread⟩

end Neutral

/-- No entry that the SDK signs is one whose signed bytes the reader rebuilds: where the stored
entry is read at all, the reader's text has one field more than the text that was signed. -/
theorem sdk_signs_other_bytes {N : Type} (numbers : Numbers N) (input : EntryInput N) (ts : ℤ)
    (signature : JsString) :
    ¬ ∃ e, (readBack numbers (input.stored numbers ts signature)).bind readEntry = some e ∧
      entryCanonical e = input.signedText numbers ts := by
  rintro ⟨e, he, heq⟩
  obtain ⟨v, hv, he⟩ := Option.bind_eq_some_iff.mp he
  obtain ⟨hrefs, hbody⟩ := readEntry_stored hv he
  have hreader := scan_entryCanonical hbody
  rw [heq, scan_signedText, hrefs] at hreader
  omega

/-- Whole numbers in the range where both languages print them alike. -/
def wholeNumbers : Numbers ℤ where
  ofInt := id
  text n := (toString n).toList
  read := .int
  text_plain _ _ hc := plainChar_of_int hc
  read_plain n := .inr (.inl ⟨n, rfl⟩)


/-- An entry of kind `note` with an empty body. -/
def emptyNote : EntryInput ℤ :=
  ⟨units "note", units "n1", units "ann", units "", none, []⟩

/-- The reader takes the note in, and its text has an empty `sig` that was not signed. -/
theorem sdk_note_not_verified :
    ∃ e, (readBack wholeNumbers (emptyNote.stored wholeNumbers 7 (units "AA"))).bind readEntry =
        some e ∧
      emptyNote.signedText wholeNumbers 7 =
        ("\x7b\"actor\":\"ann\",\"body\":\x7b\x7d,\"id\":\"n1\",\"kind\":\"note\"," ++
          "\"parent\":\"\",\"ts\":7,\"version\":1\x7d").toList ∧
      entryCanonical e =
        ("\x7b\"actor\":\"ann\",\"body\":\x7b\x7d,\"id\":\"n1\",\"kind\":\"note\"," ++
          "\"parent\":\"\",\"sig\":\"\",\"ts\":7,\"version\":1\x7d").toList ∧
      entryCanonical e ≠ emptyNote.signedText wholeNumbers 7 := by
  refine ⟨⟨1, "note", "n1", "ann", 7, "", none, .object [], "ed25519:AA"⟩, rfl, rfl, rfl, ?_⟩
  exact fun h => absurd (congrArg List.length h) (by decide)

end Walgit.Collab
