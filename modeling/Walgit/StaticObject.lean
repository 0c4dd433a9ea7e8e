import Mathlib.Data.List.DropRight
import Walgit.Collab
import Walgit.Lib.Decimal
import Walgit.Lib.Tiling
import Walgit.Lib.Utf8
import Walgit.PushRequest
import Walgit.TreeWalk

/-!
# Immutable objects over HTTP

A request with a range, or for the headers alone, looks at the object before it
decides what to read; a plain request reads at once, under the condition the
client sent. Either way the answer is the one of a single contract, in which
the positions asked for are picked out one by one.
-/

namespace Walgit.StaticObject

open Objects (parseUnsigned)

section Headers

/-- `HeaderValue::to_str`. -/
def toStr (v : List UInt8) : Option (List Char) :=
  if v.all fun b => b == 9 || (32 ≤ b && b < 127) then some (Utf8.latin1 v) else none

def trim (cs : List Char) : List Char := (cs.dropWhile Collab.isWhite).rdropWhile Collab.isWhite

def trimQuotes (cs : List Char) : List Char := (cs.dropWhile (· == '"')).rdropWhile (· == '"')

/-- `trim_start_matches("W/")`. -/
def trimWeak : List Char → List Char
  | 'W' :: '/' :: cs => trimWeak cs
  | cs => cs

def tagText (t : List Char) : List Char := trimQuotes (trimWeak (trim t))

/-- The tag of a version; `"-"` where the version is no header text. -/
def etagOf (version : List Char) : List Char :=
  let v := trimQuotes version
  if v.all fun c => c == '\t' || (32 ≤ c.toNat && c.toNat < 127) then '"' :: v ++ ['"']
  else ['"', '-', '"']

def etags (values : List (List UInt8)) : List (List Char) :=
  (((values.filterMap toStr).flatMap fun v => v.splitOn ',').map tagText).filter (· ≠ [])

def ifNoneMatchHit (values : List (List UInt8)) (version : List Char) : Bool :=
  (etags values).any fun t => t == ['*'] || t == trimQuotes version

/-- A date is no tag and names no version. -/
def ifRangeAllows (value? : Option (List UInt8)) (version : List Char) : Bool :=
  match value?.bind toStr with
  | none => true
  | some v => if '"' ∈ v then tagText v == trimQuotes version else false

end Headers

section Ranges

inductive RangeSpec
  | fromTo (start : ℕ) (end? : Option ℕ)
  | suffix (n : ℕ)

/-- `"bytes="`. -/
def bytesUnit : List Char := ['b', 'y', 't', 'e', 's', '=']

/-- One range, or nothing for what is served in full. -/
def parseRange (header? : Option (List Char)) : Option RangeSpec := do
  let header ← header?
  let spec ← (trim header).dropPrefix? bytesUnit
  if ',' ∈ spec then none
  else
    let (a, b?) := Pkt.splitOnce '-' spec
    let b ← b?
    if trim a = [] then ((parseUnsigned (trim b)).filter (0 < ·)).map .suffix
    else
      let start ← parseUnsigned (trim a)
      if trim b = [] then some (.fromTo start none)
      else
        let e ← parseUnsigned (trim b)
        if e < start then none else some (.fromTo start (some e))

def saturatingAdd (a b : ℕ) : ℕ := min (a + b) (2 ^ 64 - 1)

/-- A difference that would underflow is a panic. -/
def checkedSub (a b : ℕ) : Option ℕ := if b ≤ a then some (a - b) else none

/-- The half-open range of positions; nothing where none of them is in the object. -/
def RangeSpec.resolve (spec : RangeSpec) (total : ℕ) : Option (ℕ × ℕ) :=
  match spec with
  | .fromTo start end? =>
    if total ≤ start then none
    else some (start, (end?.map fun e => min (saturatingAdd e 1) total).getD total)
  | .suffix n => if total = 0 then none else some (total - n, total)

/-- Whether a position of the object is asked for. -/
def RangeSpec.wants (spec : RangeSpec) (total i : ℕ) : Bool :=
  match spec with
  | .fromTo start end? => start ≤ i && end?.all (i ≤ ·)
  | .suffix n => total ≤ i + n

def RangeSpec.positions (spec : RangeSpec) (total : ℕ) : List ℕ :=
  (List.range total).filter (spec.wants total)

variable {spec : RangeSpec} {total a b : ℕ}

theorem filter_range : (List.range total).filter (fun i => a ≤ i && i < b) =
    List.range' a (min b total - a) := by
  induction total with
  | zero => rw [Nat.min_zero, Nat.zero_sub]; rfl
  | succ n ih =>
    rw [List.range_succ, List.filter_append, ih]
    by_cases hin : a ≤ n ∧ n < b
    · rw [List.filter_cons_of_pos (by simpa using hin), List.filter_nil,
        Nat.min_eq_right hin.2.le, Nat.min_eq_right hin.2, Nat.succ_sub hin.1,
        List.range'_1_concat, Nat.add_sub_cancel' hin.1]
    · rw [List.filter_cons_of_neg (by simpa using hin), List.filter_nil, List.append_nil]
      congr 1
      omega

theorem wants_suffix {n i : ℕ} (h : i < total) :
    (RangeSpec.suffix n).wants total i = (decide (total - n ≤ i) && decide (i < total)) := by
  rw [RangeSpec.wants, decide_eq_true h, Bool.and_true]
  exact decide_eq_decide.mpr (by omega)

theorem wants_fromTo {start i : ℕ} {end? : Option ℕ} (htotal : total < 2 ^ 64) (h : i < total) :
    (RangeSpec.fromTo start end?).wants total i = (decide (start ≤ i) &&
      decide (i < (end?.map fun e => min (saturatingAdd e 1) total).getD total)) := by
  rw [RangeSpec.wants]
  congr 1
  cases end? with
  | none => exact (decide_eq_true h).symm
  | some e =>
    rw [Option.all_some, Option.map_some, Option.getD_some]
    refine decide_eq_decide.mpr ?_
    unfold saturatingAdd
    omega

theorem positions_fromTo {start : ℕ} {end? : Option ℕ} (htotal : total < 2 ^ 64) :
    (RangeSpec.fromTo start end?).positions total = List.range' start
      ((end?.map fun e => min (saturatingAdd e 1) total).getD total - start) := by
  have hle : (end?.map fun e => min (saturatingAdd e 1) total).getD total ≤ total := by
    cases end? with
    | none => exact Nat.le_refl total
    | some e => exact Nat.min_le_right _ _
  rw [RangeSpec.positions, List.filter_congr fun i hi => wants_fromTo htotal (List.mem_range.mp hi),
    filter_range, Nat.min_eq_left hle]

theorem positions_suffix {n : ℕ} :
    (RangeSpec.suffix n).positions total = List.range' (total - n) (total - (total - n)) := by
  rw [RangeSpec.positions, List.filter_congr fun i hi => wants_suffix (List.mem_range.mp hi),
    filter_range, Nat.min_self]

/-- What a header can ask for: some position of a long enough object. -/
def RangeSpec.Valid : RangeSpec → Prop
  | .fromTo start end? => ∀ e ∈ end?, start ≤ e
  | .suffix n => 0 < n

theorem parseRange_valid {header? : Option (List Char)} (h : parseRange header? = some spec) :
    spec.Valid := by
  simp only [parseRange, Option.bind_eq_bind, Option.bind_eq_some_iff] at h
  obtain ⟨header, -, text, -, h⟩ := h
  split_ifs at h with hcomma ha
  · obtain ⟨b, -, h⟩ := Option.bind_eq_some_iff.mp h
    obtain ⟨n, hn, rfl⟩ := Option.map_eq_some_iff.mp h
    have hpos : 0 < n := of_decide_eq_true (Option.filter_eq_some_iff.mp hn).2
    exact hpos
  · obtain ⟨b, -, h⟩ := Option.bind_eq_some_iff.mp h
    obtain ⟨start, -, h⟩ := Option.bind_eq_some_iff.mp h
    split_ifs at h with hb
    · obtain rfl := Option.some.inj h
      exact nofun
    · obtain ⟨e, -, h⟩ := Option.bind_eq_some_iff.mp h
      split_ifs at h with hlt
      obtain rfl := Option.some.inj h
      rintro _ ⟨⟩
      exact Nat.not_lt.mp hlt

def RangeSpec.header : RangeSpec → List Char
  | .fromTo start end? => bytesUnit ++ ((toString start).toList ++ '-' ::
      ((end?.map fun e => (toString e).toList).getD []))
  | .suffix n => bytesUnit ++ '-' :: (toString n).toList

def RangeSpec.Fits : RangeSpec → Prop
  | .fromTo start end? => start < 2 ^ 64 ∧ ∀ e ∈ end?, e < 2 ^ 64
  | .suffix n => n < 2 ^ 64

theorem trim_eq_self {cs : List Char} (h : ∀ c ∈ cs, Collab.isWhite c = false) : trim cs = cs := by
  have hstart : cs.dropWhile Collab.isWhite = cs :=
    List.dropWhile_eq_self_iff.mpr fun hpos =>
      ne_true_of_eq_false (h _ (List.getElem_mem hpos))
  rw [trim, hstart]
  exact List.rdropWhile_eq_self_iff.mpr fun hne => ne_true_of_eq_false (h _ (List.getLast_mem hne))

theorem isWhite_of_isDigit {c : Char} (h : c.isDigit = true) : Collab.isWhite c = false := by
  have hall : ∀ n < 58, 48 ≤ n → Collab.isWhite (Char.ofNat n) = false := by decide
  simp only [Char.isDigit, Bool.and_eq_true, decide_eq_true_eq, ge_iff_le,
    UInt32.le_iff_toNat_le] at h
  have hchar := hall c.toNat (Nat.lt_succ_of_le h.2) h.1
  rwa [Char.ofNat_toNat] at hchar

theorem parseUnsigned_nat (n : ℕ) :
    parseUnsigned (toString n).toList = if n < 2 ^ 64 then some n else none := by
  have hdigits : (toString n).toList = Nat.toDigits 10 n := by simp
  have hall : ∀ c ∈ (toString n).toList, c.isDigit = true := fun c hc => Decimal.isDigit_of_nat hc
  have hne : (toString n).toList ≠ [] := Decimal.int_text_ne_nil (n := (n : ℤ))
  have hvalue : (toString n).toList.foldl (fun n c => 10 * n + (c.toNat - '0'.toNat)) 0 = n := by
    rw [hdigits]
    exact Nat.ofDigitChars_ten_toDigits
  have hplus : ∀ rest, (toString n).toList ≠ '+' :: rest := fun rest heq => by
    have hsign : '+'.isDigit = true := hall '+' (heq ▸ List.mem_cons_self)
    exact absurd hsign (by decide)
  rw [parseUnsigned]
  · rw [hvalue]
    refine if_congr ?_ rfl rfl
    rw [and_iff_right hne, and_iff_right (List.all_eq_true.mpr hall)]
  · exact hplus

theorem parseUnsigned_toString {n : ℕ} (h : n < 2 ^ 64) :
    parseUnsigned (toString n).toList = some n := by
  rw [parseUnsigned_nat, if_pos h]

theorem parseRange_of_parts {a b : List Char} (ha : ∀ c ∈ a, c.isDigit = true)
    (hb : ∀ c ∈ b, c.isDigit = true) :
    parseRange (some (bytesUnit ++ (a ++ '-' :: b))) =
      if a = [] then ((parseUnsigned b).filter (0 < ·)).map .suffix
      else (parseUnsigned a).bind fun start =>
        if b = [] then some (.fromTo start none)
        else (parseUnsigned b).bind fun e =>
          if e < start then none else some (.fromTo start e) := by
  have hwhite : ∀ c ∈ bytesUnit ++ (a ++ '-' :: b), Collab.isWhite c = false := by
    have hname : ∀ c ∈ bytesUnit, Collab.isWhite c = false :=
      List.forall_iff_forall_mem.mp (by decide)
    intro c hc
    rcases List.mem_append.mp hc with hc | hc
    · exact hname c hc
    rcases List.mem_append.mp hc with hc | hc
    · exact isWhite_of_isDigit (ha c hc)
    rcases List.mem_cons.mp hc with rfl | hc
    · rfl
    · exact isWhite_of_isDigit (hb c hc)
  have hsign : ∀ {x : Char} {l : List Char}, x.isDigit = false → (∀ c ∈ l, c.isDigit = true) →
      x ∉ l := fun hx hl hmem => ne_true_of_eq_false hx (hl _ hmem)
  have hcomma : ',' ∉ a ++ '-' :: b := by
    simp only [List.mem_append, List.mem_cons, not_or]
    exact ⟨hsign rfl ha, by decide, hsign rfl hb⟩
  have htrim : ∀ {l : List Char}, (∀ c ∈ l, c.isDigit = true) → trim l = l := fun hl =>
    trim_eq_self fun c hc => isWhite_of_isDigit (hl c hc)
  simp only [parseRange, Option.bind_eq_bind, Option.bind_some, trim_eq_self hwhite,
    List.dropPrefix?_append_of_beq _ (beq_self_eq_true _), if_neg hcomma,
    Pkt.splitOnce_append (@hsign '-' _ rfl ha), htrim ha, htrim hb]

theorem parseRange_header (hvalid : spec.Valid) (hfits : spec.Fits) :
    parseRange (some spec.header) = some spec := by
  have hdigits : ∀ n : ℕ, ∀ c ∈ (toString n).toList, c.isDigit = true := fun n c hc =>
    Decimal.isDigit_of_nat hc
  have hne : ∀ n : ℕ, (toString n).toList ≠ [] := fun n => Decimal.int_text_ne_nil (n := (n : ℤ))
  cases spec with
  | fromTo start end? =>
    obtain ⟨hstart, hend⟩ : start < 2 ^ 64 ∧ ∀ e ∈ end?, e < 2 ^ 64 := hfits
    cases end? with
    | none =>
      rw [RangeSpec.header, Option.map_none, Option.getD_none,
        @parseRange_of_parts (toString start).toList [] (hdigits start) nofun, if_neg (hne start),
        parseUnsigned_toString hstart, Option.bind_some, if_pos rfl]
    | some e =>
      have hse : start ≤ e := hvalid e rfl
      have he : e < 2 ^ 64 := hend e rfl
      rw [RangeSpec.header, Option.map_some, Option.getD_some,
        parseRange_of_parts (hdigits start) (hdigits e), if_neg (hne start),
        parseUnsigned_toString hstart, Option.bind_some, if_neg (hne e),
        parseUnsigned_toString he, Option.bind_some, if_neg (Nat.not_lt.mpr hse)]
  | suffix n =>
    have hpos : 0 < n := hvalid
    have hn : n < 2 ^ 64 := hfits
    have hparts := @parseRange_of_parts [] (toString n).toList nofun (hdigits n)
    rw [if_pos rfl, parseUnsigned_toString hn,
      @Option.filter_some_pos _ (fun m => decide (0 < m)) n (decide_eq_true hpos)] at hparts
    exact hparts

theorem resolve_spec (hvalid : spec.Valid) (htotal : total < 2 ^ 64) :
    match spec.resolve total with
    | none => spec.positions total = []
    | some (a, b) => a < b ∧ b ≤ total ∧ spec.positions total = List.range' a (b - a) := by
  cases spec with
  | fromTo start end? =>
    rw [RangeSpec.resolve, positions_fromTo htotal]
    split_ifs with hstart
    · have hle : (end?.map fun e => min (saturatingAdd e 1) total).getD total ≤ total := by
        cases end? with
        | none => exact Nat.le_refl total
        | some e => exact Nat.min_le_right _ _
      dsimp only
      rw [Nat.sub_eq_zero_of_le (hle.trans hstart), List.range'_zero]
    · cases end? with
      | none => exact ⟨Nat.not_le.mp hstart, Nat.le_refl total, rfl⟩
      | some e =>
        have hse : start ≤ e := hvalid e rfl
        refine ⟨?_, Nat.min_le_right _ _, rfl⟩
        rw [Option.map_some, Option.getD_some]
        unfold saturatingAdd
        omega
  | suffix n =>
    have hn : 0 < n := hvalid
    rw [RangeSpec.resolve, positions_suffix]
    split_ifs with hzero
    · dsimp only
      rw [hzero, Nat.zero_sub, List.range'_zero]
    · exact ⟨by omega, Nat.le_refl total, rfl⟩

end Ranges

section Store

structure Object where
  version : List Char
  content : List UInt8
  fits : content.length < 2 ^ 64

def Object.size (o : Object) : ℕ := o.content.length

/-- An object as the look at it and the read after it find it, and whether a read that is
conditional on a version finds the object unchanged. -/
structure Store where
  atHead : Option Object
  atGet : Option Object
  unchanged : List Char → List Char → Bool

/-- A store whose object nobody writes between. -/
def Store.holding (unchanged : List Char → List Char → Bool) (o? : Option Object) : Store :=
  ⟨o?, o?, unchanged⟩

/-- `parse::<i64>` of a version. -/
def parseGeneration (v : List Char) : Option ℤ :=
  match v with
  | '-' :: '+' :: _ => none
  | '-' :: digits => ((parseUnsigned digits).filter (· ≤ 2 ^ 63)).map fun n => -(n : ℤ)
  | _ => ((parseUnsigned v).filter (· < 2 ^ 63)).map fun n => (n : ℤ)

def gcsUnchanged (known current : List Char) : Bool :=
  match parseGeneration known with
  | none => false
  | some generation => current == (toString generation).toList

structure GetOptions where
  ifNoneMatch : Option (List Char)
  ifMatch : Option (List Char)
  range : Option (ℕ × ℕ)

inductive StoreError
  | notFound
  | preconditionFailed
  | invalidArgument

inductive GetResult
  | notModified (version : List Char)
  | object (size : ℕ) (version : List Char) (body : List UInt8)

def Store.get (s : Store) (opts : GetOptions) : Except StoreError GetResult :=
  match s.atGet with
  | none => .error .notFound
  | some o =>
    if opts.ifMatch.any (· != o.version) then .error .preconditionFailed
    else if opts.ifNoneMatch.any (s.unchanged · o.version) then .ok (.notModified o.version)
    else match opts.range with
      | none => .ok (.object o.size o.version o.content)
      | some r =>
        if min r.2 o.size < min r.1 o.size then .error .invalidArgument
        else .ok (.object o.size o.version (Tiling.slice o.content r))

end Store

section Serving

structure Request where
  head : Bool
  range : Option (List UInt8)
  ifNoneMatch : List (List UInt8)
  ifRange : Option (List UInt8)

structure Response where
  status : ℕ
  etag : List Char
  contentRange : Option String
  contentLength : Option ℕ
  body : List UInt8

inductive ApiError
  | notFound (message : String)
  | conflict (message : String)
  | store (e : StoreError)

def notModified (version : List Char) : Response := ⟨304, etagOf version, none, none, []⟩

def rangeNotSatisfiable (o : Object) : Response :=
  ⟨416, etagOf o.version, some ("bytes */" ++ toString o.size), some 0, []⟩

def contentRange (first last total : ℕ) : String :=
  "bytes " ++ toString first ++ "-" ++ toString last ++ "/" ++ toString total

/-- A single tag is the store's to compare, a list is compared after the read. -/
def sentTag (values : List (List UInt8)) : Option (List Char) :=
  match etags values with
  | [one] => if one ≠ ['*'] then some one else none
  | _ => none

/-- The rest of `serve`, for a plain read. -/
def serveWhole (s : Store) (key : String) (req : Request) : Option (Except ApiError Response) :=
  match s.get ⟨sentTag req.ifNoneMatch, none, none⟩ with
  | .ok (.notModified version) => some (.ok (notModified version))
  | .ok (.object size version body) =>
    if ifNoneMatchHit req.ifNoneMatch version then some (.ok (notModified version))
    else some (.ok ⟨200, etagOf version, none, some size, body⟩)
  | .error .notFound => some (.error (.notFound (key ++ " not found")))
  | .error e => some (.error (.store e))

/-- The range is read of the version that was looked at; no other is `unreachable!`. -/
def serveRange (s : Store) (o : Object) (r : ℕ × ℕ) : Option (Except ApiError Response) :=
  match s.get ⟨none, some o.version, some r⟩ with
  | .ok (.object size _ body) => do
    let last ← checkedSub r.2 1
    let length ← checkedSub r.2 r.1
    some (.ok ⟨206, etagOf o.version, some (contentRange r.1 last (max size o.size)), some length,
      body⟩)
  | .ok (.notModified _) => none
  | .error .preconditionFailed => some (.error (.conflict "object changed during read"))
  | .error e => some (.error (.store e))

/-- `serve` without the edge offload; nothing is a panic. -/
def serve (s : Store) (key : String) (req : Request) : Option (Except ApiError Response) :=
  let range := parseRange (req.range.bind toStr)
  if req.head || range.isSome then
    match s.atHead with
    | none => some (.error (.notFound (key ++ " not found")))
    | some o =>
      if ifNoneMatchHit req.ifNoneMatch o.version then some (.ok (notModified o.version))
      else if req.head then some (.ok ⟨200, etagOf o.version, none, some o.size, []⟩)
      else
        match range with
        | some spec =>
          if ifRangeAllows req.ifRange o.version then
            match spec.resolve o.size with
            | none => some (.ok (rangeNotSatisfiable o))
            | some r => serveRange s o r
          else serveWhole s key req
        | none => serveWhole s key req
  else serveWhole s key req

end Serving

section Contract

/-- Whether the object is still the one whose range was asked for. -/
def fresh (ifRange : Option (List UInt8)) (version : List Char) : Bool :=
  ifRange.all fun v => (toStr v).any fun t => '"' ∈ t && tagText t == trimQuotes version

/-- The bytes at the positions, or the refusal of a range that has none. -/
def sliceAnswer (o : Object) (positions : List ℕ) : Response :=
  match positions.head?, positions.getLast? with
  | some first, some last => ⟨206, etagOf o.version, some (contentRange first last o.size),
      some positions.length, positions.filterMap (o.content[·]?)⟩
  | _, _ => rangeNotSatisfiable o

/-- The one answer to a request for an object. -/
def answer (o : Object) (req : Request) : Response :=
  if ifNoneMatchHit req.ifNoneMatch o.version then notModified o.version
  else if req.head then ⟨200, etagOf o.version, none, some o.size, []⟩
  else
    match (parseRange (req.range.bind toStr)).filter fun _ => fresh req.ifRange o.version with
    | some spec => sliceAnswer o (spec.positions o.size)
    | none => ⟨200, etagOf o.version, none, some o.size, o.content⟩

def contract (o? : Option Object) (key : String) (req : Request) : Except ApiError Response :=
  match o? with
  | none => .error (.notFound (key ++ " not found"))
  | some o => .ok (answer o req)

/-- Where a range is asked for, the If-Range header is text; where the whole object is read and
one tag is sent, the store finds no other version unchanged. -/
structure Uniform (unchanged : List Char → List Char → Bool) (o : Object) (req : Request) :
    Prop where
  text : (parseRange (req.range.bind toStr)).isSome → ∀ v ∈ req.ifRange, (toStr v).isSome
  tag : (parseRange (req.range.bind toStr)).isNone ∨ ifRangeAllows req.ifRange o.version = false →
    ∀ tag, etags req.ifNoneMatch = [tag] → unchanged tag o.version = false

variable {o : Object} {o? : Option Object} {key : String} {req : Request} {spec : RangeSpec}
  {unchanged : List Char → List Char → Bool}

theorem getElem?_positions {xs : List UInt8} {a n : ℕ} :
    (List.range' a n).filterMap (xs[·]?) = (xs.drop a).take n := by
  induction n generalizing a with
  | zero => rw [List.range'_zero, List.take_zero]; rfl
  | succ n ih =>
    rw [List.range'_succ, List.filterMap_cons, ih]
    rcases hx : xs[a]? with _ | x
    · have hle : xs.length ≤ a := List.getElem?_eq_none_iff.mp hx
      rw [List.drop_of_length_le hle, List.drop_of_length_le (hle.trans (Nat.le_succ a)),
        List.take_nil, List.take_nil]
    · obtain ⟨hlt, rfl⟩ := List.getElem?_eq_some_iff.mp hx
      rw [List.drop_eq_getElem_cons hlt, List.take_succ_cons]

theorem serveWhole_none :
    serveWhole (.holding unchanged none) key req =
      some (.error (.notFound (key ++ " not found"))) := by
  rw [serveWhole]
  rfl

theorem serveRange_eq (hvalid : spec.Valid) {r : ℕ × ℕ} (h : spec.resolve o.size = some r) :
    serveRange (.holding unchanged (some o)) o r =
      some (.ok (sliceAnswer o (spec.positions o.size))) := by
  have hspec := @resolve_spec spec o.size hvalid o.fits
  rw [h] at hspec
  obtain ⟨hlt, hle, hpos⟩ := hspec
  have hget : (Store.holding unchanged (some o)).get ⟨none, some o.version, some r⟩ =
      .ok (.object o.size o.version (Tiling.slice o.content r)) := by
    simp only [Store.holding, Store.get, Option.any_some, Option.any_none, bne_self_eq_false]
    rw [if_neg Bool.false_ne_true, if_neg Bool.false_ne_true, if_neg (by omega)]
  have hhead : (List.range' r.1 (r.2 - r.1)).head? = some r.1 := by
    rw [List.head?_range', if_neg (by omega)]
  have hlast : (List.range' r.1 (r.2 - r.1)).getLast? = some (r.2 - 1) := by
    rw [List.getLast?_range', if_neg (by omega)]
    congr 1
    omega
  rw [serveRange, hget]
  simp only [checkedSub, if_pos hlt.le, if_pos (show 1 ≤ r.2 by omega), Nat.max_self]
  rw [sliceAnswer, hpos]
  simp only [hhead, hlast, List.length_range', getElem?_positions]
  rfl

theorem get_whole {tag? : Option (List Char)} :
    (Store.holding unchanged (some o)).get ⟨tag?, none, none⟩ =
      if tag?.any (unchanged · o.version) then .ok (.notModified o.version)
      else .ok (.object o.size o.version o.content) := by
  simp only [Store.holding, Store.get, Option.any_none]
  exact if_neg Bool.false_ne_true

theorem serveWhole_hit (hhit : ifNoneMatchHit req.ifNoneMatch o.version = true) :
    serveWhole (.holding unchanged (some o)) key req = some (.ok (notModified o.version)) := by
  rw [serveWhole, get_whole]
  split_ifs with htag
  · rfl
  · simp only [hhit, if_true]

theorem sentTag_any (hmiss : ifNoneMatchHit req.ifNoneMatch o.version = false) :
    (sentTag req.ifNoneMatch).any (unchanged · o.version) = false ↔
      ∀ tag, etags req.ifNoneMatch = [tag] → unchanged tag o.version = false := by
  unfold sentTag
  unfold ifNoneMatchHit at hmiss
  rcases htags : etags req.ifNoneMatch with _ | ⟨one, _ | ⟨two, rest⟩⟩
  · exact iff_of_true rfl nofun
  · rw [htags, List.any_cons, Bool.or_eq_false_iff, Bool.or_eq_false_iff] at hmiss
    have hstar : one ≠ ['*'] := beq_eq_false_iff_ne.mp hmiss.1.1
    dsimp only
    rw [if_pos hstar, Option.any_some]
    exact ⟨fun h tag htag => List.singleton_inj.mp htag ▸ h, fun h => h one rfl⟩
  · exact iff_of_true rfl nofun

theorem serveWhole_miss (hmiss : ifNoneMatchHit req.ifNoneMatch o.version = false) :
    serveWhole (.holding unchanged (some o)) key req =
        some (.ok ⟨200, etagOf o.version, none, some o.size, o.content⟩) ↔
      ∀ tag, etags req.ifNoneMatch = [tag] → unchanged tag o.version = false := by
  rw [← sentTag_any hmiss, serveWhole, get_whole]
  split_ifs with htag
  · rw [htag]
    exact iff_of_false (fun h => by cases h) nofun
  · rw [Bool.not_eq_true] at htag
    simp only [hmiss, Bool.false_eq_true, if_false, htag]

theorem sliceAnswer_status {ps : List ℕ} : (sliceAnswer o ps).status ≠ 200 := by
  have hpartial : (206 : ℕ) ≠ 200 := by decide
  have hnone : (416 : ℕ) ≠ 200 := by decide
  unfold sliceAnswer
  split
  · exact hpartial
  · exact hnone

theorem fresh_of_text (h : ∀ v ∈ req.ifRange, (toStr v).isSome) :
    fresh req.ifRange o.version = ifRangeAllows req.ifRange o.version := by
  rcases hv : req.ifRange with _ | v
  · rfl
  · obtain ⟨t, ht⟩ := Option.isSome_iff_exists.mp (h v hv)
    rw [fresh, ifRangeAllows, Option.all_some, Option.bind_some, ht, Option.any_some]
    by_cases hquote : '"' ∈ t
    · simp only [hquote, decide_true, Bool.true_and, if_true]
    · simp only [hquote, decide_false, Bool.false_and, if_false]

theorem fresh_of_bytes {v : List UInt8} (hv : req.ifRange = some v) (h : toStr v = none) :
    fresh req.ifRange o.version = false ∧ ifRangeAllows req.ifRange o.version = true := by
  rw [hv, fresh, ifRangeAllows, Option.all_some, Option.bind_some, h]
  exact ⟨rfl, rfl⟩

theorem serve_plain (hhead : req.head = false)
    (hrange : parseRange (req.range.bind toStr) = none) {s : Store} :
    serve s key req = serveWhole s key req := by
  rw [serve, hrange, hhead]
  rfl

theorem serve_range (hhead : req.head = false)
    (hmiss : ifNoneMatchHit req.ifNoneMatch o.version = false)
    (hrange : parseRange (req.range.bind toStr) = some spec) :
    serve (.holding unchanged (some o)) key req =
      if ifRangeAllows req.ifRange o.version then
        some (.ok (sliceAnswer o (spec.positions o.size)))
      else serveWhole (.holding unchanged (some o)) key req := by
  have hresolved : (match spec.resolve o.size with
      | none => some (.ok (rangeNotSatisfiable o))
      | some r => serveRange (.holding unchanged (some o)) o r) =
      some (Except.ok (ε := ApiError) (sliceAnswer o (spec.positions o.size))) := by
    have hspec := @resolve_spec spec o.size (parseRange_valid hrange) o.fits
    rcases hresolve : spec.resolve o.size with _ | r
    · rw [hresolve] at hspec
      simp only [hspec]
      rfl
    · exact serveRange_eq (parseRange_valid hrange) hresolve
  have hne : ¬ ifNoneMatchHit req.ifNoneMatch o.version = true := ne_true_of_eq_false hmiss
  rw [← hresolved, serve, hrange, hhead]
  exact if_neg hne

theorem serve_miss_iff (hhead : req.head = false)
    (hmiss : ifNoneMatchHit req.ifNoneMatch o.version = false) :
    serve (.holding unchanged (some o)) key req = some (.ok (answer o req)) ↔
      Uniform unchanged o req := by
  have hanswer : answer o req =
      match (parseRange (req.range.bind toStr)).filter fun _ => fresh req.ifRange o.version with
      | some spec => sliceAnswer o (spec.positions o.size)
      | none => ⟨200, etagOf o.version, none, some o.size, o.content⟩ := by
    rw [answer, hmiss, hhead]
    rfl
  rcases hrange : parseRange (req.range.bind toStr) with _ | spec
  · rw [hanswer, hrange, serve_plain hhead hrange, Option.filter_none]
    refine (serveWhole_miss hmiss).trans ⟨fun h => ⟨fun hsome => ?_, fun _ => h⟩, fun h => h.tag ?_⟩
    · rw [hrange] at hsome
      cases hsome
    · exact .inl (by rw [hrange]; rfl)
  rw [hanswer, hrange, serve_range hhead hmiss hrange]
  by_cases htext : ∀ v ∈ req.ifRange, (toStr v).isSome
  · have hfresh := @fresh_of_text o req htext
    rcases hallows : ifRangeAllows req.ifRange o.version with _ | _
    · rw [hallows] at hfresh
      rw [if_neg Bool.false_ne_true,
        @Option.filter_some_neg _ (fun _ => fresh req.ifRange o.version) spec hfresh]
      exact (serveWhole_miss hmiss).trans
        ⟨fun h => ⟨fun _ => htext, fun _ => h⟩, fun h => h.tag (.inr hallows)⟩
    · rw [hallows] at hfresh
      rw [if_pos rfl, @Option.filter_some_pos _ (fun _ => fresh req.ifRange o.version) spec hfresh]
      refine iff_of_true rfl ⟨fun _ => htext, fun h => ?_⟩
      rw [hrange, hallows] at h
      rcases h with h | h <;> cases h
  · obtain ⟨v, hv, hbytes⟩ := not_forall₂.mp htext
    obtain ⟨hfresh, hallows⟩ := @fresh_of_bytes o req v hv (Option.not_isSome_iff_eq_none.mp hbytes)
    rw [if_pos hallows,
      @Option.filter_some_neg _ (fun _ => fresh req.ifRange o.version) spec hfresh]
    refine iff_of_false (fun h => ?_) fun h => htext (h.text (by rw [hrange]; rfl))
    have hstatus := @sliceAnswer_status o (spec.positions o.size)
    rw [Except.ok.inj (Option.some.inj h)] at hstatus
    exact hstatus rfl

/-- Both ways through `serve` give the one answer, whatever is asked of whatever object. -/
theorem serve_uniform (unchanged : List Char → List Char → Bool) (o? : Option Object)
    (key : String) (req : Request) :
    serve (.holding unchanged o?) key req = some (contract o? key req) ↔
      ∀ o ∈ o?, req.head = false → ifNoneMatchHit req.ifNoneMatch o.version = false →
        Uniform unchanged o req := by
  rcases o? with _ | o
  · refine iff_of_true ?_ nofun
    rw [serve]
    split
    · rfl
    · exact serveWhole_none
  simp only [Option.mem_some_iff, forall_eq', contract]
  rcases hmiss : ifNoneMatchHit req.ifNoneMatch o.version with _ | _
  · rcases hhead : req.head with _ | _
    · simp only [true_imp_iff]
      exact serve_miss_iff hhead hmiss
    · have hne : ¬ ifNoneMatchHit req.ifNoneMatch o.version = true := ne_true_of_eq_false hmiss
      refine iff_of_true ?_ nofun
      rw [answer, if_neg hne, if_pos hhead, serve, hhead]
      exact (if_neg hne).trans (if_pos rfl)
  · refine iff_of_true ?_ nofun
    rw [answer, if_pos hmiss, serve]
    split
    · exact if_pos hmiss
    · exact serveWhole_hit hmiss

/-- An accented If-Range in quotes, which is no text. -/
def accentedIfRange : Request where
  head := false
  range := some (Utf8.encode (RangeSpec.fromTo 0 (some 0)).header)
  ifNoneMatch := []
  ifRange := some [34, 233, 34]

/-- A generation with a zero in front, for a tag. -/
def paddedTag : Request where
  head := false
  range := none
  ifNoneMatch := [Utf8.encode ['"', '0', '7', '"']]
  ifRange := none

def seventh : Object := ⟨['7'], [1, 2], by decide⟩

/-- The stale If-Range lets the range through, and the other spelling is taken for the version. -/
theorem stale_range_served :
    serve (.holding (· == ·) (some seventh)) "k" accentedIfRange ≠
        some (contract (some seventh) "k" accentedIfRange) ∧
      serve (.holding gcsUnchanged (some seventh)) "k" paddedTag ≠
        some (contract (some seventh) "k" paddedTag) := by
  constructor
  · have hrange : parseRange (accentedIfRange.range.bind toStr) = some (.fromTo 0 (some 0)) := by
      have hheader : accentedIfRange.range.bind toStr = some (RangeSpec.fromTo 0 (some 0)).header :=
        by decide
      rw [hheader]
      exact parseRange_header (by rintro _ ⟨⟩; decide) ⟨by decide, by rintro _ ⟨⟩; decide⟩
    intro h
    have htext := ((serve_miss_iff rfl rfl).mp h).text (by rw [hrange]; rfl) _ rfl
    exact absurd htext (by decide)
  · intro h
    have htag := ((serve_miss_iff rfl (by decide)).mp h).tag (.inl rfl) ['0', '7'] (by decide)
    exact absurd htag (by decide)

end Contract

section Versions

variable {o : Object} {req : Request} {s : Store} {r : ℕ × ℕ} {resp : Response}

end Versions

end Walgit.StaticObject
