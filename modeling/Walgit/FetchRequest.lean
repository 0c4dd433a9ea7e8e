import Walgit.Appliers
import Walgit.ReportStatus
import Walgit.StaticObject

/-!
# A fetch handed on to git

The arguments of a fetch are read into a record and written out again for the
git process. The record has a field for every argument it knows; options with
one value keep the last one, and a number that does not fit its field is left
out. The request as it came and the request as it is handed on are compared
argument by argument.
-/

namespace Walgit.Pkt

open Appliers (fromHex lowerHex)
open Objects (afterPrefix parseUnsigned)

section Code

structure UploadPackRequest where
  wants : List String := []
  haves : List String := []
  done : Bool := false
  thinPack : Bool := false
  noProgress : Bool := false
  includeTag : Bool := false
  ofsDelta : Bool := false
  sidebandAll : Bool := false
  waitForDone : Bool := false
  filter : Option String := none
  deepen : Option ℕ := none
  deepenSince : Option ℤ := none
  deepenNot : List String := []
  shallow : List String := []
  wantRefs : List String := []
  packfileUrisProtocols : List String := []
  deriving DecidableEq, Repr

/-- `str::parse` to a 32-bit unsigned number. -/
def parseU32 (s : List Char) : Option ℕ := (parseUnsigned s).filter (· < 2 ^ 32)

/-- `str::parse` to a 64-bit signed number. -/
def parseI64 : List Char → Option ℤ
  | '-' :: rest =>
    if rest.head? = some '+' then none
    else ((parseUnsigned rest).filter (· ≤ 2 ^ 63)).map fun n : ℕ => -(n : ℤ)
  | s => ((parseUnsigned s).filter (· < 2 ^ 63)).map fun n : ℕ => (n : ℤ)

/-- The object id of the text; nothing where it is none. -/
def objectId (hex : List Char) : List String := (fromHex (.ofList hex)).toList

/-- One argument without its line end. -/
def fetchArgument (req : UploadPackRequest) (s : List Char) : UploadPackRequest :=
  if let some hex := afterPrefix "want " s then { req with wants := req.wants ++ objectId hex }
  else if let some hex := afterPrefix "have " s then
    { req with haves := req.haves ++ objectId hex }
  else if s = "done".toList then { req with done := true }
  else if s = "thin-pack".toList then { req with thinPack := true }
  else if s = "no-progress".toList then { req with noProgress := true }
  else if s = "include-tag".toList then { req with includeTag := true }
  else if s = "ofs-delta".toList then { req with ofsDelta := true }
  else if s = "sideband-all".toList then { req with sidebandAll := true }
  else if s = "wait-for-done".toList then { req with waitForDone := true }
  else if let some spec := afterPrefix "filter " s then { req with filter := some (.ofList spec) }
  else if let some n := afterPrefix "deepen " s then { req with deepen := parseU32 n }
  else if let some t := afterPrefix "deepen-since " s then { req with deepenSince := parseI64 t }
  else if let some r := afterPrefix "deepen-not " s then
    { req with deepenNot := req.deepenNot ++ [.ofList r] }
  else if let some hex := afterPrefix "shallow " s then
    { req with shallow := req.shallow ++ objectId hex }
  else if let some r := afterPrefix "want-ref " s then
    { req with wantRefs := req.wantRefs ++ [.ofList r] }
  else if let some p := afterPrefix "packfile-uris " s then
    { req with packfileUrisProtocols := (p.splitOn ' ').map .ofList }
  else req

def fetchLine (req : UploadPackRequest) (b : Bytes) : UploadPackRequest :=
  fetchArgument req (trimEndLines (Utf8.lossy b))

def fetchBody (req : UploadPackRequest) (p : PktLine) :
    Except RequestError (UploadPackRequest ⊕ UploadPackRequest) :=
  match p with
  | .data b => .ok (.inl (fetchLine req b))
  | _ => .ok (.inr req)

def parseFetchRequest (r : Pieces UInt8) : Except RequestError (UploadPackRequest × Pieces UInt8) :=
  readLoop fetchBody id {} r

/-- A line of the request that is handed on. -/
def fetchText (text : String) : Bytes := encodeData (utf8 (text ++ "\n"))

def buildV2FetchRequest (req : UploadPackRequest) : Bytes :=
  fetchText "command=fetch" ++ encodeDelim ++
  (if req.thinPack then fetchText "thin-pack" else []) ++
  (if req.ofsDelta then fetchText "ofs-delta" else []) ++
  (if req.noProgress then fetchText "no-progress" else []) ++
  (if req.includeTag then fetchText "include-tag" else []) ++
  (if req.sidebandAll then fetchText "sideband-all" else []) ++
  (if req.waitForDone then fetchText "wait-for-done" else []) ++
  (req.filter.toList.flatMap fun f => fetchText ("filter " ++ f)) ++
  (req.wants.flatMap fun w => fetchText ("want " ++ w)) ++
  (req.haves.flatMap fun h => fetchText ("have " ++ h)) ++
  (req.shallow.flatMap fun s => fetchText ("shallow " ++ s)) ++
  (req.deepen.toList.flatMap fun d => fetchText ("deepen " ++ toString d)) ++
  (req.deepenSince.toList.flatMap fun ts => fetchText ("deepen-since " ++ toString ts)) ++
  (req.deepenNot.flatMap fun n => fetchText ("deepen-not " ++ n)) ++
  (req.wantRefs.flatMap fun r => fetchText ("want-ref " ++ r)) ++
  (if req.packfileUrisProtocols ≠ [] then fetchText ("packfile-uris " ++
    .ofList ([' '].intercalate (req.packfileUrisProtocols.map String.toList))) else []) ++
  (if req.done then fetchText "done" else []) ++ encodeFlush

end Code

section Arguments

/-- The arguments without a value. -/
inductive FlagKey
  | done
  | thinPack
  | noProgress
  | includeTag
  | ofsDelta
  | sidebandAll
  | waitForDone
  | deepenRelative
  deriving DecidableEq, Repr

/-- The arguments that name an object. -/
inductive OidKey
  | wanted
  | held
  | shallow
  deriving DecidableEq, Repr

inductive StringKey
  | filter
  | deepenNot
  | wantRef
  | packfileUris
  deriving DecidableEq, Repr

inductive NumberKey
  | deepen
  | deepenSince
  deriving DecidableEq, Repr

/-- An argument of a version 2 fetch. -/
inductive FetchArg
  | flag (k : FlagKey)
  | oid (k : OidKey) (hex : String)
  | string (k : StringKey) (b : Bytes)
  | number (k : NumberKey) (n : ℕ)
  deriving DecidableEq, Repr

/-- What an argument is, apart from its value. -/
inductive ArgKey
  | flag (k : FlagKey)
  | oid (k : OidKey)
  | string (k : StringKey)
  | number (k : NumberKey)
  deriving DecidableEq, Repr

def ArgKey.word : ArgKey → String
  | flag .done => "done"
  | flag .thinPack => "thin-pack"
  | flag .noProgress => "no-progress"
  | flag .includeTag => "include-tag"
  | flag .ofsDelta => "ofs-delta"
  | flag .sidebandAll => "sideband-all"
  | flag .waitForDone => "wait-for-done"
  | flag .deepenRelative => "deepen-relative"
  | oid .wanted => "want"
  | oid .held => "have"
  | oid .shallow => "shallow"
  | string .filter => "filter"
  | string .deepenNot => "deepen-not"
  | string .wantRef => "want-ref"
  | string .packfileUris => "packfile-uris"
  | number .deepen => "deepen"
  | number .deepenSince => "deepen-since"

def ArgKey.all : List ArgKey :=
  [flag .done, flag .thinPack, flag .noProgress, flag .includeTag, flag .ofsDelta,
    flag .sidebandAll, flag .waitForDone, flag .deepenRelative, oid .wanted, oid .held,
    oid .shallow, string .filter, string .deepenNot, string .wantRef, string .packfileUris,
    number .deepen, number .deepenSince]

namespace FetchArg

def key : FetchArg → ArgKey
  | flag k => .flag k
  | oid k _ => .oid k
  | string k _ => .string k
  | number k _ => .number k

def word (a : FetchArg) : String := a.key.word

def value : FetchArg → Option Bytes
  | flag _ => none
  | oid _ hex => some (utf8 hex)
  | string _ b => some b
  | number _ n => some (utf8 (toString n))

/-- The argument as a line, without its line end. -/
def render (a : FetchArg) : Bytes := ascii a.word ++ a.value.elim [] (32 :: ·)

/-- Object ids are hexadecimal, and an argument is one line. -/
def Valid : FetchArg → Prop
  | oid _ hex => (fromHex hex).isSome
  | string _ b => 10 ∉ b
  | flag _ | number _ _ => True

def oids (k : OidKey) (args : List FetchArg) : List String :=
  args.filterMap fun
    | oid k' hex => if k' = k then some (lowerHex hex) else none
    | _ => none

def strings (k : StringKey) (args : List FetchArg) : List Bytes :=
  args.filterMap fun
    | string k' b => if k' = k then some b else none
    | _ => none

def numbers (k : NumberKey) (args : List FetchArg) : List ℕ :=
  args.filterMap fun
    | number k' n => if k' = k then some n else none
    | _ => none

end FetchArg

/-- The arguments as packets, each with or without its line end. -/
def argPackets (ls : List (FetchArg × Bool)) : List PktLine :=
  ls.map fun a => .data (line a.2 a.1.render)

/-- The bytes are a fetch with these arguments, in packets within git's limit. -/
structure Requests (args : List FetchArg) (s : Bytes) : Prop where
  valid : ∀ a ∈ args, a.Valid
  framed : ∃ ls, ls.map Prod.fst = args ∧
    Framed ([.data (ascii "command=fetch\n"), .delim] ++ argPackets ls ++ [.flush]) s ∧
    ∀ p ∈ argPackets ls, p.Fits

/-- The same arguments of every kind. -/
structure SameArgs (args args' : List FetchArg) : Prop where
  flags : ∀ k, .flag k ∈ args ↔ .flag k ∈ args'
  oids : ∀ k, FetchArg.oids k args = FetchArg.oids k args'
  strings : ∀ k, FetchArg.strings k args = FetchArg.strings k args'
  numbers : ∀ k, FetchArg.numbers k args = FetchArg.numbers k args'

/-- What the record can say: no relative depth, one value of an option, numbers of its width, and
text whose line fits into a packet. -/
structure Rebuildable (args : List FetchArg) : Prop where
  absolute : .flag .deepenRelative ∉ args
  filter : (FetchArg.strings .filter args).length ≤ 1
  packfileUris : (FetchArg.strings .packfileUris args).length ≤ 1
  single : ∀ k, (FetchArg.numbers k args).length ≤ 1
  deepen : ∀ n, .number .deepen n ∈ args → n < 2 ^ 32
  deepenSince : ∀ n, .number .deepenSince n ∈ args → n < 2 ^ 63
  text : ∀ k b, .string k b ∈ args → (∃ s : String, b = utf8 s) ∧
    (FetchArg.string k b).render.length < maxPktData

end Arguments

section Reading

variable {req : UploadPackRequest} {a : FetchArg} {nl : Bool} {cs v : List Char} {b : Bytes}
  {n : ℕ} {hex : String}

def readString (nl : Bool) (b : Bytes) : String :=
  .ofList (trimEndLines (Utf8.lossy (line nl b)))

theorem readString_utf8 {s : String} (h : 10 ∉ utf8 s) : readString nl (utf8 s) = s := by
  have hlast : s.toList.getLast? ≠ some '\n' := fun hlast =>
    h (mem_utf8.mpr (List.mem_of_getLast? hlast))
  rw [readString, utf8, line_encode, Utf8.lossy_encode, trimEndLines_append hlast,
    String.ofList_toList]

theorem utf8_readString (h : 10 ∉ b) : utf8 (readString nl b) = b ↔ ∃ s : String, b = utf8 s := by
  constructor
  · exact fun heq => ⟨_, heq.symm⟩
  · rintro ⟨s, rfl⟩
    rw [readString_utf8 h]

theorem trimEndLines_cons {c : Char} (h : c ≠ '\n') :
    trimEndLines (cs ++ c :: v) = cs ++ c :: trimEndLines v := by
  have hc : ¬ (c == '\n') = true := fun heq => h (beq_iff_eq.mp heq)
  induction v using List.reverseRecOn with
  | nil => exact List.rdropWhile_concat_neg _ _ _ hc
  | append_singleton v x ih =>
    rw [← List.cons_append, ← List.append_assoc]
    rw [trimEndLines] at ih ⊢
    rw [trimEndLines, List.rdropWhile_concat, List.rdropWhile_concat, ih]
    split_ifs <;> simp [trimEndLines]

theorem mem_all (k : ArgKey) : k ∈ ArgKey.all := by
  rcases k with k | k | k | k <;> cases k <;> decide

theorem plain_words : ∀ k ∈ ArgKey.all,
    ascii k.word = utf8 k.word ∧ 32 ∉ ascii k.word ∧ 10 ∉ ascii k.word :=
  List.forall_iff_forall_mem.mp (by decide)

theorem ascii_word (a : FetchArg) : ascii a.word = utf8 a.word := (plain_words _ (mem_all _)).1

theorem trimEndLines_render : trimEndLines (Utf8.lossy (line nl a.render)) =
    a.word.toList ++ (a.value.elim [] fun b => ' ' :: (readString nl b).toList) := by
  rcases hvalue : a.value with _ | b
  · have hword : 10 ∉ utf8 a.word := by
      rw [← ascii_word]
      exact (plain_words _ (mem_all _)).2.2
    have hread := congrArg String.toList (@readString_utf8 nl a.word hword)
    rw [readString, String.toList_ofList] at hread
    rw [FetchArg.render, hvalue, Option.elim_none, Option.elim_none, List.append_nil,
      List.append_nil, ascii_word, hread]
  · have hline : line nl a.render = Utf8.encode (a.word.toList ++ [' ']) ++ line nl b := by
      have hrender : a.render = Utf8.encode (a.word.toList ++ [' ']) ++ b := by
        rw [FetchArg.render, hvalue, ascii_word, Utf8.encode, List.flatMap_append,
          List.append_assoc]
        rfl
      rw [hrender]
      cases nl
      · rfl
      · exact List.append_assoc _ _ _
    rw [hline, Utf8.lossy_encode_append, List.append_assoc, List.singleton_append,
      trimEndLines_cons (by decide), Option.elim_some, readString, String.toList_ofList]

theorem fromHex_plain (h : (fromHex hex).isSome) :
    10 ∉ utf8 hex ∧ objectId hex.toList = [lowerHex hex] := by
  rw [fromHex] at h
  split_ifs at h with hdigits
  · constructor
    · rw [mem_utf8]
      exact not_mem_of_hex (List.all_eq_true.mp hdigits.2) (by decide)
    · rw [objectId, String.ofList_toList, fromHex, if_pos hdigits]
      rfl
  · cases h

theorem parseU32_nat (n : ℕ) :
    parseU32 (toString n).toList = if n < 2 ^ 32 then some n else none := by
  rw [parseU32, StaticObject.parseUnsigned_nat]
  by_cases h : n < 2 ^ 32
  · rw [if_pos h, if_pos (h.trans (by decide)), Option.filter_some, if_pos (decide_eq_true h)]
  · rw [if_neg h]
    split_ifs
    · rw [Option.filter_some, if_neg (by simpa using h)]
    · rfl

theorem parseI64_nat (n : ℕ) :
    parseI64 (toString n).toList = if n < 2 ^ 63 then some (n : ℤ) else none := by
  have hsign : ∀ rest, (toString n).toList ≠ '-' :: rest := fun rest heq =>
    Decimal.sign_not_mem (heq ▸ List.mem_cons_self)
  rw [parseI64, StaticObject.parseUnsigned_nat]
  · by_cases h : n < 2 ^ 63
    · rw [if_pos h, if_pos (h.trans (by decide)), Option.filter_some, if_pos (decide_eq_true h)]
      rfl
    · rw [if_neg h]
      split_ifs
      · rw [Option.filter_some, if_neg (by simpa using h)]
        rfl
      · rfl
  · exact hsign

theorem not_mem_number : 10 ∉ utf8 (toString n) := by
  rw [mem_utf8]
  intro h
  have hdigit : '\n'.isDigit = true := Decimal.isDigit_of_nat h
  exact absurd hdigit (by decide)

def UploadPackRequest.add (req : UploadPackRequest) (nl : Bool) : FetchArg → UploadPackRequest
  | .flag .done => { req with done := true }
  | .flag .thinPack => { req with thinPack := true }
  | .flag .noProgress => { req with noProgress := true }
  | .flag .includeTag => { req with includeTag := true }
  | .flag .ofsDelta => { req with ofsDelta := true }
  | .flag .sidebandAll => { req with sidebandAll := true }
  | .flag .waitForDone => { req with waitForDone := true }
  | .flag .deepenRelative => req
  | .oid .wanted hex => { req with wants := req.wants ++ [lowerHex hex] }
  | .oid .held hex => { req with haves := req.haves ++ [lowerHex hex] }
  | .oid .shallow hex => { req with shallow := req.shallow ++ [lowerHex hex] }
  | .string .filter b => { req with filter := some (readString nl b) }
  | .string .deepenNot b => { req with deepenNot := req.deepenNot ++ [readString nl b] }
  | .string .wantRef b => { req with wantRefs := req.wantRefs ++ [readString nl b] }
  | .string .packfileUris b =>
    { req with packfileUrisProtocols := ((readString nl b).toList.splitOn ' ').map .ofList }
  | .number .deepen n => { req with deepen := if n < 2 ^ 32 then some n else none }
  | .number .deepenSince n => { req with deepenSince := if n < 2 ^ 63 then some (n : ℤ) else none }

theorem fetchLine_render (h : a.Valid) : fetchLine req (line nl a.render) = req.add nl a := by
  rw [fetchLine, trimEndLines_render]
  rcases a with (k | ⟨k, hex⟩ | ⟨k, b⟩ | ⟨k, n⟩)
  · cases k <;> rfl
  · obtain ⟨hplain, hid⟩ := fromHex_plain h
    rw [FetchArg.value, Option.elim_some, readString_utf8 hplain]
    cases k <;> rw [FetchArg.word, FetchArg.key, ArgKey.word]
    · change { req with wants := req.wants ++ objectId hex.toList } = _
      rw [hid]
      rfl
    · change { req with haves := req.haves ++ objectId hex.toList } = _
      rw [hid]
      rfl
    · change { req with shallow := req.shallow ++ objectId hex.toList } = _
      rw [hid]
      rfl
  · rw [FetchArg.value, Option.elim_some]
    have hread : String.ofList (readString nl b).toList = readString nl b := String.ofList_toList
    cases k <;> rw [FetchArg.word, FetchArg.key, ArgKey.word]
    · change { req with filter := some (String.ofList (readString nl b).toList) } = _
      rw [hread]
      rfl
    · change { req with
        deepenNot := req.deepenNot ++ [String.ofList (readString nl b).toList] } = _
      rw [hread]
      rfl
    · change { req with
        wantRefs := req.wantRefs ++ [String.ofList (readString nl b).toList] } = _
      rw [hread]
      rfl
    · rfl
  · rw [FetchArg.value, Option.elim_some, readString_utf8 not_mem_number]
    cases k <;> rw [FetchArg.word, FetchArg.key, ArgKey.word]
    · change { req with deepen := parseU32 (toString n).toList } = _
      rw [parseU32_nat]
      rfl
    · change { req with deepenSince := parseI64 (toString n).toList } = _
      rw [parseI64_nat]
      rfl

end Reading

section Record

open FetchArg (oids strings numbers)

variable {ls : List (FetchArg × Bool)} {a : FetchArg} {nl : Bool} {r : Pieces UInt8} {t : Bytes}

def argsOf (ls : List (FetchArg × Bool)) : List FetchArg := ls.map Prod.fst

/-- The texts of a kind as they are read. -/
def readStrings (k : StringKey) (ls : List (FetchArg × Bool)) : List String :=
  ls.filterMap fun
    | (.string k' b, nl) => if k' = k then some (readString nl b) else none
    | _ => none

def requested (ls : List (FetchArg × Bool)) : UploadPackRequest where
  wants := oids .wanted (argsOf ls)
  haves := oids .held (argsOf ls)
  done := .flag .done ∈ argsOf ls
  thinPack := .flag .thinPack ∈ argsOf ls
  noProgress := .flag .noProgress ∈ argsOf ls
  includeTag := .flag .includeTag ∈ argsOf ls
  ofsDelta := .flag .ofsDelta ∈ argsOf ls
  sidebandAll := .flag .sidebandAll ∈ argsOf ls
  waitForDone := .flag .waitForDone ∈ argsOf ls
  filter := (readStrings .filter ls).getLast?
  deepen := (numbers .deepen (argsOf ls)).getLast?.filter (· < 2 ^ 32)
  deepenSince :=
    ((numbers .deepenSince (argsOf ls)).getLast?.filter (· < 2 ^ 63)).map fun n : ℕ => (n : ℤ)
  deepenNot := readStrings .deepenNot ls
  shallow := oids .shallow (argsOf ls)
  wantRefs := readStrings .wantRef ls
  packfileUrisProtocols :=
    (readStrings .packfileUris ls).getLast?.elim [] fun p => (p.toList.splitOn ' ').map .ofList

variable {args args' : List FetchArg}

@[simp] theorem argsOf_append : argsOf (ls ++ [(a, nl)]) = argsOf ls ++ [a] := List.map_append

@[simp] theorem oids_append {k : OidKey} : oids k (args ++ args') = oids k args ++ oids k args' :=
  List.filterMap_append

@[simp] theorem strings_append {k : StringKey} :
    strings k (args ++ args') = strings k args ++ strings k args' :=
  List.filterMap_append

@[simp] theorem numbers_append {k : NumberKey} :
    numbers k (args ++ args') = numbers k args ++ numbers k args' :=
  List.filterMap_append

@[simp] theorem readStrings_append {k : StringKey} {ls' : List (FetchArg × Bool)} :
    readStrings k (ls ++ ls') = readStrings k ls ++ readStrings k ls' :=
  List.filterMap_append

theorem requested_append : requested (ls ++ [(a, nl)]) = (requested ls).add nl a := by
  rcases a with (k | ⟨k, hex⟩ | ⟨k, b⟩ | ⟨k, n⟩)
  · cases k <;> simp [requested, UploadPackRequest.add, oids, numbers, readStrings]
  · cases k <;> simp [requested, UploadPackRequest.add, oids, numbers, readStrings]
  · cases k <;> simp [requested, UploadPackRequest.add, oids, numbers, readStrings]
  · cases k
    · simp [requested, UploadPackRequest.add, oids, numbers, readStrings, Option.filter_some]
    · simp [requested, UploadPackRequest.add, oids, numbers, readStrings, Option.filter_some]

theorem foldl_add (ls : List (FetchArg × Bool)) :
    ls.foldl (fun req x => req.add x.2 x.1) {} = requested ls := by
  induction ls using List.reverseRecOn with
  | nil => rfl
  | append_singleton ls x ih =>
    rw [List.foldl_append, ih, List.foldl_cons, List.foldl_nil, ← requested_append]

theorem goes_fetch {req : UploadPackRequest} (h : ∀ a ∈ argsOf ls, a.Valid) :
    Goes fetchBody req (argPackets ls) (ls.foldl (fun req x => req.add x.2 x.1) req) := by
  induction ls generalizing req with
  | nil => exact .nil req
  | cons x ls ih =>
    rw [argsOf, List.map_cons, List.forall_mem_cons] at h
    refine .cons ?_ (ih h.2)
    rw [fetchBody, fetchLine_render h.1]

theorem parseFetchRequest_eq (h : ∀ a ∈ argsOf ls, a.Valid)
    (hcode : ∀ p ∈ argPackets ls, p.code < 16 ^ 4)
    (hall : r.all = (argPackets ls ++ [PktLine.flush]).flatMap PktLine.encode ++ t) :
    ∃ r', parseFetchRequest r = .ok (requested ls, r') ∧ r'.all = t := by
  have hcodes : ∀ p ∈ argPackets ls ++ [PktLine.flush], p.code < 16 ^ 4 :=
    List.forall_mem_append.mpr ⟨hcode, List.forall_mem_singleton.mpr (by decide)⟩
  rw [← foldl_add]
  exact (goes_fetch h).readLoop_stop id hcodes rfl hall

end Record

end Walgit.Pkt
