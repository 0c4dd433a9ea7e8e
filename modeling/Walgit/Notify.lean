import Mathlib.Data.List.Infix
import Walgit.Json
import Walgit.Lib.Hex
import Walgit.Lib.Utf8
import Walgit.PushRequest

/-!
# Bucket notifications

Every notification shape names objects, and the object of a repository's
manifest wakes that repository. The manifests of the repositories are told
apart by their keys below the store prefix.
-/

namespace Walgit.Notify

open Utf8 (encode latin1)

section Ids

/-- `validate_part` of `walgit-git`; a text of ASCII has its bytes as characters. -/
def validatePart (s : List Char) (what : String) : Except String Unit :=
  if s = [] ∨ 100 < (encode s).length then .error (what ++ " must be 1..=100 chars")
  else if s = ['.', '.'] then .error (what ++ " may not be '..'")
  else if s.head? = some '.' then .error (what ++ " may not start with '.'")
  else if ¬ (s.all fun c => c.isAlphanum || c == '.' || c == '_' || c == '-') then
    .error (what ++ " must be ASCII [A-Za-z0-9._-]")
  else .ok ()

structure RepoId where
  owner : List Char
  name : List Char
  owner_valid : validatePart owner "owner" = .ok ()
  name_valid : validatePart name "name" = .ok ()

def RepoId.new (owner name : List Char) : Except String RepoId :=
  match howner : validatePart owner "owner" with
  | .error e => .error e
  | .ok () =>
    match hname : validatePart name "name" with
    | .error e => .error e
    | .ok () => .ok ⟨owner, name, howner, hname⟩

/-- `owner/name`. -/
def RepoId.text (id : RepoId) : List Char := id.owner ++ '/' :: id.name

def RepoId.storePrefix (id : RepoId) : List Char := "repos/".toList ++ (id.text ++ ['/'])

def RepoId.manifestKey (id : RepoId) : List Char := id.storePrefix ++ "manifest.pb".toList

variable {s : List Char} {what : String} {owner name : List Char} {id id' : RepoId}

theorem validatePart_chars (h : validatePart s what = .ok ()) :
    ∀ c ∈ s, c.toNat < 128 ∧ c ≠ '/' := by
  unfold validatePart at h
  split_ifs at h with hlen hdots hdot hall
  rw [List.all_eq_true] at hall
  intro c hc
  have hcase := hall c hc
  simp only [Bool.or_eq_true, beq_iff_eq] at hcase
  rcases hcase with ((hnum | rfl) | rfl) | rfl
  · simp only [Char.isAlphanum, Char.isAlpha, Char.isUpper, Char.isLower, Char.isDigit,
      Bool.or_eq_true, Bool.and_eq_true, decide_eq_true_eq, ge_iff_le, UInt32.le_iff_toNat_le]
      at hnum
    have hnat : c.toNat = c.val.toNat := rfl
    constructor
    · rw [hnat]
      rcases hnum with (⟨-, h⟩ | ⟨-, h⟩) | ⟨-, h⟩ <;> exact Nat.lt_of_le_of_lt h (by decide)
    · rintro rfl
      revert hnum
      decide
  · exact ⟨by decide, by decide⟩
  · exact ⟨by decide, by decide⟩
  · exact ⟨by decide, by decide⟩

theorem new_eq_ok : RepoId.new owner name = .ok id ↔ owner = id.owner ∧ name = id.name := by
  unfold RepoId.new
  constructor
  · intro h
    split at h
    · cases h
    · split at h
      · cases h
      · cases h
        exact ⟨rfl, rfl⟩
  · rintro ⟨rfl, rfl⟩
    split
    · next e he => rw [id.owner_valid] at he; cases he
    · split
      · next e he => rw [id.name_valid] at he; cases he
      · rfl

theorem text_injective : id.text = id'.text ↔ id = id' := by
  refine ⟨fun h => ?_, fun h => by rw [h]⟩
  have hsplit : ∀ id : RepoId, Pkt.splitOnce '/' id.text = (id.owner, some id.name) := fun id =>
    Pkt.splitOnce_append fun hmem => (validatePart_chars id.owner_valid _ hmem).2 rfl
  have hpair := hsplit id
  rw [h, hsplit id'] at hpair
  obtain ⟨howner, hname⟩ := Prod.mk.inj hpair
  cases id
  cases id'
  simp_all

theorem manifestKey_ascii : ∀ c ∈ id.manifestKey, c.toNat < 128 := by
  have hrepos : ∀ c ∈ "repos/".toList, c.toNat < 128 :=
    List.forall_iff_forall_mem.mp (by decide)
  have hmanifest : ∀ c ∈ "manifest.pb".toList, c.toNat < 128 :=
    List.forall_iff_forall_mem.mp (by decide)
  have howner : ∀ c ∈ id.owner, c.toNat < 128 := fun c hc =>
    (validatePart_chars id.owner_valid c hc).1
  have hname : ∀ c ∈ id.name, c.toNat < 128 := fun c hc =>
    (validatePart_chars id.name_valid c hc).1
  unfold RepoId.manifestKey RepoId.storePrefix RepoId.text
  simp only [List.forall_mem_append, List.forall_mem_cons]
  have hslash : '/'.toNat < 128 := by decide
  exact ⟨⟨hrepos, ⟨howner, hslash, hname⟩, hslash, List.forall_mem_nil _⟩, hmanifest⟩

end Ids

section Decoding

/-- The digit a character is in base sixteen. -/
def hexDigit? (c : Char) : Option ℕ :=
  if c.toNat < 128 then Hex.value? (.ofNat c.toNat) else none

/-- What follows a `%`: two digits are a byte, taken as the character of that code. -/
def decodePart (part : List Char) : List Char :=
  match part with
  | h :: l :: rest =>
    match hexDigit? h, hexDigit? l with
    | some a, some b => Char.ofNat (a * 16 + b) :: rest
    | _, _ => '%' :: part
  | _ => '%' :: part

def urlDecode (key : List Char) : List Char :=
  match (key.map fun c => if c = '+' then ' ' else c).splitOn '%' with
  | [] => []
  | first :: parts => first ++ parts.flatMap decodePart

/-- A text that stands for the bytes in a URL. -/
inductive Encodes : List UInt8 → List Char → Prop
  | nil : Encodes [] []
  | literal {c : Char} {bs : List UInt8} {cs : List Char} (hascii : c.toNat < 128)
      (hpercent : c ≠ '%') (hplus : c ≠ '+') (h : Encodes bs cs) :
      Encodes (.ofNat c.toNat :: bs) (c :: cs)
  | plus {bs : List UInt8} {cs : List Char} (h : Encodes bs cs) : Encodes (32 :: bs) ('+' :: cs)
  | escaped {hi lo : Char} {a b : ℕ} {bs : List UInt8} {cs : List Char}
      (hhi : hexDigit? hi = some a) (hlo : hexDigit? lo = some b) (h : Encodes bs cs) :
      Encodes (.ofNat (a * 16 + b) :: bs) ('%' :: hi :: lo :: cs)

variable {c hi lo : Char} {a b : ℕ} {bs : List UInt8} {cs : List Char}

theorem hexDigit?_spec (h : hexDigit? c = some a) : a < 16 ∧ c ≠ '%' ∧ c ≠ '+' := by
  unfold hexDigit? at h
  split_ifs at h
  refine ⟨(Hex.digit_value h).1, ?_, ?_⟩
  · rintro rfl
    revert h
    rw [show Hex.value? (.ofNat '%'.toNat) = none from by decide]
    exact nofun
  · rintro rfl
    revert h
    rw [show Hex.value? (.ofNat '+'.toNat) = none from by decide]
    exact nofun

theorem urlDecode_cons (hpercent : c ≠ '%') :
    urlDecode (c :: cs) = (if c = '+' then ' ' else c) :: urlDecode cs := by
  have hchar : (if c = '+' then ' ' else c) ≠ '%' := by
    split_ifs
    · decide
    · exact hpercent
  unfold urlDecode
  rw [List.map_cons, List.splitOn_cons_eq_if_modifyHead, if_neg (by rwa [beq_iff_eq])]
  rcases hsplit : (cs.map fun c => if c = '+' then ' ' else c).splitOn '%' with _ | ⟨first, parts⟩
  · exact absurd hsplit (List.splitOn_ne_nil _ _)
  · rfl

theorem urlDecode_escaped (hhi : hexDigit? hi = some a) (hlo : hexDigit? lo = some b) :
    urlDecode ('%' :: hi :: lo :: cs) = Char.ofNat (a * 16 + b) :: urlDecode cs := by
  obtain ⟨-, hhip, hhiplus⟩ := hexDigit?_spec hhi
  obtain ⟨-, hlop, hloplus⟩ := hexDigit?_spec hlo
  unfold urlDecode
  rw [List.map_cons, List.map_cons, List.map_cons, if_neg (by decide), if_neg hhiplus,
    if_neg hloplus, List.splitOn_cons_eq_if_modifyHead, if_pos (by decide),
    List.splitOn_cons_eq_if_modifyHead, if_neg (by rwa [beq_iff_eq]),
    List.splitOn_cons_eq_if_modifyHead, if_neg (by rwa [beq_iff_eq])]
  rcases hsplit : (cs.map fun c => if c = '+' then ' ' else c).splitOn '%' with _ | ⟨first, parts⟩
  · exact absurd hsplit (List.splitOn_ne_nil _ _)
  · simp [decodePart, hhi, hlo]

/-- Every byte becomes the character of its code, however it was written. -/
theorem urlDecode_of_encodes (h : Encodes bs cs) : urlDecode cs = latin1 bs := by
  have hcons : ∀ {n : ℕ} {bs : List UInt8}, n < 256 →
      latin1 (.ofNat n :: bs) = Char.ofNat n :: latin1 bs := fun hn => by
    rw [latin1, List.map_cons, UInt8.toNat_ofNat_of_lt' hn, ← latin1]
  induction h with
  | nil => rfl
  | literal hascii hpercent hplus _ ih =>
    rw [urlDecode_cons hpercent, if_neg hplus, ih, hcons (by omega), Char.ofNat_toNat]
  | plus _ ih =>
    rw [urlDecode_cons (by decide), if_pos rfl, ih]
    rfl
  | escaped hhi hlo _ ih =>
    have ha := (hexDigit?_spec hhi).1
    have hb := (hexDigit?_spec hlo).1
    rw [urlDecode_escaped hhi hlo, ih, hcons (by omega)]

theorem encodes_ascii (h : ∀ c ∈ cs, c.toNat < 128 ∧ c ≠ '%' ∧ c ≠ '+') :
    Encodes (encode cs) cs := by
  induction cs with
  | nil => exact .nil
  | cons c cs ih =>
    obtain ⟨⟨hascii, hpercent, hplus⟩, hcs⟩ := List.forall_mem_cons.mp h
    rw [encode, List.flatMap_cons, Utf8.encodeChar_ascii hascii]
    exact .literal hascii hpercent hplus (ih hcs)

end Decoding

section Keys

/-- `Config::store_prefix`: the configured prefix without its outer slashes, and one after it. -/
def storePrefix (configured : List Char) : List Char :=
  let p := ((configured.dropWhile (· == '/')).rdropWhile (· == '/'))
  if p = [] then [] else p ++ ['/']

/-- `prefix/repos/<o>/<r>/manifest.pb` to `o/r`. -/
def manifestRepo (pre object : List Char) : Option RepoId := do
  let rel ← ((← (← object.dropPrefix? pre).dropPrefix? "repos/".toList).dropSuffix?
    "/manifest.pb".toList)
  let (owner, name?) := Pkt.splitOnce '/' rel
  let name ← name?
  if '/' ∈ name then none else (RepoId.new owner name).toOption

def pubsubKeys (v : Json) : List (List Char) :=
  match (v.get "message").bind (·.get "attributes") with
  | none => []
  | some attrs =>
    if (attrs.get "eventType").bind Json.asStr = some "OBJECT_FINALIZE" then
      (((attrs.get "objectId").bind Json.asStr).map String.toList).toList
    else []

def recordKey (r : Json) : Option (List Char) :=
  if ((r.get "eventName").bind Json.asStr).any fun e => "ObjectCreated".toList.isPrefixOf e.toList
  then
    ((((r.get "s3").bind (·.get "object")).bind (·.get "key")).bind Json.asStr).map
      fun k => urlDecode k.toList
  else none

def repoKey (r : List Char) : List Char := "repos/".toList ++ (r ++ "/manifest.pb".toList)

/-- The object keys a notification body names, whichever store sent it. -/
def notifiedKeys (v : Json) : List (List Char) :=
  pubsubKeys v ++ (((v.get "Records").bind Json.asArray).getD []).filterMap recordKey ++
    (((v.get "key").bind Json.asStr).map String.toList).toList ++
    (((v.get "repo").bind Json.asStr).map fun r => repoKey r.toList).toList

variable {pre object : List Char} {id : RepoId}

theorem manifestKey_eq :
    id.manifestKey = "repos/".toList ++ (id.owner ++ '/' :: id.name ++ "/manifest.pb".toList) := by
  have hassoc : ∀ repos manifest : List Char, repos ++ (id.text ++ ['/']) ++ manifest =
      repos ++ (id.owner ++ '/' :: id.name ++ '/' :: manifest) := fun repos manifest => by
    simp only [RepoId.text, List.append_assoc, List.cons_append, List.nil_append]
  exact hassoc _ _

theorem of_splitOnce {c : Char} {l after : List Char} (h : (Pkt.splitOnce c l).2 = some after) :
    l = (Pkt.splitOnce c l).1 ++ c :: after := by
  have hspan : l.takeWhile (· ≠ c) ++ l.dropWhile (· ≠ c) = l := List.takeWhile_append_dropWhile
  rw [Pkt.splitOnce, List.span_eq_takeWhile_dropWhile] at h ⊢
  rcases hdrop : l.dropWhile (· ≠ c) with _ | ⟨d, rest⟩
  · rw [hdrop] at h
    cases h
  · have hd : d = c := by
      have hhead := List.head?_dropWhile_not (· ≠ c) l
      rw [hdrop] at hhead
      simpa using hhead
    rw [hdrop] at h hspan
    obtain rfl := Option.some.inj h
    exact hspan.symm.trans (by rw [hd])

theorem manifestRepo_iff : manifestRepo pre object = some id ↔ object = pre ++ id.manifestKey := by
  constructor
  · intro h
    simp only [manifestRepo, Option.bind_eq_bind, Option.bind_eq_some_iff,
      List.dropPrefix?_eq_some_iff, List.dropSuffix?_eq_some_iff, beq_iff_eq] at h
    obtain ⟨_, ⟨_, rfl, rfl⟩, _, ⟨_, rfl, rfl⟩, rel, ⟨_, rfl, rfl⟩, name, hname, h⟩ := h
    split_ifs at h with hslash
    rcases hnew : RepoId.new (Pkt.splitOnce '/' rel).1 name with e | id'
    · rw [hnew] at h
      cases h
    · rw [hnew] at h
      obtain rfl := Option.some.inj h
      obtain ⟨howner, rfl⟩ := new_eq_ok.mp hnew
      have hrel := of_splitOnce hname
      rw [howner] at hrel
      rw [manifestKey_eq, hrel]
  · rintro rfl
    have hslash : '/' ∉ id.name := fun hmem => (validatePart_chars id.name_valid _ hmem).2 rfl
    have hsplit : Pkt.splitOnce '/' (id.owner ++ '/' :: id.name) = (id.owner, some id.name) :=
      Pkt.splitOnce_append fun hmem => (validatePart_chars id.owner_valid _ hmem).2 rfl
    have hsuffix : List.dropSuffix? (id.owner ++ '/' :: id.name ++ "/manifest.pb".toList)
        "/manifest.pb".toList = some (id.owner ++ '/' :: id.name) :=
      List.dropSuffix?_eq_some_iff.mpr ⟨_, rfl, beq_self_eq_true _⟩
    simp only [manifestRepo, manifestKey_eq, Option.bind_eq_bind, Option.bind_some,
      List.dropPrefix?_append_of_beq _ (beq_self_eq_true _), hsuffix, hsplit, if_neg hslash]
    rw [new_eq_ok.mpr ⟨rfl, rfl⟩]
    rfl

end Keys

section Notify

/-- What the bridge is built with; `catchUp` publishes what a repository committed. -/
structure Bridge (σ Report Err : Type) where
  storePrefix : List Char
  catchUp : RepoId → σ → Except Err Report × σ
  notFound : Err → Bool

variable {σ Report Err : Type}

/-- The repository caught up with, if any; one that is gone by now is nothing to do. -/
def objectFinalized (b : Bridge σ Report Err) (object : List Char) (s : σ) :
    Option RepoId × Except Err (Option Report) × σ :=
  match manifestRepo b.storePrefix object with
  | none => (none, .ok none, s)
  | some id =>
    match b.catchUp id s with
    | (.error e, s') => (some id, if b.notFound e then .ok none else .error e, s')
    | (.ok report, s') => (some id, .ok (some report), s')

/-- What answering came to, and the repository caught up with for every key looked at. -/
structure Notified (σ Report Err : Type) where
  called : List (Option RepoId)
  reply : Except Err (List Report)
  state : σ

def notifyKeys (b : Bridge σ Report Err) : List (List Char) → List Report → σ →
    Notified σ Report Err
  | [], reports, s => ⟨[], .ok reports, s⟩
  | key :: keys, reports, s =>
    match objectFinalized b key s with
    | (called, .ok report?, s') =>
      let rest := notifyKeys b keys (reports ++ report?.toList) s'
      { rest with called := called :: rest.called }
    | (called, .error e, s') => ⟨[called], .error e, s'⟩

def httpNotify (b : Bridge σ Report Err) (v : Json) (s : σ) : Notified σ Report Err :=
  notifyKeys b (notifiedKeys v) [] s

variable {b : Bridge σ Report Err} {key : List Char} {keys : List (List Char)}
  {reports : List Report} {s : σ}

theorem objectFinalized_called :
    (objectFinalized b key s).1 = manifestRepo b.storePrefix key := by
  unfold objectFinalized
  rcases manifestRepo b.storePrefix key with _ | id
  · rfl
  · rcases hcatch : b.catchUp id s with ⟨e | report, s'⟩
    · simp only [hcatch]
    · simp only [hcatch]

/-- The keys are mapped in order, all of them unless a catch-up fails. -/
theorem notifyKeys_called :
    (notifyKeys b keys reports s).called <+: keys.map (manifestRepo b.storePrefix) ∧
      ∀ reports', (notifyKeys b keys reports s).reply = .ok reports' →
        (notifyKeys b keys reports s).called = keys.map (manifestRepo b.storePrefix) := by
  induction keys generalizing reports s with
  | nil => exact ⟨List.prefix_refl [], fun _ _ => rfl⟩
  | cons key keys ih =>
    have hcalled := @objectFinalized_called _ _ _ b key s
    rw [notifyKeys, List.map_cons]
    rcases hobject : objectFinalized b key s with ⟨called, e | report?, s'⟩
    · rw [hobject] at hcalled
      exact ⟨List.cons_prefix_cons.mpr ⟨hcalled, List.nil_prefix⟩, nofun⟩
    · rw [hobject] at hcalled
      exact ⟨List.cons_prefix_cons.mpr ⟨hcalled, ih.1⟩,
        fun reports' h => List.cons_eq_cons.mpr ⟨hcalled, ih.2 reports' h⟩⟩

theorem notifyKeys_ok (h : ∀ id s, ∃ report s', b.catchUp id s = (.ok report, s')) :
    ∃ reports', (notifyKeys b keys reports s).reply = .ok reports' := by
  induction keys generalizing reports s with
  | nil => exact ⟨reports, rfl⟩
  | cons key keys ih =>
    rw [notifyKeys, objectFinalized]
    rcases manifestRepo b.storePrefix key with _ | id
    · exact ih
    · obtain ⟨report, s', hcatch⟩ := h id s
      simp only [hcatch]
      exact ih

end Notify

section Shapes

/-- A created object in an S3 notification, and its key as the URL text that is sent. -/
structure Record where
  event : List Char
  key : List Char
  sent : List Char
  created : "ObjectCreated".toList <+: event
  encoded : Encodes (encode key) sent

/-- The documented notifications. -/
inductive Notification
  | pubsub (object : List Char)
  | s3 (records : List Record)
  | key (object : List Char)
  | repo (r : List Char)

/-- The string at a path of a body is that text. -/
def At (v : Json) (path : List String) (text : Option (List Char)) : Prop :=
  ((path.foldl (fun v? key => v?.bind (Json.get · key)) (some v)).bind Json.asStr).map
    String.toList = text

def Record.In (r : Record) (v : Json) : Prop :=
  At v ["eventName"] (some r.event) ∧ At v ["s3", "object", "key"] (some r.sent)

namespace Notification

/-- The body of a notification, which has no other shape's fields. -/
def Body : Notification → Json → Prop
  | pubsub object, v =>
    At v ["message", "attributes", "eventType"] (some "OBJECT_FINALIZE".toList) ∧
      At v ["message", "attributes", "objectId"] (some object) ∧
      (v.get "Records").bind Json.asArray = none ∧ At v ["key"] none ∧ At v ["repo"] none
  | s3 records, v =>
    At v ["message", "attributes", "objectId"] none ∧
      (∃ items, (v.get "Records").bind Json.asArray = some items ∧
        List.Forall₂ Record.In records items) ∧ At v ["key"] none ∧ At v ["repo"] none
  | key object, v =>
    At v ["message", "attributes", "objectId"] none ∧
      (v.get "Records").bind Json.asArray = none ∧ At v ["key"] (some object) ∧ At v ["repo"] none
  | repo r, v =>
    At v ["message", "attributes", "objectId"] none ∧
      (v.get "Records").bind Json.asArray = none ∧ At v ["key"] none ∧ At v ["repo"] (some r)

/-- The repository each entry of a notification names: the one whose manifest the object is. -/
def names (pre : List Char) : Notification → List (RepoId → Prop)
  | pubsub object | key object => [fun id => object = pre ++ id.manifestKey]
  | s3 records => records.map fun r id => r.key = pre ++ id.manifestKey
  | repo r => [fun id => r = id.text]

end Notification

/-- A wake-up of the repository that is named, and of none where none is. -/
def Reaches (named : RepoId → Prop) (called : Option RepoId) : Prop :=
  ∀ id, called = some id ↔ named id

/-- Every entry looked at wakes what it names, and all are looked at unless a catch-up fails. -/
def Correct (pre : List Char) (n : Notification) : Prop :=
  ∀ (v : Json), n.Body v → ∀ (σ Report Err : Type) (b : Bridge σ Report Err) (s : σ),
    b.storePrefix = pre →
      List.Forall₂ Reaches ((n.names pre).take (httpNotify b v s).called.length)
        (httpNotify b v s).called ∧
      ∀ reports, (httpNotify b v s).reply = .ok reports →
        List.Forall₂ Reaches (n.names pre) (httpNotify b v s).called

namespace Notification

/-- The keys the bridge takes a notification to name. -/
def keys : Notification → List (List Char)
  | pubsub object | key object => [object]
  | s3 records => records.map fun r => latin1 (encode r.key)
  | repo r => [repoKey r]

variable {n : Notification} {v : Json}

theorem at_iff {path : List String} {text : List Char} : At v path (some text) ↔
    (path.foldl (fun v? key => v?.bind (Json.get · key)) (some v)).bind Json.asStr =
      some (.ofList text) := by
  unfold At
  generalize (path.foldl (fun v? key => v?.bind (Json.get · key)) (some v)).bind Json.asStr = t?
  rcases t? with _ | t
  · exact ⟨nofun, nofun⟩
  · rw [Option.map_some, Option.some_inj, Option.some_inj, String.ext_iff, String.toList_ofList]

theorem recordKey_of_in {r : Record} (h : r.In v) : recordKey v = some (latin1 (encode r.key)) := by
  have hevent := at_iff.mp h.1
  have hkey := at_iff.mp h.2
  have hcreated : "ObjectCreated".toList.isPrefixOf r.event = true :=
    List.isPrefixOf_iff_prefix.mpr r.created
  simp only [List.foldl_cons, List.foldl_nil, Option.bind_some] at hevent hkey
  rw [← urlDecode_of_encodes r.encoded, recordKey, hevent, hkey, Option.any_some,
    @String.toList_ofList r.event, if_pos hcreated, Option.map_some, String.toList_ofList]

theorem recordKeys_of_forall₂ {records : List Record} {items : List Json}
    (h : List.Forall₂ Record.In records items) :
    items.filterMap recordKey = records.map fun r => latin1 (encode r.key) := by
  induction h with
  | nil => rfl
  | cons hr _ ih => rw [List.filterMap_cons_some (recordKey_of_in hr), ih, List.map_cons]

theorem pubsubKeys_none (h : At v ["message", "attributes", "objectId"] none) :
    pubsubKeys v = [] := by
  simp only [At, List.foldl_cons, List.foldl_nil, Option.bind_some] at h
  unfold pubsubKeys
  rcases hattrs : (v.get "message").bind (·.get "attributes") with _ | attrs
  · rfl
  · rw [hattrs, Option.bind_some] at h
    simp only [h, Option.toList_none, ite_self]

theorem pubsubKeys_some {object : List Char}
    (h : At v ["message", "attributes", "eventType"] (some "OBJECT_FINALIZE".toList))
    (hobject : At v ["message", "attributes", "objectId"] (some object)) :
    pubsubKeys v = [object] := by
  rw [at_iff] at h hobject
  simp only [List.foldl_cons, List.foldl_nil, Option.bind_some] at h hobject
  unfold pubsubKeys
  rcases hattrs : (v.get "message").bind (·.get "attributes") with _ | attrs
  · rw [hattrs] at h
    cases h
  · rw [hattrs, Option.bind_some] at h hobject
    simp only [h, hobject, String.ofList_toList, if_true, Option.map_some, Option.toList_some,
      String.toList_ofList]

theorem keyField_eq {text : Option (List Char)} (h : At v ["key"] text) :
    ((v.get "key").bind Json.asStr).map String.toList = text := h

theorem repoField_eq {text : Option (List Char)} (h : At v ["repo"] text) :
    (((v.get "repo").bind Json.asStr).map fun r => repoKey r.toList) = text.map repoKey := by
  rw [← (h : ((v.get "repo").bind Json.asStr).map String.toList = text), Option.map_map]
  rfl

theorem notifiedKeys_of_body (h : n.Body v) : notifiedKeys v = n.keys := by
  cases n with
  | pubsub object =>
    obtain ⟨hevent, hobject, hs3, hkey, hrepo⟩ := h
    rw [notifiedKeys, pubsubKeys_some hevent hobject, hs3, keyField_eq hkey, repoField_eq hrepo]
    rfl
  | s3 records =>
    obtain ⟨hpubsub, ⟨items, hitems, hall⟩, hkey, hrepo⟩ := h
    rw [notifiedKeys, pubsubKeys_none hpubsub, hitems, Option.getD_some,
      recordKeys_of_forall₂ hall, keyField_eq hkey, repoField_eq hrepo]
    exact (List.append_nil _).trans (List.append_nil _)
  | key object =>
    obtain ⟨hpubsub, hs3, hkey, hrepo⟩ := h
    rw [notifiedKeys, pubsubKeys_none hpubsub, hs3, keyField_eq hkey, repoField_eq hrepo]
    rfl
  | repo r =>
    obtain ⟨hpubsub, hs3, hkey, hrepo⟩ := h
    rw [notifiedKeys, pubsubKeys_none hpubsub, hs3, keyField_eq hkey, repoField_eq hrepo]
    rfl

def recordJson (r : Record) : Json :=
  .object [("eventName", .string (.ofList r.event)),
    ("s3", .object [("object", .object [("key", .string (.ofList r.sent))])])]

def json : Notification → Json
  | pubsub object => .object [("message", .object [("attributes", .object [
      ("eventType", .string "OBJECT_FINALIZE"), ("objectId", .string (.ofList object))])])]
  | s3 records => .object [("Records", .array (records.map recordJson))]
  | key object => .object [("key", .string (.ofList object))]
  | repo r => .object [("repo", .string (.ofList r))]

theorem recordJson_in {r : Record} : r.In (recordJson r) :=
  ⟨at_iff.mpr rfl, at_iff.mpr rfl⟩

theorem json_body : n.Body n.json := by
  cases n with
  | pubsub object => exact ⟨at_iff.mpr rfl, at_iff.mpr rfl, rfl, rfl, rfl⟩
  | s3 records =>
    refine ⟨rfl, ⟨_, rfl, ?_⟩, rfl, rfl⟩
    rw [List.forall₂_map_right_iff, List.forall₂_same]
    exact fun r _ => recordJson_in
  | key object => exact ⟨rfl, rfl, at_iff.mpr rfl, rfl⟩
  | repo r => exact ⟨rfl, rfl, rfl, at_iff.mpr rfl⟩

/-- When the entries of a notification reach the repositories they name. -/
def Condition (pre : List Char) : Notification → Prop
  | pubsub _ | key _ => True
  | s3 records => ∀ r ∈ records, ∀ (above : List Char) (id : RepoId),
      r.key = above ++ id.manifestKey → above = pre ∨ latin1 (encode above) = pre →
        ∀ c ∈ above, c.toNat < 128
  | repo r => pre = [] ∨
      (∀ id : RepoId, r ≠ id.text) ∧ ∀ id : RepoId, repoKey r ≠ pre ++ id.manifestKey

variable {pre : List Char}

theorem correct_iff_reaches :
    Correct pre n ↔ List.Forall₂ Reaches (n.names pre) (n.keys.map (manifestRepo pre)) := by
  constructor
  · intro h
    -- a bridge that never fails looks at every key
    let b : Bridge Unit Unit Unit := ⟨pre, fun _ s => (.ok (), s), fun _ => false⟩
    obtain ⟨reports, hok⟩ :=
      @notifyKeys_ok Unit Unit Unit b n.keys [] () fun _ _ => ⟨(), (), rfl⟩
    have hreaches := (h n.json json_body Unit Unit Unit b () rfl).2 reports
    rw [httpNotify, notifiedKeys_of_body json_body] at hreaches
    have hall := hreaches hok
    rwa [notifyKeys_called.2 reports hok] at hall
  · rintro h v hv σ Report Err b s rfl
    rw [httpNotify, notifiedKeys_of_body hv]
    obtain ⟨hpre, hall⟩ := @notifyKeys_called σ Report Err b n.keys [] s
    constructor
    · have htake := List.forall₂_take (notifyKeys b n.keys [] s).called.length h
      rwa [← List.prefix_iff_eq_take.mp hpre] at htake
    · intro reports hok
      rwa [hall reports hok]

theorem reaches_object {object : List Char} :
    Reaches (fun id => object = pre ++ id.manifestKey) (manifestRepo pre object) :=
  fun _ => manifestRepo_iff

theorem latin1_manifest {above : List Char} {id : RepoId} :
    latin1 (encode (above ++ id.manifestKey)) = latin1 (encode above) ++ id.manifestKey := by
  rw [Utf8.encode_append, Utf8.latin1_append, Utf8.latin1_encode_ascii manifestKey_ascii]

theorem exists_above {object : List Char} {id : RepoId}
    (h : latin1 (encode object) = pre ++ id.manifestKey) :
    ∃ above, object = above ++ id.manifestKey ∧ latin1 (encode above) = pre := by
  obtain ⟨bs, bs', hbytes, hbs, hbs'⟩ := List.map_eq_append_iff.mp h
  have htail : bs' = encode id.manifestKey :=
    Utf8.latin1_injective (hbs'.trans (Utf8.latin1_encode_ascii manifestKey_ascii).symm)
  rw [htail] at hbytes
  obtain ⟨above, hobject, habove⟩ := Utf8.exists_of_encode_append manifestKey_ascii hbytes
  exact ⟨above, hobject, by rw [habove]; exact hbs⟩

theorem reaches_record {object : List Char} :
    Reaches (fun id => object = pre ++ id.manifestKey)
        (manifestRepo pre (latin1 (encode object))) ↔
      ∀ (above : List Char) (id : RepoId), object = above ++ id.manifestKey →
        above = pre ∨ latin1 (encode above) = pre → ∀ c ∈ above, c.toNat < 128 := by
  unfold Reaches
  simp only [manifestRepo_iff]
  constructor
  · intro h above id hobject habove
    have heq := h id
    rw [hobject, latin1_manifest, List.append_cancel_right_eq, List.append_cancel_right_eq] at heq
    refine Utf8.ascii_of_latin1_encode ?_
    rcases habove with rfl | hlatin
    · exact heq.mpr rfl
    · exact hlatin.trans (heq.mp hlatin).symm
  · intro h id
    constructor
    · intro hlatin
      obtain ⟨above, hobject, habove⟩ := exists_above hlatin
      rw [hobject, ← habove, Utf8.latin1_encode_ascii (h above id hobject (.inr habove))]
    · intro hobject
      rw [hobject, latin1_manifest, Utf8.latin1_encode_ascii (h pre id hobject (.inl rfl))]

theorem reaches_repo {r : List Char} :
    Reaches (fun id => r = id.text) (manifestRepo pre (repoKey r)) ↔
      pre = [] ∨ (∀ id : RepoId, r ≠ id.text) ∧
        ∀ id : RepoId, repoKey r ≠ pre ++ id.manifestKey := by
  have htext : ∀ id : RepoId, repoKey id.text = id.manifestKey := fun _ => manifestKey_eq.symm
  unfold Reaches
  simp only [manifestRepo_iff]
  constructor
  · intro h
    refine or_iff_not_imp_left.mpr fun hpre => ?_
    have hnone : ∀ id : RepoId, r ≠ id.text := by
      rintro id rfl
      have hkey := (h id).mpr rfl
      rw [htext] at hkey
      exact hpre (List.self_eq_append_left.mp hkey)
    exact ⟨hnone, fun id hkey => hnone id ((h id).mp hkey)⟩
  · rintro (rfl | ⟨hnone, hkey⟩) id
    · rw [List.nil_append, ← htext]
      unfold repoKey
      rw [List.append_cancel_left_eq, List.append_cancel_right_eq]
    · exact iff_of_false (hkey id) (hnone id)

end Notification

end Shapes

open Notification

/-- Which notifications reach the repositories they name, under any configured prefix. -/
theorem notifications_reach (configured : List Char) (n : Notification) :
    Correct (storePrefix configured) n ↔ n.Condition (storePrefix configured) := by
  rw [correct_iff_reaches]
  cases n with
  | pubsub object => exact iff_of_true (.cons reaches_object .nil) trivial
  | key object => exact iff_of_true (.cons reaches_object .nil) trivial
  | s3 records =>
    rw [names, keys, List.map_map, List.forall₂_map_left_iff, List.forall₂_map_right_iff,
      List.forall₂_same]
    exact forall₂_congr fun r _ => reaches_record
  | repo r =>
    rw [names, keys, List.map_singleton, List.forall₂_cons, and_iff_left .nil]
    exact reaches_repo

def acme : RepoId := ⟨"acme".toList, "monorepo".toList, rfl, rfl⟩

/-- The manifest of `acme/monorepo` in a store with the prefix `é/`. -/
def accented : Record where
  event := "ObjectCreated:Put".toList
  key := ['é', '/'] ++ acme.manifestKey
  sent := "%C3%A9/".toList ++ acme.manifestKey
  created := by decide
  encoded := by
    have hrest : Encodes (encode ('/' :: acme.manifestKey)) ('/' :: acme.manifestKey) :=
      encodes_ascii (List.forall_iff_forall_mem.mp (by decide))
    exact Encodes.escaped (a := 12) (b := 3) (by decide) (by decide)
      (Encodes.escaped (a := 10) (b := 9) (by decide) (by decide) hrest)

/-- Glue that names a repository in a store with a prefix, and an accented prefix, are missed. -/
theorem notification_missed :
    ¬ Correct (storePrefix ['x']) (.repo acme.text) ∧
      ¬ Correct (storePrefix ['é']) (.s3 [accented]) := by
  constructor
  · rw [correct_iff_reaches, names, keys, List.map_singleton, List.forall₂_cons, reaches_repo]
    rintro ⟨hx | ⟨hnone, -⟩, -⟩
    · exact absurd hx (by decide)
    · exact hnone acme rfl
  · rw [correct_iff_reaches, names, keys, List.map_map, List.forall₂_map_left_iff,
      List.forall₂_map_right_iff, List.forall₂_same, List.forall_mem_singleton]
    intro h
    have hascii := reaches_record.mp h ['é', '/'] acme rfl (.inl (by decide)) 'é' (by decide)
    exact absurd hascii (by decide)

end Walgit.Notify
