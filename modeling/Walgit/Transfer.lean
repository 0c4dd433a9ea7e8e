import Mathlib.Data.List.GetD
import Mathlib.Logic.Function.Basic
import Walgit.Lib.Decimal
import Walgit.Lib.Pieces
import Walgit.Lib.Tiling

/-!
# Striped transfers

A large file goes up as part objects that the store composes, in two levels
where there are more than it takes at once. A large object comes down as
ranges that are written at their places. The parts and the ranges are on their
way at the same time and arrive in any order.
-/

namespace Walgit.Transfer

open Tiling

abbrev Bytes := List UInt8

abbrev Bucket := String → Option Bytes

inductive TransferError
  | invalidArgument (sources : ℕ)
  | notFound
  | preconditionFailed
  | shortRead (r : ℕ × ℕ) (got : ℕ)
  deriving DecidableEq, Repr

section Upload

def minPart : ℕ := 64 * 1024 * 1024

def maxPart : ℕ := 1024 * 1024 * 1024

def maxParts : ℕ := 32 * 32

/-- The most sources of one composition. -/
def maxSources : ℕ := 32

def partSize (size : ℕ) : ℕ := max minPart (min ((size + maxParts - 1) / maxParts) maxPart)

def partRanges (size : ℕ) : List (ℕ × ℕ) := stepRanges size (partSize size)

/-- `{i:04}`. -/
def padded (i : ℕ) : List Char := List.leftpad 4 '0' (Nat.toDigits 10 i)

def partKey (key : String) (i : ℕ) : String := key ++ ".part/" ++ String.ofList (padded i)

def midKey (key : String) (g : ℕ) : String := key ++ ".part/mid" ++ String.ofList (padded g)

/-- The precondition of a write is a condition on what is there. -/
def putObject (accepts : Option Bytes → Bool) (key : String) (data : Bytes) (b : Bucket) :
    Except TransferError Unit × Bucket :=
  if accepts (b key) then (.ok (), Function.update b key (some data))
  else (.error .preconditionFailed, b)

/-- `compose` of GCS, which composes natively. -/
def composeObjects (accepts : Option Bytes → Bool) (dest : String) (sources : List String)
    (b : Bucket) : Except TransferError Unit × Bucket :=
  if sources = [] ∨ maxSources < sources.length then (.error (.invalidArgument sources.length), b)
  else
    match sources.mapM b with
    | none => (.error .notFound, b)
    | some datas => putObject accepts dest datas.flatten b

/-- The pieces that a range of a file is read in. -/
def fileStream (file : Bytes) (r : ℕ × ℕ) (chunk : ℕ) : List Bytes := slices chunk (slice file r)

def uploadPart (key : String) (file : Bytes) (b : Bucket) (i : ℕ) : Bucket :=
  Function.update b (partKey key i)
    (some (fileStream file ((partRanges file.length).getD i (0, 0)) (1024 * 1024)).flatten)

/-- The first level: an intermediate object for each group of parts. -/
def composeMids (key : String) :
    ℕ → List (List String) → Bucket → Except TransferError (List String) × Bucket
  | _, [], b => (.ok [], b)
  | g, chunk :: chunks, b =>
    match composeObjects (fun _ => true) (midKey key g) chunk b with
    | (.error e, b) => (.error e, b)
    | (.ok _, b) =>
      match composeMids key (g + 1) chunks b with
      | (.error e, b) => (.error e, b)
      | (.ok mids, b) => (.ok (midKey key g :: mids), b)

def deleteAll (keys : List String) (b : Bucket) : Bucket :=
  keys.foldl (fun b k => Function.update b k none) b

/-- The parts arrive in the given order. -/
def putFileParallel (native : Bool) (accepts : Option Bytes → Bool) (key : String) (file : Bytes)
    (order : List ℕ) (b : Bucket) : Except TransferError Unit × Bucket :=
  if !native || file.length ≤ 2 * minPart then putObject accepts key file b
  else
    let b := order.foldl (uploadPart key file) b
    let partKeys := (List.range (partRanges file.length).length).map (partKey key)
    if partKeys.length ≤ 32 then
      let res := composeObjects accepts key partKeys b
      (res.1, deleteAll partKeys res.2)
    else
      match composeMids key 0 (slices 32 partKeys) b with
      | (.error e, b) => (.error e, b)
      | (.ok mids, b) =>
        let res := composeObjects accepts key mids b
        (res.1, deleteAll (partKeys ++ mids) res.2)

end Upload

section Download

def chunk : ℕ := 32 * 1024 * 1024

def writeRange (content : Bytes) (file : Bytes) (r : ℕ × ℕ) : Except TransferError Bytes :=
  let data := slice content r
  if data.length ≠ r.2 - r.1 then .error (.shortRead r data.length)
  else .ok (writeAt file r.1 data)

/-- `download_object` of an object with this content; the ranges arrive in the given order. -/
def downloadObject (content : Bytes) (knownSize : Option ℕ) (order : List (ℕ × ℕ)) :
    Except TransferError Bytes :=
  let size := knownSize.getD content.length
  if size ≤ chunk then .ok content
  else order.foldlM (writeRange content) (List.replicate size 0)

end Download

section Keys

variable {key : String} {i j g : ℕ}

theorem padded_inj (h : padded i = padded j) : i = j := by
  have hvalue : ∀ n, Nat.ofDigitChars 10 (padded n) 0 = n := fun n => by
    rw [padded, List.leftpad, Nat.ofDigitChars_append, Nat.ofDigitChars_replicate_zero,
      Nat.mul_zero, Nat.ofDigitChars_ten_toDigits]
  rw [← hvalue i, h, hvalue]

theorem mid_not_mem_padded : 'm' ∉ padded i := by
  rw [padded, List.leftpad, List.mem_append, not_or]
  refine ⟨fun h => absurd (List.eq_of_mem_replicate h) (by decide), fun h => ?_⟩
  have hdigit := Nat.isDigit_of_mem_toDigits (by decide) (by decide) h
  cases hdigit

theorem partKey_inj (h : partKey key i = partKey key j) : i = j := by
  have hlist := congrArg String.toList h
  simp only [partKey, String.toList_append, String.toList_ofList] at hlist
  exact padded_inj (List.append_cancel_left hlist)

theorem midKey_inj (h : midKey key i = midKey key j) : i = j := by
  have hlist := congrArg String.toList h
  simp only [midKey, String.toList_append, String.toList_ofList] at hlist
  exact padded_inj (List.append_cancel_left hlist)

theorem partKey_ne_midKey : partKey key i ≠ midKey key g := by
  intro h
  have hlist := congrArg String.toList h
  simp only [partKey, midKey, String.toList_append, String.toList_ofList, List.append_assoc]
    at hlist
  have htail := List.append_cancel_left hlist
  have hmid : padded i = 'm' :: 'i' :: 'd' :: padded g :=
    @List.append_cancel_left _ ".part/".toList _ _ htail
  exact mid_not_mem_padded (hmid ▸ List.mem_cons_self)

theorem partKey_ne : partKey key i ≠ key := by
  intro h
  have hlen := congrArg (fun s => s.toList.length) h
  simp only [partKey, String.toList_append, List.length_append] at hlen
  have : ".part/".toList.length = 6 := rfl
  omega

theorem midKey_ne : midKey key g ≠ key := by
  intro h
  have hlen := congrArg (fun s => s.toList.length) h
  simp only [midKey, String.toList_append, List.length_append] at hlen
  have : ".part/mid".toList.length = 9 := rfl
  omega

end Keys

section Sizes

variable {size : ℕ}

theorem partSize_pos : 0 < partSize size := Nat.lt_of_lt_of_le (by decide) (Nat.le_max_left _ _)

theorem tiles_partRanges : Tiles 0 (partRanges size) size := tiles_stepRanges partSize_pos

theorem length_partRanges_pos (h : 0 < size) : 0 < (partRanges size).length := by
  rw [partRanges, length_stepRanges, lt_div_ceil partSize_pos, Nat.zero_mul]
  exact h

theorem length_partRanges_le : (partRanges size).length ≤ maxParts ↔ size ≤ 2 ^ 40 := by
  rw [← Nat.not_lt, partRanges, length_stepRanges, lt_div_ceil partSize_pos, Nat.not_lt]
  rw [partSize, maxParts, minPart, maxPart]
  omega

end Sizes

section Objects

variable {key k : String} {file : Bytes} {b : Bucket} {order : List ℕ} {i g : ℕ}
  {accepts : Option Bytes → Bool} {ks : List String}

def partData (file : Bytes) (i : ℕ) : Bytes := slice file ((partRanges file.length).getD i (0, 0))

theorem uploadPart_eq :
    uploadPart key file b i = Function.update b (partKey key i) (some (partData file i)) := by
  rw [uploadPart, fileStream, flatten_slices (by decide), partData]

theorem uploads_other (h : ∀ i, k ≠ partKey key i) :
    order.foldl (uploadPart key file) b k = b k := by
  induction order generalizing b with
  | nil => rfl
  | cons j order ih =>
    rw [List.foldl_cons, ih, uploadPart_eq, Function.update_of_ne (h j)]

/-- A part that has arrived is there, whatever arrives behind it. -/
theorem uploads_part (h : i ∈ order ∨ b (partKey key i) = some (partData file i)) :
    order.foldl (uploadPart key file) b (partKey key i) = some (partData file i) := by
  induction order generalizing b with
  | nil => exact h.resolve_left List.not_mem_nil
  | cons j order ih =>
    rw [List.foldl_cons]
    refine ih ?_
    rw [uploadPart_eq]
    by_cases hij : i = j
    · subst hij
      exact .inr (Function.update_self _ _ _)
    · rw [Function.update_of_ne fun heq => hij (partKey_inj heq)]
      exact h.imp_left fun hmem => (List.mem_cons.mp hmem).resolve_left hij

theorem deleteAll_other (h : k ∉ ks) : deleteAll ks b k = b k := by
  rw [deleteAll]
  induction ks generalizing b with
  | nil => rfl
  | cons j ks ih =>
    rw [List.mem_cons, not_or] at h
    rw [List.foldl_cons, ih h.2, Function.update_of_ne h.1]

theorem mapM_objects {f : String → Bytes} (h : ∀ k ∈ ks, b k = some (f k)) :
    ks.mapM b = some (ks.map f) := by
  induction ks with
  | nil => rfl
  | cons k ks ih =>
    rw [List.forall_mem_cons] at h
    rw [List.mapM_cons, h.1, ih h.2]
    rfl

theorem composeObjects_eq {f : String → Bytes} (hne : ks ≠ []) (hle : ks.length ≤ maxSources)
    (h : ∀ k ∈ ks, b k = some (f k)) : composeObjects accepts key ks b =
      putObject accepts key (ks.map f).flatten b := by
  rw [composeObjects, if_neg (not_or.mpr ⟨hne, Nat.not_lt.mpr hle⟩), mapM_objects h]

theorem composeMids_spec {f : String → Bytes} {chunks : List (List String)}
    (h : ∀ c ∈ chunks, c ≠ [] ∧ c.length ≤ maxSources ∧
      ∀ k ∈ c, b k = some (f k) ∧ ∀ g, k ≠ midKey key g) :
    ∃ b', composeMids key g chunks b =
        (.ok ((List.range' g chunks.length).map (midKey key)), b') ∧
      ((List.range' g chunks.length).map (midKey key)).mapM b' =
        some (chunks.map fun c => (c.map f).flatten) ∧
      ∀ k, (∀ j ∈ List.range' g chunks.length, k ≠ midKey key j) → b' k = b k := by
  induction chunks generalizing g b with
  | nil => exact ⟨b, rfl, rfl, fun _ _ => rfl⟩
  | cons c chunks ih =>
    rw [List.forall_mem_cons] at h
    obtain ⟨⟨hne, hle, hc⟩, hrest⟩ := h
    have hput : composeObjects (fun _ => true) (midKey key g) c b =
        (.ok (), Function.update b (midKey key g) (some (c.map f).flatten)) := by
      rw [composeObjects_eq hne hle fun k hk => (hc k hk).1]
      rfl
    obtain ⟨b', hmids, hdatas, hother⟩ := @ih
      (Function.update b (midKey key g) (some (c.map f).flatten)) (g + 1) fun c' hc' =>
        ⟨(hrest c' hc').1, (hrest c' hc').2.1, fun k hk => by
          obtain ⟨hbk, hmid⟩ := (hrest c' hc').2.2 k hk
          rw [Function.update_of_ne (hmid g)]
          exact ⟨hbk, hmid⟩⟩
    have hfirst : b' (midKey key g) = some (c.map f).flatten := by
      rw [hother _ fun j hj heq => ?_, Function.update_self]
      have hlt := (List.mem_range'_1.mp hj).1
      have heq := midKey_inj heq
      omega
    rw [List.length_cons, List.range'_succ]
    refine ⟨b', ?_, ?_, fun k hk => ?_⟩
    · rw [composeMids, hput]
      dsimp only
      rw [hmids]
      rfl
    · rw [List.map_cons, List.mapM_cons, hfirst, hdatas]
      rfl
    · rw [List.forall_mem_cons] at hk
      rw [hother k hk.2, Function.update_of_ne hk.1]

end Objects

section Striped

variable {native : Bool} {accepts : Option Bytes → Bool} {key : String} {file : Bytes}
  {order : List ℕ} {b : Bucket}

theorem flatten_partData :
    ((List.range (partRanges file.length).length).map (partData file)).flatten = file := by
  have hmap : (List.range (partRanges file.length).length).map (partData file) =
      (partRanges file.length).map (slice file) := by
    refine List.ext_getElem (by simp) fun i hi _ => ?_
    rw [List.length_map, List.length_range] at hi
    rw [List.getElem_map, List.getElem_map, List.getElem_range, partData,
      List.getD_eq_getElem _ _ hi]
  rw [hmap, ← List.flatMap_def, tiles_partRanges.flatMap_slice_all]

def partKeys (key : String) (file : Bytes) : List String :=
  (List.range (partRanges file.length).length).map (partKey key)

theorem uploads_partKeys (horder : order.Perm (List.range (partRanges file.length).length)) :
    ∃ f : String → Bytes, (∀ k ∈ partKeys key file,
      order.foldl (uploadPart key file) b k = some (f k)) ∧
        ((partKeys key file).map f).flatten = file := by
  refine ⟨fun k => (order.foldl (uploadPart key file) b k).getD [], fun k hk => ?_, ?_⟩
  · obtain ⟨i, hi, rfl⟩ := List.mem_map.mp hk
    dsimp only
    rw [uploads_part (.inl (horder.mem_iff.mpr hi)), Option.getD_some]
  · rw [partKeys, List.map_map]
    conv_rhs => rw [← @flatten_partData file]
    refine congrArg _ (List.map_congr_left fun i hi => ?_)
    rw [Function.comp_apply, uploads_part (.inl (horder.mem_iff.mpr hi)), Option.getD_some]

theorem key_not_mem_partKeys : key ∉ partKeys key file := fun hmem => by
  obtain ⟨i, -, hi⟩ := List.mem_map.mp hmem
  exact partKey_ne hi

theorem putFileParallel_single (h : native = false ∨ file.length ≤ 2 * minPart) :
    putFileParallel native accepts key file order b = putObject accepts key file b := by
  rw [putFileParallel, if_pos]
  rw [Bool.or_eq_true, Bool.not_eq_true', decide_eq_true_iff]
  exact h

theorem length_partKeys : (partKeys key file).length = (partRanges file.length).length := by
  rw [partKeys, List.length_map, List.length_range]

theorem putFileParallel_one (h : ¬ (native = false ∨ file.length ≤ 2 * minPart))
    (hle : (partRanges file.length).length ≤ maxSources)
    (horder : order.Perm (List.range (partRanges file.length).length)) :
    ∃ b', b' key = b key ∧ putFileParallel native accepts key file order b =
      ((putObject accepts key file b').1,
        deleteAll (partKeys key file) (putObject accepts key file b').2) := by
  obtain ⟨f, hf, hfile⟩ := @uploads_partKeys key file order b horder
  rw [← @length_partKeys key] at hle
  refine ⟨order.foldl (uploadPart key file) b, uploads_other fun i => partKey_ne.symm, ?_⟩
  have hne : partKeys key file ≠ [] := by
    rw [← List.length_pos_iff, length_partKeys]
    exact length_partRanges_pos (by omega)
  have hcompose : composeObjects accepts key (partKeys key file)
      (order.foldl (uploadPart key file) b) =
        putObject accepts key file (order.foldl (uploadPart key file) b) := by
    rw [composeObjects_eq hne hle hf, hfile]
  rw [putFileParallel, if_neg (by
    rwa [Bool.or_eq_true, Bool.not_eq_true', decide_eq_true_iff])]
  dsimp only
  have hone : (partKeys key file).length ≤ 32 := hle
  rw [← partKeys, if_pos hone, hcompose]

/-- The groups of parts that the first level composes. -/
def groups (key : String) (file : Bytes) : List (List String) :=
  slices maxSources (partKeys key file)

def midKeys (key : String) (file : Bytes) : List String :=
  (List.range' 0 (groups key file).length).map (midKey key)

theorem length_midKeys : (midKeys key file).length =
    ((partRanges file.length).length + maxSources - 1) / maxSources := by
  rw [midKeys, List.length_map, List.length_range', groups, length_slices (by decide),
    length_partKeys]

theorem flatten_groups : (groups key file).flatten = partKeys key file :=
  flatten_slices (by decide)

theorem key_not_mem_midKeys : key ∉ midKeys key file := fun hmem => by
  obtain ⟨g, -, hg⟩ := List.mem_map.mp hmem
  exact midKey_ne hg

theorem composeMids_groups {f : String → Bytes} (hf : ∀ k ∈ partKeys key file, b k = some (f k)) :
    ∃ b', composeMids key 0 (groups key file) b = (.ok (midKeys key file), b') ∧
      (midKeys key file).mapM b' = some ((groups key file).map fun c => (c.map f).flatten) ∧
      b' key = b key := by
  have hgroups : ∀ c ∈ groups key file, c ≠ [] ∧ c.length ≤ maxSources ∧
      ∀ k ∈ c, b k = some (f k) ∧ ∀ g, k ≠ midKey key g := by
    intro c hc
    obtain ⟨hne, hle⟩ := length_le_of_mem_slices hc
    refine ⟨hne, hle, fun k hk => ?_⟩
    have hmem : k ∈ partKeys key file := by
      rw [← flatten_groups]
      exact List.mem_flatten_of_mem hc hk
    refine ⟨hf k hmem, fun g heq => ?_⟩
    obtain ⟨i, -, rfl⟩ := List.mem_map.mp hmem
    exact partKey_ne_midKey heq
  obtain ⟨b', hmids, hdatas, hother⟩ := @composeMids_spec key b 0 f _ hgroups
  exact ⟨b', hmids, hdatas, hother key fun j _ => midKey_ne.symm⟩

theorem flatten_map_groups {f : String → Bytes} :
    ((groups key file).map fun c => (c.map f).flatten).flatten =
      ((partKeys key file).map f).flatten := by
  rw [← flatten_groups, List.map_flatten, List.flatten_flatten, List.map_map]
  rfl

theorem composeObjects_midKeys {datas : List Bytes} {b' : Bucket}
    (hlt : maxSources < (partRanges file.length).length)
    (hdatas : (midKeys key file).mapM b' = some datas) (hfile : datas.flatten = file) :
    composeObjects accepts key (midKeys key file) b' =
      if file.length ≤ 2 ^ 40 then putObject accepts key file b'
      else (.error (.invalidArgument
        (((partRanges file.length).length + maxSources - 1) / maxSources)), b') := by
  have hsize := @length_partRanges_le file.length
  have hlen := @length_midKeys key file
  rw [maxSources] at hlt
  rw [maxSources] at hlen ⊢
  rw [maxParts] at hsize
  split_ifs with hle
  · have hn := hsize.mpr hle
    rw [composeObjects, hdatas, if_neg]
    · exact congrArg (putObject accepts key · b') hfile
    · rw [← List.length_eq_zero_iff, hlen, maxSources]
      omega
  · have hn := mt hsize.mp hle
    rw [composeObjects, hlen, if_pos (.inr (by rw [maxSources]; omega))]

theorem putFileParallel_two (h : ¬ (native = false ∨ file.length ≤ 2 * minPart))
    (hlt : maxSources < (partRanges file.length).length)
    (horder : order.Perm (List.range (partRanges file.length).length)) :
    ∃ b' keys, b' key = b key ∧ key ∉ keys ∧ putFileParallel native accepts key file order b =
      if file.length ≤ 2 ^ 40 then
        ((putObject accepts key file b').1, deleteAll keys (putObject accepts key file b').2)
      else (.error (.invalidArgument
        (((partRanges file.length).length + maxSources - 1) / maxSources)), deleteAll keys b') := by
  obtain ⟨f, hf, hfile⟩ := @uploads_partKeys key file order b horder
  obtain ⟨b', hmids, hdatas, hkey⟩ := composeMids_groups hf
  have hcompose := @composeObjects_midKeys accepts key file _ b' hlt hdatas
    (flatten_map_groups.trans hfile)
  refine ⟨b', partKeys key file ++ midKeys key file,
    hkey.trans (uploads_other fun i => partKey_ne.symm), ?_, ?_⟩
  · rw [List.mem_append, not_or]
    exact ⟨key_not_mem_partKeys, key_not_mem_midKeys⟩
  rw [putFileParallel, if_neg (by
    rwa [Bool.or_eq_true, Bool.not_eq_true', decide_eq_true_iff])]
  dsimp only
  have hmore : ¬ (partKeys key file).length ≤ 32 := by
    rw [length_partKeys]
    exact Nat.not_le.mpr hlt
  rw [← partKeys, if_neg hmore]
  change (match composeMids key 0 (groups key file) _ with
    | (.error e, b) => _
    | (.ok mids, b) => _) = _
  rw [hmids]
  dsimp only
  rw [hcompose]
  split_ifs <;> rfl

theorem putObject_ok {b' : Bucket} (hkey : b' key = b key) (h : accepts (b key) = true) :
    putObject accepts key file b' = (.ok (), Function.update b' key (some file)) := by
  rw [putObject, hkey, if_pos h]

theorem putFileParallel_iff (h : accepts (b key) = true)
    (horder : order.Perm (List.range (partRanges file.length).length)) :
    ((putFileParallel native accepts key file order b).1 = .ok () ∧
      (putFileParallel native accepts key file order b).2 key = some file) ↔
        native = false ∨ file.length ≤ 2 ^ 40 := by
  have hput : ∀ {b' : Bucket} {keys : List String}, b' key = b key → key ∉ keys →
      deleteAll keys (Function.update b' key (some file)) key = some file := by
    intro b' keys _ hkeys
    rw [deleteAll_other hkeys, Function.update_self]
  by_cases hsingle : native = false ∨ file.length ≤ 2 * minPart
  · rw [putFileParallel_single hsingle, putObject_ok rfl h]
    refine iff_of_true ⟨rfl, Function.update_self _ _ _⟩ (hsingle.imp_right fun hle => ?_)
    exact hle.trans (by decide)
  have hnative : ¬ native = false := fun h => hsingle (.inl h)
  by_cases hone : (partRanges file.length).length ≤ maxSources
  · obtain ⟨b', hkey, hres⟩ :=
      @putFileParallel_one native accepts key file order b hsingle hone horder
    rw [hres, putObject_ok hkey h]
    refine iff_of_true ⟨rfl, hput hkey key_not_mem_partKeys⟩ (.inr ?_)
    exact length_partRanges_le.mp (hone.trans (by decide))
  · obtain ⟨b', keys, hkey, hkeys, hres⟩ :=
      @putFileParallel_two native accepts key file order b hsingle (Nat.not_le.mp hone) horder
    rw [hres]
    split_ifs with hle
    · rw [putObject_ok hkey h]
      exact iff_of_true ⟨rfl, hput hkey hkeys⟩ (.inr hle)
    · refine iff_of_false (fun hok => ?_) (not_or.mpr ⟨hnative, hle⟩)
      cases hok.1

end Striped

section Claim

variable {content : Bytes} {order : List (ℕ × ℕ)}

theorem foldlM_writeRange {rs : List (ℕ × ℕ)} {file : Bytes}
    (h : ∀ r ∈ rs, r.2 ≤ content.length) :
    rs.foldlM (writeRange content) file = .ok (writeSlices content rs file) := by
  induction rs generalizing file with
  | nil => rfl
  | cons r rs ih =>
    rw [List.forall_mem_cons] at h
    have hwrite : writeRange content file r = .ok (writeAt file r.1 (slice content r)) := by
      rw [writeRange]
      exact if_neg (not_not.mpr (length_slice h.1))
    rw [List.foldlM_cons, hwrite]
    exact ih h.2

/-- The ranges give the object, in whatever order they arrive. -/
theorem downloadObject_eq {knownSize : Option ℕ} (hsize : ∀ n ∈ knownSize, n = content.length)
    (horder : order.Perm (stepRanges content.length chunk)) :
    downloadObject content knownSize order = .ok content := by
  have hknown : knownSize.getD content.length = content.length := by
    cases knownSize with
    | none => rfl
    | some n => exact hsize n rfl
  have htiles : Tiles 0 (stepRanges content.length chunk) content.length :=
    tiles_stepRanges (by decide)
  rw [downloadObject, hknown]
  split_ifs
  · rfl
  · rw [foldlM_writeRange fun r hr => (htiles.of_mem (horder.mem_iff.mp hr)).2.2,
      htiles.writeSlices_eq horder List.length_replicate]

/-- Parts and ranges tile the object; what comes down is the object, and what goes up is the file
unless the store composes it from more than two levels of 32 parts. -/
theorem transfer_tiles (native : Bool) (accepts : Option Bytes → Bool) (key : String)
    (file : Bytes) (b : Bucket) :
    (∀ size, Tiles 0 (partRanges size) size ∧ Tiles 0 (stepRanges size chunk) size) ∧
    (∀ knownSize order, (∀ n ∈ knownSize, n = file.length) →
      order.Perm (stepRanges file.length chunk) →
        downloadObject file knownSize order = .ok file) ∧
    (accepts (b key) = true → ∀ order : List ℕ,
      order.Perm (List.range (partRanges file.length).length) →
        (((putFileParallel native accepts key file order b).1 = .ok () ∧
          (putFileParallel native accepts key file order b).2 key = some file) ↔
            native = false ∨ file.length ≤ 2 ^ 40)) :=
  ⟨fun _ => ⟨tiles_partRanges, tiles_stepRanges (by decide)⟩, fun _ _ => downloadObject_eq,
    fun h _ => putFileParallel_iff h⟩

/-- A file of more than a tebibyte is refused. -/
theorem large_file_refused :
    ¬ ((putFileParallel true (fun _ => true) "pack" (List.replicate (2 ^ 40 + 1) 0)
        (List.range (partRanges (List.replicate (2 ^ 40 + 1) (0 : UInt8)).length).length)
          (fun _ => none)).1 = .ok () ∧
      (putFileParallel true (fun _ => true) "pack" (List.replicate (2 ^ 40 + 1) 0)
        (List.range (partRanges (List.replicate (2 ^ 40 + 1) (0 : UInt8)).length).length)
          (fun _ => none)).2 "pack" = some (List.replicate (2 ^ 40 + 1) 0)) := by
  rw [putFileParallel_iff rfl (.refl _), List.length_replicate, not_or]
  exact ⟨by decide, by decide⟩

end Claim

end Walgit.Transfer
