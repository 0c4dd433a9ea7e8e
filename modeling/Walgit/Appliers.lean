import Walgit.Lib.SortedTable
import Walgit.Proto
import Mathlib.Data.List.Induction
import Mathlib.Data.String.Basic

/-!
# The appliers of ref transactions

Six functions interpret a ref transaction: `apply_ref_txn` (through
`git update-ref` and the `HEAD` file), the overlay of `ref_view`, its
materialisation by `patch_snapshot`, `apply_ref_txns_offline`,
`apply_txn_to_map` of the publisher and `replay_refs` of the log reader. They
agree on a sequence that never names `HEAD` exactly when the last update of
each ref carries the peeled value that reading the repository would give, and
an object id in lower case. An update of `HEAD` separates them: the publisher's
map stores the symbolic target as a ref value, and `git` follows `HEAD` where
the maps write a ref of that name.
-/

namespace Walgit.Appliers

open SortedTable

/-- A ref update with the peeled value it carries. -/
structure PeeledUpdate extends RefUpdate where
  newPeeled : String
  deriving DecidableEq, Repr

structure Ref where
  name : String
  oid : String
  peeled : String
  deriving DecidableEq, Repr

/-- `RefSnapshotData`, sorted by name. The same type stands for the files of a repository:
there `peeled` is the peel line of `packed-refs`, empty for a loose ref, and an empty
`headTarget` is a `HEAD` that is not symbolic. -/
@[ext]
structure RefTable where
  refs : List Ref
  sorted : Sorted Ref.name refs
  headTarget : String

def RefTable.find (t : RefTable) (name : String) : Option Ref := lookup Ref.name name t.refs

def RefTable.insert (t : RefTable) (r : Ref) : RefTable :=
  ⟨put Ref.name r t.refs, t.sorted.put, t.headTarget⟩

def RefTable.remove (t : RefTable) (name : String) : RefTable :=
  ⟨delete Ref.name name t.refs, t.sorted.delete, t.headTarget⟩

def RefTable.setHead (t : RefTable) (target : String) : RefTable :=
  ⟨t.refs, t.sorted, target⟩

inductive GitObject
  | tag (target : String)
  | other
  deriving DecidableEq, Repr

abbrev Odb := String → Option GitObject

def lowerHex (oid : String) : String := String.ofList (oid.toList.map Char.toLower)

def fromHex (oid : String) : Option String :=
  if (oid.toList.length = 40 ∨ oid.toList.length = 64) ∧ oid.toList.all isHexDigit then
    some (lowerHex oid)
  else none

def peelFrom (odb : Odb) : ℕ → String → Option String
  | 0, _ => none
  | n + 1, cur =>
    match odb cur with
    | none => none
    | some (.tag target) => peelFrom odb n target
    | some .other => some cur

/-- `peel_tag`: at most sixteen objects; an object that is no tag peels to itself. -/
def peelTag (odb : Odb) (oid : String) : Option String := (fromHex oid).bind (peelFrom odb 16)

def isTag (name : String) : Bool := "refs/tags/".toList.isPrefixOf name.toList

/-- The peeled value a reader of the repository computes for a ref. -/
def peelOf (odb : Odb) (name oid : String) : String :=
  if isTag name then (peelTag odb oid).getD "" else ""

def peelRef (odb : Odb) (r : Ref) : Ref :=
  if r.peeled = "" then { r with peeled := peelOf odb r.name r.oid } else r

@[simp] theorem peelRef_name {odb : Odb} (r : Ref) : (peelRef odb r).name = r.name := by
  unfold peelRef
  split_ifs <;> rfl

@[simp] theorem peelRef_oid {odb : Odb} (r : Ref) : (peelRef odb r).oid = r.oid := by
  unfold peelRef
  split_ifs <;> rfl

/-- `read_refs`. -/
def readRefs (odb : Odb) (files : RefTable) : RefTable :=
  ⟨files.refs.map (peelRef odb), files.sorted.map peelRef_name, files.headTarget⟩

/-! ## The appliers -/

/-- One update merged into an ordered map; `entry` is the ref it writes. -/
def mergeUpdate (entry : PeeledUpdate → Ref) (t : RefTable) (u : PeeledUpdate) : RefTable :=
  if u.isSymbolic then
    if u.name = "HEAD" then t.setHead u.newSymbolicTarget else t
  else if isNullOid u.newOid then t.remove u.name
  else t.insert (entry u)

def peeledEntry (odb : Odb) (u : PeeledUpdate) : Ref :=
  ⟨u.name, u.newOid, if u.newPeeled = "" then peelOf odb u.name u.newOid else u.newPeeled⟩

def rawEntry (u : PeeledUpdate) : Ref := ⟨u.name, u.newOid, u.newPeeled⟩

/-- One update of `patch_snapshot`: the sorted vector changed at the index of a search. -/
def patchUpdate (odb : Odb) (t : RefTable) (u : PeeledUpdate) : RefTable :=
  if u.isSymbolic then
    if u.name = "HEAD" then t.setHead u.newSymbolicTarget else t
  else if isNullOid u.newOid then
    ⟨removeFound Ref.name u.name t.refs, t.sorted.removeFound, t.headTarget⟩
  else ⟨writeFound Ref.name (peeledEntry odb u) t.refs, t.sorted.writeFound, t.headTarget⟩

def patchSnapshot (odb : Odb) (base : RefTable) (txns : List (List PeeledUpdate)) : RefTable :=
  txns.flatten.foldl (patchUpdate odb) base

/-- `load_ref_snapshot`: an empty target leaves the `HEAD` file as it is. -/
def loadRefSnapshot (files snap : RefTable) : RefTable :=
  if snap.headTarget = "" then snap.setHead files.headTarget else snap

def applyRefTxnsOffline (odb : Odb) (files : RefTable) (txns : List (List PeeledUpdate)) :
    Option RefTable :=
  if txns.flatten.all fun u => validateRefUpdate u.toRefUpdate then
    some (loadRefSnapshot files
      (txns.flatten.foldl (mergeUpdate (peeledEntry odb)) (readRefs odb files)))
  else none

/-- `replay_refs` from the snapshot `base`, over entries with these transactions. -/
def replayRefs (base : RefTable) (txns : List (List PeeledUpdate)) : RefTable :=
  txns.flatten.foldl (mergeUpdate rawEntry) base

/-- The ref that an `update-ref` command changes, with `HEAD` at `head`. A `HEAD` that is not
symbolic is written itself and is no ref. -/
def gitTarget (head name : String) : Option String :=
  if name = "HEAD" then if head = "" then none else some head else some name

/-- One `update` or `delete` command; `git` writes a loose ref, in lower case. -/
def gitCommand (head : String) (t : RefTable) (u : PeeledUpdate) : RefTable :=
  match gitTarget head u.name with
  | none => t
  | some name =>
    if isNullOid u.newOid then t.remove name else t.insert ⟨name, lowerHex u.newOid, ""⟩

/-- `apply_ref_txn`. What the old-value check and `git` refuse is `accepts`; it decides whether
the transaction applies, never what it writes. -/
def applyRefTxn (accepts : RefTable → List PeeledUpdate → Bool) (files : RefTable)
    (txn : List PeeledUpdate) : Option RefTable :=
  if (txn.all fun u => validateRefUpdate u.toRefUpdate) && accepts files txn then
    let written := (txn.filter fun u => !u.isSymbolic).foldl (gitCommand files.headTarget) files
    some ((txn.filter fun u => u.isSymbolic).foldl
      (fun t u => t.setHead u.newSymbolicTarget) written)
  else none

def applyRefTxns (accepts : RefTable → List PeeledUpdate → Bool) (files : RefTable) :
    List (List PeeledUpdate) → Option RefTable
  | [] => some files
  | txn :: txns => (applyRefTxn accepts files txn).bind fun files => applyRefTxns accepts files txns

/-- Point lookups: a snapshot and the values written over it. -/
structure RefView where
  base : RefTable
  overlay : List (String × Option String)
  overHead : Option String

def RefView.new (base : RefTable) : RefView := ⟨base, [], none⟩

def RefView.headTarget (v : RefView) : String := v.overHead.getD v.base.headTarget

def RefView.plain (v : RefView) (name : String) : Option String :=
  (v.overlay.lookup name).getD ((v.base.find name).map Ref.oid)

/-- `None` when the call does not return: a `HEAD` that names itself recurses without end. -/
def RefView.get (v : RefView) (name : String) : Option (Option String) :=
  match v.overlay.lookup name with
  | some x => some x
  | none =>
    if name = "HEAD" then
      if v.headTarget = "" then some none
      else if v.headTarget = "HEAD" then none
      else some (v.plain v.headTarget)
    else some (v.plain name)

def RefView.set (v : RefView) (name : String) (value : Option String) : RefView :=
  { v with overlay := (name, value) :: v.overlay }

def PeeledUpdate.value (u : PeeledUpdate) : Option String :=
  if isNullOid u.newOid then none else some u.newOid

def viewUpdate (v : RefView) (u : PeeledUpdate) : RefView :=
  if u.isSymbolic then
    if u.name = "HEAD" then { v with overHead := some u.newSymbolicTarget } else v
  else v.set u.name u.value

/-- `ref_view`: the cached snapshot with the pending transactions over it. -/
def refView (base : RefTable) (txns : List (List PeeledUpdate)) : RefView :=
  txns.flatten.foldl viewUpdate (.new base)

/-- The publisher's map sets a symbolic target as the value of the name. -/
def mapUpdate (v : RefView) (u : PeeledUpdate) : RefView :=
  if u.isSymbolic then v.set u.name (some u.newSymbolicTarget) else v.set u.name u.value

def applyTxnToMap (txn : List PeeledUpdate) (v : RefView) : RefView := txn.foldl mapUpdate v

def applyTxnsToMap (base : RefTable) (txns : List (List PeeledUpdate)) : RefView :=
  txns.foldl (fun v txn => applyTxnToMap txn v) (.new base)

/-! ## What the appliers leave under a name -/

@[simp] theorem find_insert {t : RefTable} {r : Ref} {name : String} :
    (t.insert r).find name = if r.name = name then some r else t.find name :=
  lookup_put

@[simp] theorem find_remove {t : RefTable} {gone name : String} :
    (t.remove gone).find name = if gone = name then none else t.find name :=
  lookup_delete

@[simp] theorem find_setHead {t : RefTable} {target name : String} :
    (t.setHead target).find name = t.find name := rfl

@[simp] theorem readRefs_head {odb : Odb} {t : RefTable} :
    (readRefs odb t).headTarget = t.headTarget := rfl

@[simp] theorem find_readRefs {odb : Odb} {t : RefTable} {name : String} :
    (readRefs odb t).find name = (t.find name).map (peelRef odb) :=
  lookup_map peelRef_name

theorem RefTable.ext_find {t t' : RefTable} (h : ∀ name, t.find name = t'.find name)
    (hh : t.headTarget = t'.headTarget) : t = t' :=
  RefTable.ext (t.sorted.ext t'.sorted h) hh

/-- The last update of a sequence that writes an object under `name`. -/
def lastUpdate (us : List PeeledUpdate) (name : String) : Option PeeledUpdate :=
  (us.filter fun u => !u.isSymbolic && u.name == name).getLast?

/-- The last symbolic update of `HEAD`. -/
def lastTarget (us : List PeeledUpdate) : Option String :=
  ((us.filter fun u => u.isSymbolic && u.name == "HEAD").map fun u => u.newSymbolicTarget).getLast?

theorem lastUpdate_concat {us : List PeeledUpdate} {u : PeeledUpdate} {name : String} :
    lastUpdate (us ++ [u]) name =
      if !u.isSymbolic && u.name == name then some u else lastUpdate us name := by
  rw [lastUpdate, List.filter_append, List.filter_cons, List.filter_nil]
  split_ifs
  · rw [List.getLast?_concat]
  · rw [List.append_nil, lastUpdate]

theorem lastTarget_concat {us : List PeeledUpdate} {u : PeeledUpdate} :
    lastTarget (us ++ [u]) =
      if u.isSymbolic && u.name == "HEAD" then some u.newSymbolicTarget else lastTarget us := by
  rw [lastTarget, List.filter_append, List.filter_cons, List.filter_nil]
  split_ifs
  · rw [List.map_append, List.map_singleton, List.getLast?_concat]
  · rw [List.append_nil, lastTarget]

theorem lastUpdate_name {us : List PeeledUpdate} {u : PeeledUpdate} {name : String}
    (h : lastUpdate us name = some u) : u.name = name ∧ u.isSymbolic = false := by
  have hm := List.mem_of_getLast? h
  have := (List.mem_filter.mp hm).2
  simp only [Bool.and_eq_true, Bool.not_eq_true', beq_iff_eq] at this
  exact ⟨this.2, this.1⟩

theorem lastTarget_ne_empty {us : List PeeledUpdate} {target : String}
    (h : lastTarget us = some target) : target ≠ "" := by
  obtain ⟨u, hu, rfl⟩ := List.mem_map.mp (List.mem_of_getLast? h)
  have := (List.mem_filter.mp hu).2
  simp only [RefUpdate.isSymbolic, Bool.and_eq_true, bne_iff_ne] at this
  exact this.1

/-- What an update leaves under its name when `entry` is the ref it writes. -/
def PeeledUpdate.leaves (u : PeeledUpdate) (entry : PeeledUpdate → Ref) : Option Ref :=
  if isNullOid u.newOid then none else some (entry u)

theorem merge_spec {entry : PeeledUpdate → Ref} (he : ∀ u, (entry u).name = u.name)
    (t : RefTable) (us : List PeeledUpdate) :
    (∀ name, (us.foldl (mergeUpdate entry) t).find name =
      (lastUpdate us name).elim (t.find name) fun u => u.leaves entry) ∧
    (us.foldl (mergeUpdate entry) t).headTarget = (lastTarget us).getD t.headTarget := by
  induction us using List.reverseRecOn with
  | nil => exact ⟨fun name => rfl, rfl⟩
  | append_singleton us u ih =>
    obtain ⟨ihf, ihh⟩ := ih
    rw [List.foldl_append, List.foldl_cons, List.foldl_nil, mergeUpdate]
    refine ⟨fun name => ?_, ?_⟩
    · rw [lastUpdate_concat]
      by_cases hs : u.isSymbolic
      · simp only [hs, if_true, Bool.not_true, Bool.false_and, Bool.false_eq_true, if_false]
        split_ifs
        · rw [find_setHead, ihf]
        · exact ihf name
      · by_cases hz : isNullOid u.newOid <;>
          by_cases hn : u.name = name <;>
          simp [hs, hz, hn, he, ihf, PeeledUpdate.leaves]
    · rw [lastTarget_concat]
      by_cases hs : u.isSymbolic
      · by_cases hn : u.name = "HEAD"
        · simp [hs, hn, RefTable.setHead]
        · simp [hs, hn, ihh]
      · simp only [hs, Bool.false_eq_true, if_false, Bool.false_and]
        split_ifs <;> exact ihh

theorem patchUpdate_eq {odb : Odb} : patchUpdate odb = mergeUpdate (peeledEntry odb) := by
  funext t u
  unfold patchUpdate mergeUpdate
  split_ifs
  · rfl
  · rfl
  · exact RefTable.ext t.sorted.removeFound_eq rfl
  · exact RefTable.ext writeFound_eq rfl

theorem patchSnapshot_eq {odb : Odb} {base : RefTable} {txns : List (List PeeledUpdate)} :
    patchSnapshot odb base txns = txns.flatten.foldl (mergeUpdate (peeledEntry odb)) base := by
  rw [patchSnapshot, patchUpdate_eq]

theorem peelRef_peelRef {odb : Odb} (r : Ref) : peelRef odb (peelRef odb r) = peelRef odb r := by
  by_cases hp : r.peeled = ""
  · by_cases hq : peelOf odb r.name r.oid = ""
    · simp [peelRef, hp, hq]
    · simp [peelRef, hp, hq]
  · simp [peelRef, hp]

theorem peelRef_peeledEntry {odb : Odb} (u : PeeledUpdate) :
    peelRef odb (peeledEntry odb u) = peeledEntry odb u := by
  by_cases hp : u.newPeeled = ""
  · by_cases hq : peelOf odb u.name u.newOid = ""
    · simp [peelRef, peeledEntry, hp, hq]
    · simp [peelRef, peeledEntry, hp, hq]
  · simp [peelRef, peeledEntry, hp]

theorem peeledEntry_name (odb : Odb) (u : PeeledUpdate) : (peeledEntry odb u).name = u.name := rfl

theorem rawEntry_name (u : PeeledUpdate) : (rawEntry u).name = u.name := rfl

theorem find_loadRefSnapshot {files snap : RefTable} {name : String} :
    (loadRefSnapshot files snap).find name = snap.find name := by
  unfold loadRefSnapshot
  split_ifs <;> rfl

theorem loadRefSnapshot_refs {files snap : RefTable} :
    (loadRefSnapshot files snap).refs = snap.refs := by
  unfold loadRefSnapshot
  split_ifs <;> rfl

theorem loadRefSnapshot_head {files snap : RefTable} :
    (loadRefSnapshot files snap).headTarget =
      if snap.headTarget = "" then files.headTarget else snap.headTarget := by
  unfold loadRefSnapshot
  split_ifs <;> rfl

/-- The offline apply, read back, is the patched snapshot, whatever the transactions. -/
theorem offline_eq_patch {odb : Odb} {files offline : RefTable} {txns : List (List PeeledUpdate)}
    (h : applyRefTxnsOffline odb files txns = some offline) :
    readRefs odb offline = patchSnapshot odb (readRefs odb files) txns := by
  unfold applyRefTxnsOffline at h
  split_ifs at h
  obtain rfl := Option.some.inj h
  rw [patchSnapshot_eq]
  obtain ⟨hf, hh⟩ := merge_spec (peeledEntry_name odb) (readRefs odb files) txns.flatten
  refine RefTable.ext_find (fun name => ?_) ?_
  · rw [find_readRefs, find_loadRefSnapshot, hf]
    cases hu : lastUpdate txns.flatten name with
    | none =>
      rw [Option.elim_none, find_readRefs, Option.map_map]
      exact congrArg (Option.map · _) (funext peelRef_peelRef)
    | some u =>
      rw [Option.elim_some, PeeledUpdate.leaves]
      split_ifs
      · rfl
      · rw [Option.map_some, peelRef_peeledEntry]
  · rw [readRefs_head, loadRefSnapshot_head]
    split_ifs with he
    · -- no update set an empty target: this one is the file's own
      rw [he]
      rw [hh] at he
      cases hl : lastTarget txns.flatten with
      | none => simpa [hl] using he
      | some target => exact absurd (by simpa [hl] using he) (lastTarget_ne_empty hl)
    · rfl

/-- Two tables that leave the same updates over one base are equal exactly when the last update
of each name leaves the same ref in both. -/
theorem tables_eq_iff {t t' : RefTable} {us : List PeeledUpdate} {base : String → Option Ref}
    {entry entry' : PeeledUpdate → Ref}
    (h : ∀ name, t.find name = (lastUpdate us name).elim (base name) fun u => u.leaves entry)
    (h' : ∀ name, t'.find name = (lastUpdate us name).elim (base name) fun u => u.leaves entry')
    (hh : t.headTarget = t'.headTarget) :
    t = t' ↔ ∀ name u, lastUpdate us name = some u → isNullOid u.newOid ∨ entry u = entry' u := by
  constructor
  · rintro rfl name u hu
    have he := (h name).symm.trans (h' name)
    rw [hu, Option.elim_some, Option.elim_some, PeeledUpdate.leaves, PeeledUpdate.leaves] at he
    by_cases hz : isNullOid u.newOid
    · exact .inl hz
    · rw [if_neg hz, if_neg hz] at he
      exact .inr (Option.some.inj he)
  · intro hu
    refine RefTable.ext_find (fun name => ?_) hh
    rw [h, h']
    cases hl : lastUpdate us name with
    | none => rfl
    | some u =>
      obtain hz | he := hu name u hl
      · simp [PeeledUpdate.leaves, hz]
      · simp [PeeledUpdate.leaves, he]

/-! ## Sequences that do not name `HEAD` -/

theorem not_symbolic {u : PeeledUpdate} (hv : validateRefUpdate u.toRefUpdate = true)
    (hn : u.name ≠ "HEAD") : u.isSymbolic = false := by
  by_contra hs
  rw [Bool.not_eq_false] at hs
  simp [validateRefUpdate, hs, hn] at hv

/-- What `git` writes for an update, before a reader peels it. -/
def gitEntry (u : PeeledUpdate) : Ref := ⟨u.name, lowerHex u.newOid, ""⟩

theorem gitEntry_name (u : PeeledUpdate) : (gitEntry u).name = u.name := rfl

theorem gitCommand_eq {head : String} {t : RefTable} {u : PeeledUpdate} (hs : u.isSymbolic = false)
    (hn : u.name ≠ "HEAD") : gitCommand head t u = mergeUpdate gitEntry t u := by
  simp only [gitCommand, gitTarget, if_neg hn, mergeUpdate, hs, Bool.false_eq_true, if_false]
  rfl

theorem applyRefTxn_eq {accepts : RefTable → List PeeledUpdate → Bool} {files files' : RefTable}
    {txn : List PeeledUpdate} (h : applyRefTxn accepts files txn = some files')
    (hn : ∀ u ∈ txn, u.name ≠ "HEAD") :
    (∀ u ∈ txn, u.isSymbolic = false) ∧ files' = txn.foldl (mergeUpdate gitEntry) files := by
  unfold applyRefTxn at h
  split_ifs at h with hok
  simp only [Bool.and_eq_true, List.all_eq_true] at hok
  have hs : ∀ u ∈ txn, u.isSymbolic = false := fun u hu => not_symbolic (hok.1 u hu) (hn u hu)
  have hall : (txn.filter fun u => !u.isSymbolic) = txn :=
    List.filter_eq_self.mpr fun u hu => by simp [hs u hu]
  have hnone : (txn.filter fun u => u.isSymbolic) = [] :=
    List.filter_eq_nil_iff.mpr fun u hu => by simp [hs u hu]
  rw [hall, hnone] at h
  refine ⟨hs, (Option.some.inj h).symm.trans ?_⟩
  exact List.foldl_ext _ _ _ fun t u hu => gitCommand_eq (hs u hu) (hn u hu)

theorem applyRefTxns_eq {accepts : RefTable → List PeeledUpdate → Bool} {files files' : RefTable}
    {txns : List (List PeeledUpdate)} (h : applyRefTxns accepts files txns = some files')
    (hn : ∀ u ∈ txns.flatten, u.name ≠ "HEAD") :
    (∀ u ∈ txns.flatten, u.isSymbolic = false) ∧
      files' = txns.flatten.foldl (mergeUpdate gitEntry) files := by
  induction txns generalizing files with
  | nil => exact ⟨by simp, (Option.some.inj h).symm⟩
  | cons txn txns ih =>
    obtain ⟨mid, hmid, hrest⟩ := Option.bind_eq_some_iff.mp h
    rw [List.flatten_cons] at hn ⊢
    obtain ⟨hs, rfl⟩ := applyRefTxn_eq hmid fun u hu => hn u (List.mem_append_left _ hu)
    obtain ⟨hs', rfl⟩ := ih hrest fun u hu => hn u (List.mem_append_right _ hu)
    refine ⟨fun u hu => (List.mem_append.mp hu).elim (hs u) (hs' u), ?_⟩
    rw [List.foldl_append]

theorem view_spec (v : RefView) (us : List PeeledUpdate) :
    (∀ name, (us.foldl viewUpdate v).overlay.lookup name =
      (lastUpdate us name).elim (v.overlay.lookup name) fun u => some u.value) ∧
    (us.foldl viewUpdate v).overHead = (lastTarget us).or v.overHead ∧
    (us.foldl viewUpdate v).base = v.base := by
  induction us using List.reverseRecOn with
  | nil => exact ⟨fun name => rfl, rfl, rfl⟩
  | append_singleton us u ih =>
    obtain ⟨ihl, ihh, ihb⟩ := ih
    rw [List.foldl_append, List.foldl_cons, List.foldl_nil, viewUpdate]
    refine ⟨fun name => ?_, ?_, ?_⟩
    · rw [lastUpdate_concat]
      by_cases hs : u.isSymbolic
      · simp only [hs, if_true, Bool.not_true, Bool.false_and, Bool.false_eq_true, if_false]
        split_ifs <;> exact ihl name
      · by_cases hn : u.name = name
        · simp [hs, hn, RefView.set]
        · have hn' : (name == u.name) = false := by simpa using Ne.symm hn
          simp [hs, hn, RefView.set, List.lookup_cons, hn', ihl]
    · rw [lastTarget_concat]
      by_cases hs : u.isSymbolic
      · by_cases hn : u.name = "HEAD" <;> simp [hs, hn, ihh]
      · simp [hs, RefView.set, ihh]
    · split_ifs <;> exact ihb

theorem applyTxnsToMap_eq {base : RefTable} {txns : List (List PeeledUpdate)}
    (hs : ∀ u ∈ txns.flatten, u.isSymbolic = false) :
    applyTxnsToMap base txns = refView base txns := by
  rw [applyTxnsToMap, refView]
  generalize RefView.new base = v
  induction txns generalizing v with
  | nil => rfl
  | cons txn txns ih =>
    rw [List.flatten_cons] at hs ⊢
    rw [List.foldl_cons, ih (fun u hu => hs u (List.mem_append_right _ hu)), List.foldl_append,
      applyTxnToMap]
    congr 1
    refine List.foldl_ext _ _ _ fun v u hu => ?_
    simp [mapUpdate, viewUpdate, hs u (List.mem_append_left _ hu)]

theorem get_set {v : RefView} {name : String} {x : Option String} :
    (v.set name x).get name = some x := by
  simp [RefView.get, RefView.set]

theorem get_new_head {t : RefTable} :
    (RefView.new t).get "HEAD" =
      if t.headTarget = "" then some none
      else if t.headTarget = "HEAD" then none
      else some ((t.find t.headTarget).map Ref.oid) := rfl

theorem get_of_ne {v : RefView} {name : String} (h : name ≠ "HEAD") :
    v.get name = some (v.plain name) := by
  rw [RefView.get]
  cases hl : v.overlay.lookup name with
  | none => simp [h, RefView.plain, hl]
  | some x => simp [RefView.plain, hl]

theorem get_eq_new {v : RefView} {t : RefTable}
    (hp : ∀ name, v.plain name = (t.find name).map Ref.oid) (hh : v.headTarget = t.headTarget)
    (hn : v.overlay.lookup "HEAD" = none) (name : String) :
    v.get name = (RefView.new t).get name := by
  by_cases h : name = "HEAD"
  · subst h
    have hnew : (RefView.new t).plain t.headTarget = v.plain t.headTarget := (hp _).symm
    simp only [RefView.get, hn, hh, if_true]
    exact congrArg (fun x => if t.headTarget = "" then some none
      else if t.headTarget = "HEAD" then none else some x) hnew.symm
  · rw [get_of_ne h, get_of_ne h, hp]
    rfl

theorem refView_head {odb : Odb} {base : RefTable} {txns : List (List PeeledUpdate)} :
    (refView base txns).headTarget = (patchSnapshot odb base txns).headTarget := by
  obtain ⟨-, hh, hb⟩ := view_spec (.new base) txns.flatten
  rw [patchSnapshot_eq, (merge_spec (peeledEntry_name odb) base txns.flatten).2, refView,
    RefView.headTarget, hh, hb]
  cases lastTarget txns.flatten <;> rfl

theorem refView_get {odb : Odb} {base : RefTable} {txns : List (List PeeledUpdate)}
    (hn : ∀ u ∈ txns.flatten, u.name ≠ "HEAD") (name : String) :
    (refView base txns).get name = (RefView.new (patchSnapshot odb base txns)).get name := by
  obtain ⟨hl, -, hb⟩ := view_spec (.new base) txns.flatten
  obtain ⟨hf, -⟩ := merge_spec (peeledEntry_name odb) base txns.flatten
  refine get_eq_new (fun name => ?_) refView_head ?_ name
  · rw [RefView.plain, refView, hl, hb, patchSnapshot_eq, hf]
    cases lastUpdate txns.flatten name with
    | none => rfl
    | some u =>
      simp only [Option.elim_some, Option.getD_some, PeeledUpdate.value, PeeledUpdate.leaves]
      split_ifs <;> rfl
  · rw [refView, hl]
    cases hu : lastUpdate txns.flatten "HEAD" with
    | none => rfl
    | some u =>
      have hm := (List.mem_filter.mp (List.mem_of_getLast? hu)).1
      exact absurd (lastUpdate_name hu).1 (hn u hm)

/-- The answers of the six appliers from one repository, compared with the patched snapshot:
the values and peeled values of all refs, the point lookups and the target of `HEAD`. -/
structure Agree (odb : Odb) (base files offline : RefTable) (txns : List (List PeeledUpdate)) :
    Prop where
  files : readRefs odb files = patchSnapshot odb base txns
  offline : readRefs odb offline = patchSnapshot odb base txns
  replay : replayRefs base txns = patchSnapshot odb base txns
  view : ∀ name, (refView base txns).get name =
    (RefView.new (patchSnapshot odb base txns)).get name
  viewHead : (refView base txns).headTarget = (patchSnapshot odb base txns).headTarget
  map : ∀ name, (applyTxnsToMap base txns).get name =
    (RefView.new (patchSnapshot odb base txns)).get name
  mapHead : (applyTxnsToMap base txns).headTarget = (patchSnapshot odb base txns).headTarget

/-- A deletion, or an update in lower case that carries what a reader would peel. -/
def Carries (odb : Odb) (u : PeeledUpdate) : Prop :=
  isNullOid u.newOid ∨
    (lowerHex u.newOid = u.newOid ∧ u.newPeeled = peelOf odb u.name u.newOid)

theorem carries_iff {odb : Odb} {u : PeeledUpdate} :
    Carries odb u ↔
      (isNullOid u.newOid ∨ peelRef odb (gitEntry u) = peeledEntry odb u) ∧
      (isNullOid u.newOid ∨ rawEntry u = peeledEntry odb u) := by
  by_cases hz : isNullOid u.newOid
  · simp [Carries, hz]
  · by_cases hp : u.newPeeled = "" <;>
      simp [Carries, hz, peelRef, gitEntry, peeledEntry, rawEntry, hp] <;> grind

theorem agree_iff_carries {accepts : RefTable → List PeeledUpdate → Bool} {odb : Odb}
    {t files offline : RefTable} {txns : List (List PeeledUpdate)}
    (hf : applyRefTxns accepts t txns = some files)
    (ho : applyRefTxnsOffline odb t txns = some offline)
    (hn : ∀ u ∈ txns.flatten, u.name ≠ "HEAD") :
    Agree odb (readRefs odb t) files offline txns ↔
      ∀ name u, lastUpdate txns.flatten name = some u → Carries odb u := by
  obtain ⟨hs, rfl⟩ := applyRefTxns_eq hf hn
  obtain ⟨hg, hgh⟩ := merge_spec gitEntry_name t txns.flatten
  obtain ⟨hp, hph⟩ := merge_spec (peeledEntry_name odb) (readRefs odb t) txns.flatten
  obtain ⟨hr, hrh⟩ := merge_spec rawEntry_name (readRefs odb t) txns.flatten
  have hread : ∀ name,
      (readRefs odb (txns.flatten.foldl (mergeUpdate gitEntry) t)).find name =
        (lastUpdate txns.flatten name).elim ((readRefs odb t).find name)
          fun u => u.leaves fun u => peelRef odb (gitEntry u) := by
    intro name
    rw [find_readRefs, hg]
    cases lastUpdate txns.flatten name with
    | none => rw [Option.elim_none, Option.elim_none, find_readRefs]
    | some u =>
      rw [Option.elim_some, Option.elim_some, PeeledUpdate.leaves, PeeledUpdate.leaves]
      split_ifs <;> rfl
  have hfiles := tables_eq_iff hread hp (hgh.trans hph.symm)
  have hreplay := tables_eq_iff hr hp (hrh.trans hph.symm)
  rw [← patchSnapshot_eq] at hfiles hreplay
  constructor
  · intro h name u hu
    exact carries_iff.mpr ⟨hfiles.mp h.files name u hu, hreplay.mp h.replay name u hu⟩
  · intro h
    have hc := fun name u hu => carries_iff.mp (h name u hu)
    have hm : applyTxnsToMap (readRefs odb t) txns = refView (readRefs odb t) txns :=
      applyTxnsToMap_eq hs
    exact ⟨hfiles.mpr fun name u hu => (hc name u hu).1, offline_eq_patch ho,
      hreplay.mpr fun name u hu => (hc name u hu).2, refView_get hn, refView_head,
      hm ▸ refView_get hn, hm ▸ refView_head⟩

/-! ## One update of `HEAD` -/

/-- No ref is called `HEAD` or nothing, object ids are hex, and `HEAD` does not name itself. -/
structure RefTable.Proper (t : RefTable) : Prop where
  named : ∀ r ∈ t.refs, r.name ≠ "HEAD" ∧ r.name ≠ ""
  hex : ∀ r ∈ t.refs, r.oid.toList.all isHexDigit = true
  head : t.headTarget ≠ "HEAD"


theorem find_none {t : RefTable} {name : String} (h : ∀ r ∈ t.refs, r.name ≠ name) :
    t.find name = none :=
  lookup_eq_none.mpr h

theorem remove_eq_self {t : RefTable} {name : String} (h : t.find name = none) :
    t.remove name = t :=
  RefTable.ext (delete_eq_self (lookup_eq_none.mp h)) rfl

theorem RefTable.Proper.find_head {t : RefTable} (h : t.Proper) : t.find "HEAD" = none :=
  find_none fun r hr => (h.named r hr).1

theorem not_hex_of_refName {name : String} (h : validateRefName name = true) (hn : name ≠ "HEAD") :
    name.toList.all isHexDigit = false := by
  have hpre : "refs/".toList.isPrefixOf name.toList = true := by
    simp only [validateRefName, Bool.or_eq_true, beq_iff_eq, hn, false_or, Bool.not_eq_true',
      Bool.or_eq_false_iff, Bool.not_eq_false'] at h
    exact h.1.1.1.1.1.1.1
  obtain ⟨rest, hrest⟩ := List.isPrefixOf_iff_prefix.mp hpre
  rw [← hrest]
  rfl

theorem applyRefTxns_single {accepts : RefTable → List PeeledUpdate → Bool} {t files : RefTable}
    {u : PeeledUpdate} (h : applyRefTxns accepts t [[u]] = some files) :
    validateRefUpdate u.toRefUpdate = true ∧
      files = if u.isSymbolic then t.setHead u.newSymbolicTarget
        else gitCommand t.headTarget t u := by
  obtain ⟨mid, hmid, hrest⟩ := Option.bind_eq_some_iff.mp h
  obtain rfl := Option.some.inj hrest
  unfold applyRefTxn at hmid
  split_ifs at hmid with hok
  simp only [Bool.and_eq_true, List.all_eq_true, List.mem_singleton, forall_eq] at hok
  refine ⟨hok.1, (Option.some.inj hmid).symm.trans ?_⟩
  cases hs : u.isSymbolic <;> simp [hs]

theorem not_agree_symbolic {odb : Odb} {t files offline : RefTable} {u : PeeledUpdate}
    (ht : t.Proper) (hu : u.name = "HEAD") (hs : u.isSymbolic = true)
    (hv : validateRefUpdate u.toRefUpdate = true) :
    ¬ Agree odb (readRefs odb t) files offline [[u]] := by
  intro h
  have hpatch : patchSnapshot odb (readRefs odb t) [[u]] =
      (readRefs odb t).setHead u.newSymbolicTarget := by
    simp [patchSnapshot, patchUpdate, hs, hu]
  have hmap : applyTxnsToMap (readRefs odb t) [[u]] =
      (RefView.new (readRefs odb t)).set "HEAD" (some u.newSymbolicTarget) := by
    simp [applyTxnsToMap, applyTxnToMap, mapUpdate, hs, hu]
  have hhead : t.headTarget = u.newSymbolicTarget := by
    have := h.mapHead
    rwa [hpatch, hmap] at this
  have hne : u.newSymbolicTarget ≠ "" := by simpa [RefUpdate.isSymbolic] using hs
  have hname : validateRefName u.newSymbolicTarget = true := by
    simpa [validateRefUpdate, hs, hu] using hv
  have hval := h.map "HEAD"
  rw [hpatch, hmap, get_set, get_new_head] at hval
  change _ = if u.newSymbolicTarget = "" then _ else
    if u.newSymbolicTarget = "HEAD" then _ else _ at hval
  rw [if_neg hne, if_neg (hhead ▸ ht.head)] at hval
  obtain ⟨peeled, hp, hoid⟩ := Option.map_eq_some_iff.mp (Option.some.inj hval).symm
  rw [find_setHead, find_readRefs] at hp
  obtain ⟨r, hr, rfl⟩ := Option.map_eq_some_iff.mp hp
  -- the value of the branch would be its own name
  have hhex := ht.hex r (mem_of_lookup hr)
  rw [peelRef_oid] at hoid
  rw [hoid, not_hex_of_refName hname (hhead ▸ ht.head)] at hhex
  cases hhex

theorem agree_head_iff {accepts : RefTable → List PeeledUpdate → Bool} {odb : Odb}
    {t files offline : RefTable} {u : PeeledUpdate} (ht : t.Proper) (hu : u.name = "HEAD")
    (hf : applyRefTxns accepts t [[u]] = some files)
    (ho : applyRefTxnsOffline odb t [[u]] = some offline) :
    Agree odb (readRefs odb t) files offline [[u]] ↔
      u.isSymbolic = false ∧ isNullOid u.newOid = true ∧ ∀ r ∈ t.refs, r.name ≠ t.headTarget := by
  obtain ⟨hv, rfl⟩ := applyRefTxns_single hf
  cases hs : u.isSymbolic with
  | true =>
    simp only [Bool.true_eq_false, false_and, iff_false]
    exact not_agree_symbolic ht hu hs hv
  | false =>
    simp only [Bool.false_eq_true, if_false, true_and]
    have hpatch : patchSnapshot odb (readRefs odb t) [[u]] =
        mergeUpdate (peeledEntry odb) (readRefs odb t) u := by
      rw [patchSnapshot_eq]
      rfl
    have hmap : applyTxnsToMap (readRefs odb t) [[u]] = refView (readRefs odb t) [[u]] :=
      applyTxnsToMap_eq (by simpa using hs)
    cases hz : isNullOid u.newOid with
    | false =>
      -- the maps hold a ref called `HEAD`, the files do not
      simp only [Bool.false_eq_true, false_and, iff_false]
      intro h
      have hfind := congrArg (fun t => t.find "HEAD") h.files
      have hgit : (gitCommand t.headTarget t u).find "HEAD" = none := by
        by_cases he : t.headTarget = ""
        · simp [gitCommand, gitTarget, hu, he, ht.find_head]
        · simp [gitCommand, gitTarget, hu, he, hz, ht.head, ht.find_head]
      simp [hpatch, mergeUpdate, hs, hz, hu, peeledEntry, hgit] at hfind
    | true =>
      simp only [true_and]
      have hclear : (readRefs odb t).remove "HEAD" = readRefs odb t :=
        remove_eq_self (by rw [find_readRefs, ht.find_head]; rfl)
      have hbase : patchSnapshot odb (readRefs odb t) [[u]] = readRefs odb t := by
        simp [hpatch, mergeUpdate, hs, hz, hu, hclear]
      have hreplay : replayRefs (readRefs odb t) [[u]] = readRefs odb t := by
        simp [replayRefs, mergeUpdate, hs, hz, hu, hclear]
      have hview : refView (readRefs odb t) [[u]] =
          (RefView.new (readRefs odb t)).set "HEAD" none := by
        simp [refView, viewUpdate, hs, hu, PeeledUpdate.value, hz]
      constructor
      · intro h
        by_cases he : t.headTarget = ""
        · exact fun r hr => he ▸ (ht.named r hr).2
        · have hfind := congrArg (fun s => s.find t.headTarget) h.files
          rw [hbase] at hfind
          simp only [find_readRefs, gitCommand, gitTarget, hu, he, hz, if_true, if_false,
            find_remove, Option.map_none] at hfind
          exact lookup_eq_none.mp (Option.map_eq_none_iff.mp hfind.symm)
      · intro h
        have hgit : gitCommand t.headTarget t u = t := by
          by_cases he : t.headTarget = ""
          · simp [gitCommand, gitTarget, hu, he]
          · simp [gitCommand, gitTarget, hu, he, hz, remove_eq_self (find_none h)]
        have hget : ∀ name, (refView (readRefs odb t) [[u]]).get name =
            (RefView.new (readRefs odb t)).get name := by
          intro name
          rw [hview]
          by_cases hn : name = "HEAD"
          · subst hn
            rw [get_set, get_new_head, readRefs_head, find_readRefs, find_none h, if_neg ht.head]
            split_ifs <;> rfl
          · rw [get_of_ne hn, get_of_ne hn, RefView.plain, RefView.set, List.lookup_cons,
              beq_eq_false_iff_ne.mpr hn]
            rfl
        refine ⟨?_, offline_eq_patch ho, ?_, ?_, refView_head, ?_, ?_⟩
        · rw [hgit, hbase]
        · rw [hreplay, hbase]
        · rw [hbase]
          exact hget
        · rw [hmap, hbase]
          exact hget
        · rw [hmap]
          exact refView_head

/-- Where the six appliers give one answer. A sequence that does not name `HEAD`: exactly when the
last update of each ref deletes it, or is in lower case and carries the peeled value a reader
computes. One update of `HEAD`: exactly when it deletes a branch that is not there. The offline
apply and the patched snapshot never differ. -/
theorem ref_appliers_agree_iff {accepts : RefTable → List PeeledUpdate → Bool} {odb : Odb}
    {t files offline : RefTable} {txns : List (List PeeledUpdate)}
    (hf : applyRefTxns accepts t txns = some files)
    (ho : applyRefTxnsOffline odb t txns = some offline) :
    ((∀ u ∈ txns.flatten, u.name ≠ "HEAD") →
      (Agree odb (readRefs odb t) files offline txns ↔
        ∀ name u, lastUpdate txns.flatten name = some u → Carries odb u)) ∧
    (∀ u, txns = [[u]] → u.name = "HEAD" → t.Proper →
      (Agree odb (readRefs odb t) files offline txns ↔
        u.isSymbolic = false ∧ isNullOid u.newOid = true ∧
          ∀ r ∈ t.refs, r.name ≠ t.headTarget)) ∧
    readRefs odb offline = patchSnapshot odb (readRefs odb t) txns := by
  refine ⟨agree_iff_carries hf ho, ?_, offline_eq_patch ho⟩
  rintro u rfl hu ht
  exact agree_head_iff ht hu hf ho

/-- A repository with one branch and `HEAD` at it. -/
def oneBranch : RefTable :=
  ⟨[⟨"refs/heads/main", "1111111111111111111111111111111111111111", ""⟩],
    List.pairwise_singleton _ _, "refs/heads/main"⟩

def commitsOnly : Odb := fun _ => some .other

/-- A lightweight tag at the branch's commit. -/
def tagAt (peeled : String) : PeeledUpdate :=
  ⟨⟨"refs/tags/v1", "", "1111111111111111111111111111111111111111", ""⟩, peeled⟩

def carriedTag : PeeledUpdate := tagAt "1111111111111111111111111111111111111111"

def headTo (target : String) : PeeledUpdate := ⟨⟨"HEAD", "", "", target⟩, ""⟩

def acceptAll : RefTable → List PeeledUpdate → Bool := fun _ _ => true

theorem ref_appliers_agree_tag :
    ∃ files offline, applyRefTxns acceptAll oneBranch [[carriedTag]] = some files ∧
      applyRefTxnsOffline commitsOnly oneBranch [[carriedTag]] = some offline ∧
      Agree commitsOnly (readRefs commitsOnly oneBranch) files offline [[carriedTag]] := by
  have hf : applyRefTxns acceptAll oneBranch [[carriedTag]] = some _ := rfl
  have ho : applyRefTxnsOffline commitsOnly oneBranch [[carriedTag]] = some _ := rfl
  refine ⟨_, _, hf, ho, ((ref_appliers_agree_iff hf ho).1 (by decide)).mpr ?_⟩
  intro name u hu
  obtain rfl : u = carriedTag := by
    simpa using (List.mem_filter.mp (List.mem_of_getLast? hu)).1
  exact .inr ⟨by decide, by decide⟩

/-- A lightweight tag without a peeled value, and `HEAD` moved to another branch: every applier
succeeds, and they disagree. -/
theorem ref_appliers_disagree :
    (∃ files offline, applyRefTxns acceptAll oneBranch [[tagAt ""]] = some files ∧
      applyRefTxnsOffline commitsOnly oneBranch [[tagAt ""]] = some offline ∧
      ¬ Agree commitsOnly (readRefs commitsOnly oneBranch) files offline [[tagAt ""]]) ∧
    ∃ files offline,
      applyRefTxns acceptAll oneBranch [[headTo "refs/heads/dev"]] = some files ∧
      applyRefTxnsOffline commitsOnly oneBranch [[headTo "refs/heads/dev"]] = some offline ∧
      ¬ Agree commitsOnly (readRefs commitsOnly oneBranch) files offline
        [[headTo "refs/heads/dev"]] := by
  refine ⟨⟨_, _, rfl, rfl, fun h => ?_⟩, ⟨_, _, rfl, rfl, fun h => ?_⟩⟩
  · have hfind := congrArg (fun t => (t.find "refs/tags/v1").map Ref.peeled) h.replay
    revert hfind
    decide
  · have hhead := h.mapHead
    revert hhead
    decide

end Walgit.Appliers
