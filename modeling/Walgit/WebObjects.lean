import Mathlib.Data.Finset.Insert
import Mathlib.Logic.Relation
import Walgit.Lib.Fallible
import Walgit.Lib.Utf8
import Walgit.Objects

/-!
# Objects for the web

Where the packs of a repository are not on the instance, the pages read commits
and trees from the packs in the store, and write the objects a git command is
to read into the local store first.
-/

namespace Walgit.Web

open Objects (Kind)

abbrev Bytes := List UInt8

/-- The raw mode of a tree entry; the file type is in its upper bits. -/
structure EntryMode where
  value : ℕ
  deriving DecidableEq, Repr

namespace EntryMode

def fileType (m : EntryMode) : ℕ := m.value &&& 0o170000

def isTree (m : EntryMode) : Bool := m.fileType = 0o040000

def isBlobOrSymlink (m : EntryMode) : Bool := m.fileType = 0o100000 || m.fileType = 0o120000

/-- `EntryKind::Tree`, the mode of a root. -/
def tree : EntryMode := ⟨0o040000⟩

theorem isTree_tree : tree.isTree = true := by decide

theorem not_blob_of_isTree {m : EntryMode} (h : m.isTree = true) : m.isBlobOrSymlink = false := by
  rw [isTree, decide_eq_true_eq] at h
  rw [isBlobOrSymlink, h]
  decide

end EntryMode

structure TreeEntryRef (O : Type) where
  name : Bytes
  oid : O
  mode : EntryMode
  deriving DecidableEq, Repr

structure CommitMeta (O : Type) where
  id : O
  tree : O
  parents : List O
  author : String
  authorEmail : String
  authorDate : String
  committer : String
  commitDate : String
  commitTime : ℤ
  subject : String
  body : String
  deriving DecidableEq, Repr

inductive ApiError (O : Type)
  | notInPacks (oid : O)
  | notCommit (oid : O)
  | notTree (oid : O)
  | invalidSha (sha : String)
  | pathMissing (path : String) (commit : O)
  | internal (msg : String)
  | mergeBaseTooFar (budget : ℕ)
  | diffTooLarge (budget : ℕ)
  | blameTooDeep (path : String) (budget : ℕ)
  | renameTooLarge (path : String) (parent : O) (budget : ℕ)
  | archiveTooLarge (commit : String) (budget : ℕ)
  deriving DecidableEq, Repr

/-- The errors of kind `NotFound`. -/
def ApiError.isNotFound {O : Type} : ApiError O → Bool
  | .notInPacks _ | .notCommit _ | .notTree _ | .invalidSha _ | .pathMissing _ _ => true
  | _ => false

/-- The packs as they are read remotely, the parsers of objects and ids, and
how the local store answers. -/
structure Remote (O : Type) where
  find : O → Except String (Option (Kind × Bytes))
  parseCommit : O → Bytes → Except String (CommitMeta O)
  parseTree : Bytes → Except String (List (TreeEntryRef O))
  fromHex : String → Option O
  writeLooseObject : Kind → O → Bytes → Except String Unit
  refresh : Except String Unit

variable {O : Type}

section Reading

variable (R : Remote O)

def Remote.get (oid : O) : Except (ApiError O) (Kind × Bytes) :=
  match R.find oid with
  | .error e => .error (.internal ("remote objects: " ++ e))
  | .ok none => .error (.notInPacks oid)
  | .ok (some o) => .ok o

def Remote.commit (oid : O) : Except (ApiError O) (CommitMeta O) := do
  let o ← R.get oid
  if o.1 ≠ .commit then .error (.notCommit oid)
  else (R.parseCommit oid o.2).mapError .internal

def Remote.treeEntries (oid : O) : Except (ApiError O) (List (TreeEntryRef O)) := do
  let o ← R.get oid
  if o.1 ≠ .tree then .error (.notTree oid)
  else (R.parseTree o.2).mapError .internal

def Remote.hexId (sha : String) : Except (ApiError O) O :=
  match R.fromHex sha with
  | none => .error (.invalidSha sha)
  | some oid => .ok oid

/-- The segments of a path that are not empty. -/
def segments (path : List Char) : List Bytes :=
  ((path.splitOn '/').filter (· ≠ [])).map Utf8.encode

/-- The entry that segments lead to from an entry. -/
def lookupSegs : O → EntryMode → List Bytes → Except (ApiError O) (Option (O × EntryMode))
  | cur, mode, [] => .ok (some (cur, mode))
  | cur, _, seg :: segs => do
    let es ← R.treeEntries cur
    match es.find? (·.name = seg) with
    | none => .ok none
    | some e => lookupSegs e.oid e.mode segs

def Remote.lookupPath (tree : O) (path : List Char) :
    Except (ApiError O) (Option (O × EntryMode)) :=
  lookupSegs R tree .tree (segments path)

end Reading

section Faulting

/-- The objects of the local store, and those that the request has written. -/
structure LocalStore (O : Type) where
  stored : Finset O
  faulted : Finset O
  faulted_sub : faulted ⊆ stored

variable [DecidableEq O]

def LocalStore.add (st : LocalStore O) (oid : O) : LocalStore O where
  stored := insert oid st.stored
  faulted := insert oid st.faulted
  faulted_sub := Finset.insert_subset_insert oid st.faulted_sub

variable (R : Remote O)

def Remote.writeLocal (oid : O) (o : Kind × Bytes) (st : LocalStore O) :
    Except (ApiError O) (LocalStore O) :=
  if oid ∈ st.faulted then .ok st
  else
    match R.writeLooseObject o.1 oid o.2 with
    | .error e => .error (.internal ("fault object: " ++ e))
    | .ok () => .ok (st.add oid)

def Remote.fault (oid : O) (st : LocalStore O) : Except (ApiError O) (LocalStore O) := do
  let o ← R.get oid
  R.writeLocal oid o st

/-- The objects are read 32 at a time and written in order. -/
def Remote.faultMany (oids : List O) (st : LocalStore O) : Except (ApiError O) (LocalStore O) :=
  (oids.filter (· ∉ st.faulted)).foldlM (fun st oid => R.fault oid st) st

def Remote.refreshLocal (st : LocalStore O) : Except (ApiError O) (LocalStore O) :=
  match R.refresh with
  | .error e => .error (.internal e)
  | .ok () => .ok st

variable {R} {st st' : LocalStore O} {oid o : O} {oids : List O}

theorem fault_ok (h : R.fault oid st = .ok st') : o ∈ st'.stored ↔ o ∈ st.stored ∨ o = oid := by
  obtain ⟨obj, -, h⟩ := bind_eq_ok h
  rw [Remote.writeLocal] at h
  split_ifs at h with hfaulted
  · cases h
    exact ⟨.inl, fun ho => ho.elim id fun heq => heq ▸ st.faulted_sub hfaulted⟩
  · split at h
    · cases h
    · cases h
      exact Finset.mem_insert.trans or_comm

theorem faults_ok (h : oids.foldlM (fun st oid => R.fault oid st) st = .ok st') :
    o ∈ st'.stored ↔ o ∈ st.stored ∨ o ∈ oids := by
  induction oids generalizing st with
  | nil =>
    cases h
    exact (or_iff_left List.not_mem_nil).symm
  | cons oid oids ih =>
    rw [List.foldlM_cons] at h
    obtain ⟨mid, hfault, hrest⟩ := bind_eq_ok h
    rw [ih hrest, fault_ok hfault, List.mem_cons, or_assoc]

theorem faultMany_ok (h : R.faultMany oids st = .ok st') :
    o ∈ st'.stored ↔ o ∈ st.stored ∨ o ∈ oids := by
  rw [faults_ok h, List.mem_filter, decide_eq_true_eq]
  refine ⟨fun ho => ho.imp_right And.left, fun ho => ?_⟩
  by_cases hfaulted : o ∈ st.faulted
  · exact .inl (st.faulted_sub hfaulted)
  · exact ho.imp_right fun hmem => ⟨hmem, hfaulted⟩

omit [DecidableEq O] in
theorem refreshLocal_ok (h : R.refreshLocal st = .ok st') : st' = st := by
  rw [Remote.refreshLocal] at h
  split at h
  · cases h
  · exact (Except.ok.inj h).symm

end Faulting

section History

variable (R : Remote O)

/-- The commit `c` has the parent `p`. -/
def Parent (c p : O) : Prop := ∃ m, R.commit c = .ok m ∧ p ∈ m.parents

/-- `x` is `c` or an ancestor of it. -/
def Ancestor : O → O → Prop := Relation.ReflTransGen (Parent R)

end History

section Tables

/-- What an object of a table holds. -/
inductive Item
  | commit (m : CommitMeta ℕ)
  | tree (es : List (TreeEntryRef ℕ))
  | blob
  deriving DecidableEq, Repr

def Item.kind : Item → Kind
  | .commit _ => .commit
  | .tree _ => .tree
  | .blob => .blob

/-- A commit of which nothing is told but its tree, parents and time. -/
def bareCommit (id tree : ℕ) (parents : List ℕ) (time : ℤ) : Item :=
  .commit ⟨id, tree, parents, "", "", "", "", "", time, "", ""⟩

/-- Objects each under its place in a table, which is also what its bytes are. -/
def ofItems (items : List Item) : Remote ℕ where
  find oid := .ok (items[oid]?.map fun item => (item.kind, [.ofNat oid]))
  parseCommit oid _ :=
    match items[oid]? with
    | some (.commit m) => .ok m
    | _ => .error "no commit"
  parseTree data :=
    match data with
    | [b] =>
      match items[b.toNat]? with
      | some (.tree es) => .ok es
      | _ => .error "no tree"
    | _ => .error "no tree"
  fromHex s := ["0", "1", "2", "3", "4", "5", "6", "7", "8", "9"].idxOf? s
  writeLooseObject _ _ _ := .ok ()
  refresh := .ok ()

def emptyStore : LocalStore ℕ := ⟨∅, ∅, Finset.Subset.refl ∅⟩

def parentsAt (items : List Item) (c : ℕ) : List ℕ :=
  match items[c]? with
  | some (.commit m) => m.parents
  | _ => []

theorem get_ofItems {items : List Item} {i : ℕ} : (ofItems items).get i =
    match items[i]? with
    | none => .error (.notInPacks i)
    | some item => .ok (item.kind, [.ofNat i]) := by
  simp only [Remote.get, ofItems]
  cases items[i]? <;> rfl

theorem commit_ofItems {items : List Item} {c : ℕ} {m : CommitMeta ℕ} :
    (ofItems items).commit c = .ok m ↔ items[c]? = some (.commit m) := by
  rw [Remote.commit, get_ofItems]
  cases hc : items[c]? with
  | none => exact iff_of_false nofun nofun
  | some item =>
    cases item with
    | commit m' =>
      have hparse : (ofItems items).parseCommit c [.ofNat c] = .ok m' := by
        simp only [ofItems, hc]
      change ((ofItems items).parseCommit c [.ofNat c]).mapError ApiError.internal = .ok m ↔ _
      rw [hparse]
      exact ⟨fun h => by rw [Except.ok.inj h], fun h => by cases h; rfl⟩
    | tree es => exact iff_of_false nofun nofun
    | blob => exact iff_of_false nofun nofun

theorem treeEntries_ofItems {items : List Item} {t : ℕ} {es : List (TreeEntryRef ℕ)}
    (h : (ofItems items).treeEntries t = .ok es) :
    Item.tree es ∈ items ∧ ∃ es', items[t]? = some (.tree es') := by
  rw [Remote.treeEntries, get_ofItems] at h
  cases ht : items[t]? with
  | none =>
    rw [ht] at h
    cases h
  | some item =>
    rw [ht] at h
    cases item with
    | commit m => cases h
    | blob => cases h
    | tree es' =>
      refine ⟨?_, es', rfl⟩
      change ((ofItems items).parseTree [.ofNat t]).mapError ApiError.internal = .ok es at h
      simp only [ofItems] at h
      split at h
      · next es'' hget =>
        cases h
        exact List.mem_of_getElem? hget
      · cases h

theorem treeEntries_of_get {items : List Item} {t : ℕ} {es : List (TreeEntryRef ℕ)}
    (ht : t < 256) (h : items[t]? = some (.tree es)) : (ofItems items).treeEntries t = .ok es := by
  have hparse : (ofItems items).parseTree [.ofNat t] = .ok es := by
    have hbyte : (UInt8.ofNat t).toNat = t := Nat.mod_eq_of_lt ht
    simp only [ofItems, hbyte, h]
  rw [Remote.treeEntries, get_ofItems, h]
  change ((ofItems items).parseTree [.ofNat t]).mapError ApiError.internal = .ok es
  rw [hparse]
  rfl

theorem parent_ofItems {items : List Item} {c p : ℕ} :
    Parent (ofItems items) c p ↔ p ∈ parentsAt items c := by
  simp only [Parent, commit_ofItems, parentsAt]
  constructor
  · rintro ⟨m, hm, hp⟩
    rw [hm]
    exact hp
  · intro hp
    split at hp
    · next m hm => exact ⟨m, hm, hp⟩
    · cases hp

theorem ancestor_mem {items : List Item} {S : List ℕ} {c x : ℕ}
    (hS : ∀ y ∈ S, ∀ p ∈ parentsAt items y, p ∈ S) (hc : c ∈ S)
    (h : Ancestor (ofItems items) c x) : x ∈ S := by
  induction h with
  | refl => exact hc
  | tail _ hp ih => exact hS _ ih _ (parent_ofItems.mp hp)

end Tables

end Walgit.Web
