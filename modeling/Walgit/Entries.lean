import Mathlib.Data.Prod.Lex
import Mathlib.Data.String.Basic
import Mathlib.Data.Int.Order.Basic
import Walgit.Json
import Walgit.Lib.Grouping

/-!
# Collab entries

Signed entries found in the inboxes of principals. The same blob may be found in
several inboxes; an aggregation takes it once. A thread is ordered by parents,
as far as the loop gets, and by time, actor and oid.
-/

namespace Walgit.Collab

structure EntryRefs where
  base : Option String
  head : Option String
  deriving Repr

structure Entry where
  version : ℕ
  kind : String
  id : String
  actor : String
  ts : ℤ
  parent : String
  refs : Option EntryRefs
  body : Json
  sig : String
  deriving Repr

/-- An entry with its blob and the inbox it was found in. -/
structure EntryRef where
  oid : String
  principal : String
  entry : Entry
  deriving Repr

/-- The registered public keys, and whether an entry's signature checks against a key. -/
structure Principals where
  get : String → Option String
  verifyEntry : Entry → String → Bool

def EntryRef.isVerified (r : EntryRef) (principals : Principals) : Bool :=
  r.principal == r.entry.actor &&
    (principals.get r.entry.actor).any fun key => principals.verifyEntry r.entry key

/-- Found in the inbox of its own actor. -/
def EntryRef.Legitimate (r : EntryRef) : Prop := r.principal = r.entry.actor

instance {r : EntryRef} : Decidable r.Legitimate :=
  inferInstanceAs (Decidable (r.principal = r.entry.actor))

section Sets

/-- The entry of the same blob stays in its place; a legitimate copy displaces a planted one. -/
def insertEntry (er : EntryRef) : List EntryRef → List EntryRef
  | [] => [er]
  | cur :: rest =>
    if cur.oid = er.oid then
      (if ¬ cur.Legitimate ∧ er.Legitimate then er else cur) :: rest
    else cur :: insertEntry er rest

theorem mem_insertEntry_oids {er : EntryRef} {entries : List EntryRef} {oid : String} :
    oid ∈ (insertEntry er entries).map EntryRef.oid ↔
      oid = er.oid ∨ oid ∈ entries.map EntryRef.oid := by
  induction entries with
  | nil => simp [insertEntry]
  | cons cur rest ih =>
    unfold insertEntry
    split
    · rename_i heq
      split <;> simp [heq]
    · rw [List.map_cons, List.mem_cons, ih, List.map_cons, List.mem_cons]
      exact or_left_comm

theorem insertEntry_nodup {er : EntryRef} {entries : List EntryRef}
    (h : (entries.map EntryRef.oid).Nodup) :
    ((insertEntry er entries).map EntryRef.oid).Nodup := by
  induction entries with
  | nil => simp [insertEntry]
  | cons cur rest ih =>
    obtain ⟨hcur, hrest⟩ := List.nodup_cons.mp h
    unfold insertEntry
    split
    · rename_i heq
      refine List.nodup_cons.mpr ⟨?_, hrest⟩
      split
      · rwa [← heq]
      · exact hcur
    · rename_i hne
      refine List.nodup_cons.mpr ⟨?_, ih hrest⟩
      rw [mem_insertEntry_oids, not_or]
      exact ⟨hne, hcur⟩

/-- The entries of an aggregation, each blob once. -/
structure EntrySet where
  entries : List EntryRef
  nodup : (entries.map EntryRef.oid).Nodup

def EntrySet.new : EntrySet := ⟨[], List.nodup_nil⟩

def EntrySet.insert (set : EntrySet) (er : EntryRef) : EntrySet :=
  ⟨insertEntry er set.entries, insertEntry_nodup set.nodup⟩

def EntrySet.ofOccurrences (occurrences : List EntryRef) : EntrySet :=
  occurrences.foldl EntrySet.insert .new

/-- Entries as they are read: what is found under an oid is the blob of that oid. -/
structure EntryLog where
  entries : List EntryRef
  addressed : ∀ x ∈ entries, ∀ y ∈ entries, x.oid = y.oid → x.entry = y.entry

def EntryLog.push (log : EntryLog) (r : EntryRef)
    (h : ∀ x ∈ log.entries, x.oid = r.oid → x.entry = r.entry) : EntryLog where
  entries := log.entries ++ [r]
  addressed x hx y hy hoid := by
    rw [List.mem_append, List.mem_singleton] at hx hy
    rcases hx with hx | rfl
    · rcases hy with hy | rfl
      · exact log.addressed x hx y hy hoid
      · exact h x hx hoid
    · rcases hy with hy | rfl
      · exact (h y hy hoid.symm).symm
      · rfl

def EntrySet.log (set : EntrySet) : EntryLog :=
  ⟨set.entries, fun _ hx _ hy h =>
    congrArg EntryRef.entry (List.inj_on_of_nodup_map set.nodup hx hy h)⟩

end Sets

section Threads

abbrev OrderKey := ℤ ×ₗ String ×ₗ String

-- the order of the integers is also part of richer ones, which do not compute
instance OrderKey.linearOrder : LinearOrder OrderKey :=
  @Prod.Lex.instLinearOrder ℤ (String ×ₗ String) Int.instLinearOrder inferInstance

instance : Preorder OrderKey := OrderKey.linearOrder.toPartialOrder.toPreorder

def orderKey (ts : ℤ) (actor oid : String) : OrderKey := toLex (ts, toLex (actor, oid))

def EntryRef.key (r : EntryRef) : OrderKey := orderKey r.entry.ts r.entry.actor r.oid

def sortEntries (entries : List EntryRef) : List EntryRef :=
  entries.insertionSort fun a b => a.key ≤ b.key

structure Pass where
  out : List EntryRef
  next : List EntryRef

/-- One pass over the pending entries: one whose parent is unknown or emitted is emitted. -/
def threadPass (known : List String) : List EntryRef → Pass → Pass
  | [], p => p
  | e :: pending, p =>
    if e.entry.parent = "" ∨ e.entry.parent ∉ known ∨ e.entry.parent ∈ p.out.map EntryRef.oid then
      threadPass known pending { p with out := p.out ++ [e] }
    else threadPass known pending { p with next := p.next ++ [e] }

/-- The first argument counts down what `guard` counts up; the loop stops by its condition. -/
def threadLoop (known : List String) : ℕ → ℕ → List EntryRef → List EntryRef → List EntryRef
  | 0, _, pending, out => out ++ pending
  | rounds + 1, guard, pending, out =>
    if pending ≠ [] ∧ guard < pending.length * 2 + 1 then
      let p := threadPass known pending ⟨out, []⟩
      threadLoop known rounds (guard + 1) p.next p.out
    else out ++ pending

def thread (entries : List EntryRef) : List EntryRef :=
  threadLoop (entries.map EntryRef.oid) (entries.length * 2 + 1) 0 (sortEntries entries) []

end Threads

end Walgit.Collab
