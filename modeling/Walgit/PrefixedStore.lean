import Walgit.Notify
import Walgit.ObjectStore

/-!
# A store below a prefix

Each repository sees the bucket through a wrapper that puts its prefix before
every key and takes it off what comes back. What is below the prefix is then a
store of its own: the wrapper does to the bucket what the same operation does to
that store, and nothing to the rest of the keys.
-/

namespace Walgit.ObjectStore

open SortedTable SortedRanges

/-- The trait that the backends and the wrapper implement. `compose` is its two sections, `gather`
and a `put`. -/
structure Backend (σ : Type) where
  get : σ → Key → GetOptions → Except StoreError GetResult
  head : σ → Key → Option ObjectMeta
  put : σ → Key → Bytes → PutMode → Except StoreError ObjectMeta × σ
  delete : σ → Key → Option Version → Except StoreError Unit × σ
  list : σ → Key → Option Key → List ObjectMeta
  listPrefixes : σ → Key → List Key
  gather : σ → List Key → Except StoreError Bytes

def memoryBackend : Backend MemoryStore where
  get := MemoryStore.get
  head := MemoryStore.head
  put := MemoryStore.put
  delete := MemoryStore.delete
  list := MemoryStore.list
  listPrefixes := MemoryStore.listPrefixes
  gather := MemoryStore.gather

def Backend.compose {σ : Type} (b : Backend σ) (s : σ) (dest : Key) (sources : List Key)
    (mode : PutMode) : Except StoreError ObjectMeta × σ :=
  match b.gather s sources with
  | .error e => (.error e, s)
  | .ok data => b.put s dest data mode

structure Prefixed (σ : Type) where
  inner : Backend σ
  keyPrefix : Key

section Code

variable {σ : Type}

def Prefixed.full (w : Prefixed σ) (key : Key) : Key := w.keyPrefix ++ key

/-- `strip_prefix`, or the key as it is. -/
def stripKey (p key : Key) : Key := if p.isPrefixOf key then key.drop p.length else key

def Prefixed.strip (w : Prefixed σ) (about : ObjectMeta) : ObjectMeta :=
  { about with key := stripKey w.keyPrefix about.key }

def Prefixed.get (w : Prefixed σ) (s : σ) (key : Key) (opts : GetOptions) :
    Except StoreError GetResult :=
  match w.inner.get s (w.full key) opts with
  | .ok (.object about body) => .ok (.object (w.strip about) body)
  | .ok (.notModified v) => .ok (.notModified v)
  | .error e => .error e

def Prefixed.head (w : Prefixed σ) (s : σ) (key : Key) : Option ObjectMeta :=
  (w.inner.head s (w.full key)).map w.strip

def Prefixed.put (w : Prefixed σ) (s : σ) (key : Key) (data : Bytes) (mode : PutMode) :
    Except StoreError ObjectMeta × σ :=
  ((w.inner.put s (w.full key) data mode).1.map w.strip, (w.inner.put s (w.full key) data mode).2)

def Prefixed.delete (w : Prefixed σ) (s : σ) (key : Key) (ifVersion : Option Version) :
    Except StoreError Unit × σ :=
  w.inner.delete s (w.full key) ifVersion

def Prefixed.list (w : Prefixed σ) (s : σ) (p : Key) (startAfter : Option Key) :
    List ObjectMeta :=
  (w.inner.list s (w.full p) (startAfter.map w.full)).map w.strip

def Prefixed.listPrefixes (w : Prefixed σ) (s : σ) (p : Key) : List Key :=
  (w.inner.listPrefixes s (w.full p)).map (stripKey w.keyPrefix)

def Prefixed.gather (w : Prefixed σ) (s : σ) (sources : List Key) : Except StoreError Bytes :=
  w.inner.gather s (sources.map w.full)

def Prefixed.compose (w : Prefixed σ) (s : σ) (dest : Key) (sources : List Key)
    (mode : PutMode) : Except StoreError ObjectMeta × σ :=
  ((w.inner.compose s (w.full dest) (sources.map w.full) mode).1.map w.strip,
    (w.inner.compose s (w.full dest) (sources.map w.full) mode).2)

def Prefixed.backend (w : Prefixed σ) : Backend σ where
  get := w.get
  head := w.head
  put := w.put
  delete := w.delete
  list := w.list
  listPrefixes := w.listPrefixes
  gather := w.gather

end Code

section Calls

/-- What a backend does under one lock. -/
inductive Call
  | get (key : Key) (opts : GetOptions)
  | head (key : Key)
  | put (key : Key) (data : Bytes) (mode : PutMode)
  | delete (key : Key) (ifVersion : Option Version)
  | list (p : Key) (startAfter : Option Key)
  | listPrefixes (p : Key)
  | gather (sources : List Key)

inductive Answer
  | got (r : Except StoreError GetResult)
  | headed (r : Option ObjectMeta)
  | written (r : Except StoreError ObjectMeta)
  | deleted (r : Except StoreError Unit)
  | listed (r : List ObjectMeta)
  | directories (r : List Key)
  | gathered (r : Except StoreError Bytes)

def Backend.exec {σ : Type} (b : Backend σ) (s : σ) : Call → Answer × σ
  | .get key opts => (.got (b.get s key opts), s)
  | .head key => (.headed (b.head s key), s)
  | .put key data mode => (.written (b.put s key data mode).1, (b.put s key data mode).2)
  | .delete key v => (.deleted (b.delete s key v).1, (b.delete s key v).2)
  | .list p a => (.listed (b.list s p a), s)
  | .listPrefixes p => (.directories (b.listPrefixes s p), s)
  | .gather sources => (.gathered (b.gather s sources), s)

def Call.full (p : Key) : Call → Call
  | .get key opts => .get (p ++ key) opts
  | .head key => .head (p ++ key)
  | .put key data mode => .put (p ++ key) data mode
  | .delete key v => .delete (p ++ key) v
  | .list q a => .list (p ++ q) (a.map (p ++ ·))
  | .listPrefixes q => .listPrefixes (p ++ q)
  | .gather sources => .gather (sources.map (p ++ ·))

def ObjectMeta.strip (p : Key) (m : ObjectMeta) : ObjectMeta := { m with key := stripKey p m.key }

def GetResult.strip (p : Key) : GetResult → GetResult
  | .object about body => .object (about.strip p) body
  | .notModified v => .notModified v

def Answer.strip (p : Key) : Answer → Answer
  | .got r => .got (r.map (·.strip p))
  | .headed r => .headed (r.map (·.strip p))
  | .written r => .written (r.map (·.strip p))
  | .listed r => .listed (r.map (·.strip p))
  | .directories r => .directories (r.map (stripKey p))
  | r => r

theorem Prefixed.exec_eq {σ : Type} (w : Prefixed σ) (s : σ) (c : Call) : w.backend.exec s c =
    ((w.inner.exec s (c.full w.keyPrefix)).1.strip w.keyPrefix,
      (w.inner.exec s (c.full w.keyPrefix)).2) := by
  cases c with
  | get key opts =>
    simp only [Backend.exec, Prefixed.backend, Prefixed.get, Prefixed.full, Call.full, Answer.strip]
    cases w.inner.get s (w.keyPrefix ++ key) opts with
    | error e => rfl
    | ok r => cases r <;> rfl
  | head key => rfl
  | put key data mode => rfl
  | delete key v => rfl
  | list q a => rfl
  | listPrefixes q => rfl
  | gather sources => rfl

/-- An error names the key of the bucket, and the wrapper leaves it as it is. -/
def StoreError.below (p : Key) : StoreError → StoreError
  | .notFound key => .notFound (p ++ key)
  | .preconditionFailed key v => .preconditionFailed (p ++ key) v
  | .invalidArgument text => .invalidArgument text

def Answer.below (p : Key) : Answer → Answer
  | .got r => .got (r.mapError (·.below p))
  | .written r => .written (r.mapError (·.below p))
  | .deleted r => .deleted (r.mapError (·.below p))
  | .gathered r => .gathered (r.mapError (·.below p))
  | r => r

end Calls

section View

variable {s : MemoryStore} {p q key k : Key} {o : Object} {data : Bytes}

def Object.relative (p : Key) (o : Object) : Object := { o with key := o.key.drop p.length }

theorem append_lt_append : p ++ key < p ++ k ↔ key < k := by
  induction p with
  | nil => rfl
  | cons c cs ih => simpa [List.cons_lt_cons_iff] using ih

/-- What is below a prefix, as a store. -/
def MemoryStore.below (s : MemoryStore) (p : Key) : MemoryStore where
  objects := (s.objects.filter fun o => p.isPrefixOf o.key).map (Object.relative p)
  counter := s.counter
  sorted := by
    rw [Sorted, List.pairwise_map]
    apply List.Pairwise.imp_of_mem _ (s.sorted.filter _)
    intro a b ha hb hlt
    simp only [List.mem_filter, List.isPrefixOf_iff_prefix] at ha hb
    obtain ⟨x, hx⟩ := ha.2
    obtain ⟨y, hy⟩ := hb.2
    simpa [Object.relative, ← hx, ← hy, append_lt_append] using hlt

theorem MemoryStore.ext_find {s t : MemoryStore} (hc : s.counter = t.counter)
    (h : ∀ key, s.find key = t.find key) : s = t := by
  have hobjects : s.objects = t.objects := s.sorted.ext t.sorted h
  cases s
  cases t
  simp_all

theorem find_below : (s.below p).find key = (s.find (p ++ key)).map (Object.relative p) := by
  apply Option.ext
  intro o
  constructor
  · intro h
    have hmem := mem_of_lookup h
    simp only [MemoryStore.below, List.mem_map, List.mem_filter, List.isPrefixOf_iff_prefix] at hmem
    obtain ⟨x, ⟨hx, t, ht⟩, rfl⟩ := hmem
    have hkey := key_of_find h
    simp only [Object.relative, ← ht, List.drop_left] at hkey
    rw [← hkey, ht, find_of_mem hx, Option.map_some]
  · intro h
    obtain ⟨x, hx, rfl⟩ := Option.map_eq_some_iff.mp h
    have hkey := key_of_find hx
    have hrel : (Object.relative p x).key = key := by simp [Object.relative, hkey]
    rw [← hrel]
    apply find_of_mem
    simp only [MemoryStore.below, List.mem_map, List.mem_filter, List.isPrefixOf_iff_prefix]
    exact ⟨x, ⟨mem_of_lookup hx, hkey ▸ List.prefix_append _ _⟩, rfl⟩

theorem below_insert : (s.insert (p ++ key) data).below p = (s.below p).insert key data := by
  refine MemoryStore.ext_find (by rfl) fun k => ?_
  rw [find_below, find_insert, find_insert, find_below]
  by_cases hk : key = k
  · subst hk
    simp [Object.relative, MemoryStore.nextVersion, MemoryStore.below]
  · have hne : p ++ key ≠ p ++ k := fun h => hk (List.append_cancel_left h)
    simp [hk]

theorem below_remove : (s.remove (p ++ key)).below p = (s.below p).remove key := by
  refine MemoryStore.ext_find (by rfl) fun k => ?_
  rw [find_below, find_remove, find_remove, find_below]
  by_cases hk : key = k
  · simp [hk]
  · simp [hk]

theorem isPrefixOf_append : (p ++ q).isPrefixOf (p ++ key) = q.isPrefixOf key := by
  rw [Bool.eq_iff_iff, List.isPrefixOf_iff_prefix, List.isPrefixOf_iff_prefix,
    List.prefix_append_right_inj]

@[simp] theorem stripKey_append : stripKey p (p ++ key) = key := by
  simp [stripKey]

theorem find_outside_insert (h : ¬ p <+: k) : (s.insert (p ++ key) data).find k = s.find k := by
  rw [find_insert, if_neg]
  rintro rfl
  exact h (List.prefix_append _ _)

theorem find_outside_remove (h : ¬ p <+: k) : (s.remove (p ++ key)).find k = s.find k := by
  rw [find_remove, if_neg]
  rintro rfl
  exact h (List.prefix_append _ _)

theorem under_below : (s.below p).under q = (s.under (p ++ q)).map (Object.relative p) := by
  rw [under_eq, under_eq]
  simp only [MemoryStore.below, List.filter_map, List.filter_filter]
  apply congrArg
  apply List.filter_congr
  intro o _
  by_cases hp : p <+: o.key
  · obtain ⟨r, hr⟩ := hp
    simp [Object.relative, ← hr, isPrefixOf_append]
  · have hno : ¬ p ++ q <+: o.key := fun h => hp ((List.prefix_append p q).trans h)
    rw [← List.isPrefixOf_iff_prefix] at hp hno
    simp [hp, hno]

variable {startAfter : Option Key} {mode : PutMode} {ifVersion : Option Version}

theorem list_below : (s.below p).list q startAfter =
    (s.list (p ++ q) (startAfter.map (p ++ ·))).map (·.strip p) := by
  simp only [MemoryStore.list, under_below, List.filter_map, List.map_map]
  have hkey : ∀ o ∈ s.under (p ++ q), ∃ r, o.key = p ++ r := by
    intro o ho
    obtain ⟨r, hr⟩ := (List.prefix_append p q).trans (mem_under.mp ho).2
    exact ⟨r, hr.symm⟩
  have hfilter : (s.under (p ++ q)).filter ((fun o => startAfter.all (· < o.key)) ∘
      Object.relative p) = (s.under (p ++ q)).filter fun o =>
        (startAfter.map (p ++ ·)).all (· < o.key) := by
    apply List.filter_congr
    intro o ho
    obtain ⟨r, hr⟩ := hkey o ho
    cases startAfter with
    | none => rfl
    | some a => simp [Object.relative, hr, append_lt_append]
  rw [hfilter]
  apply List.map_congr_left
  intro o ho
  obtain ⟨r, hr⟩ := hkey o (List.mem_of_mem_filter ho)
  simp [Object.about, Object.relative, ObjectMeta.strip, hr]

theorem directoryOf_append : directoryOf (p ++ q) (p ++ key) =
      (directoryOf q key).map (p ++ ·) := by
  simp only [directoryOf, List.length_append, ← List.drop_drop, List.drop_left]
  split_ifs <;> simp

theorem dedup_map {ds : List Key} : dedup (ds.map (p ++ ·)) = (dedup ds).map (p ++ ·) := by
  apply Eq.symm
  apply List.map_destutter
  simp

theorem listPrefixes_below : (s.below p).listPrefixes q =
    (s.listPrefixes (p ++ q)).map (stripKey p) := by
  have hdirs : ((s.under (p ++ q)).filterMap fun o => directoryOf (p ++ q) o.key) =
      (((s.below p).under q).filterMap fun o => directoryOf q o.key).map (p ++ ·) := by
    rw [under_below, List.filterMap_map, List.map_filterMap]
    apply List.filterMap_congr
    intro o ho
    obtain ⟨r, hr⟩ := (List.prefix_append p q).trans (mem_under.mp ho).2
    simp [Object.relative, ← hr, directoryOf_append]
  have hcomp : stripKey p ∘ (p ++ ·) = id := funext fun _ => stripKey_append
  rw [MemoryStore.listPrefixes, MemoryStore.listPrefixes, hdirs, dedup_map, List.map_map, hcomp,
    List.map_id]

theorem gather_below {sources : List Key} : s.gather (sources.map (p ++ ·)) =
    ((s.below p).gather sources).mapError (·.below p) := by
  induction sources with
  | nil => rfl
  | cons src sources ih =>
    rw [List.map_cons, MemoryStore.gather, MemoryStore.gather, find_below]
    cases s.find (p ++ src) with
    | none => rfl
    | some o =>
      simp only [Option.map_some, ih]
      cases (s.below p).gather sources with
      | error e => rfl
      | ok data => rfl

theorem head_below : (s.below p).head key = (s.head (p ++ key)).map (·.strip p) := by
  simp only [MemoryStore.head, find_below]
  cases s.find (p ++ key) <;> simp [Object.relative, ObjectMeta.strip]

theorem version_below : ((s.below p).find key).map Object.version =
    (s.find (p ++ key)).map Object.version := by
  rw [find_below]
  cases s.find (p ++ key) <;> rfl

theorem put_below : ((s.below p).put key data mode).1.mapError (·.below p) =
      (s.put (p ++ key) data mode).1.map (·.strip p) ∧
    ((s.below p).put key data mode).2 = (s.put (p ++ key) data mode).2.below p := by
  simp only [MemoryStore.put, version_below]
  split_ifs with hadmit
  · exact ⟨by simp [Except.mapError, Except.map, ObjectMeta.strip, MemoryStore.nextVersion,
      MemoryStore.below], below_insert.symm⟩
  · exact ⟨rfl, rfl⟩

theorem delete_below : ((s.below p).delete key ifVersion).1.mapError (·.below p) =
      (s.delete (p ++ key) ifVersion).1 ∧
    ((s.below p).delete key ifVersion).2 = (s.delete (p ++ key) ifVersion).2.below p := by
  simp only [MemoryStore.delete, find_below]
  cases s.find (p ++ key) with
  | none => cases ifVersion <;> exact ⟨rfl, rfl⟩
  | some o =>
    cases ifVersion with
    | none => exact ⟨rfl, below_remove.symm⟩
    | some want =>
      by_cases hv : o.version = want
      · simp [Object.relative, hv, below_remove, Except.mapError]
      · simp [Object.relative, hv, Except.mapError, StoreError.below]

theorem get_below {opts : GetOptions} : ((s.below p).get key opts).mapError (·.below p) =
    (Prefixed.mk memoryBackend p).get s key opts := by
  simp only [Prefixed.get, Prefixed.full, memoryBackend, MemoryStore.get, find_below]
  cases s.find (p ++ key) with
  | none => rfl
  | some o =>
    simp only [Option.map_some, Object.relative]
    split_ifs
    · rfl
    · rfl
    · cases opts.range with
      | none => simp [Except.mapError, Prefixed.strip]
      | some r =>
        dsimp only
        split_ifs <;> simp [Except.mapError, Prefixed.strip, StoreError.below]

theorem exec_below (c : Call) :
    ((Prefixed.mk memoryBackend p).backend.exec s c).1 =
        (memoryBackend.exec (s.below p) c).1.below p ∧
      ((Prefixed.mk memoryBackend p).backend.exec s c).2.below p =
        (memoryBackend.exec (s.below p) c).2 := by
  cases c with
  | get key opts => exact ⟨congrArg Answer.got get_below.symm, rfl⟩
  | head key => exact ⟨congrArg Answer.headed head_below.symm, rfl⟩
  | put key data mode => exact ⟨congrArg Answer.written put_below.1.symm, put_below.2.symm⟩
  | delete key v => exact ⟨congrArg Answer.deleted delete_below.1.symm, delete_below.2.symm⟩
  | list q a => exact ⟨congrArg Answer.listed list_below.symm, rfl⟩
  | listPrefixes q => exact ⟨congrArg Answer.directories listPrefixes_below.symm, rfl⟩
  | gather sources => exact ⟨congrArg Answer.gathered gather_below, rfl⟩

theorem strip_below {a : Answer} : (a.below q).strip p = (a.strip p).below q := by
  cases a with
  | got r => cases r <;> rfl
  | written r => cases r <;> rfl
  | headed r => rfl
  | deleted r => rfl
  | listed r => rfl
  | directories r => rfl
  | gathered r => rfl

theorem error_below_below {e : StoreError} : (e.below q).below p = e.below (p ++ q) := by
  cases e <;> simp [StoreError.below]

theorem answer_below_below {a : Answer} : (a.below q).below p = a.below (p ++ q) := by
  cases a with
  | got r => cases r <;> simp [Answer.below, Except.mapError, error_below_below]
  | written r => cases r <;> simp [Answer.below, Except.mapError, error_below_below]
  | deleted r => cases r <;> simp [Answer.below, Except.mapError, error_below_below]
  | gathered r => cases r <;> simp [Answer.below, Except.mapError, error_below_below]
  | headed r => rfl
  | listed r => rfl
  | directories r => rfl

theorem below_below : (s.below p).below q = s.below (p ++ q) := by
  refine MemoryStore.ext_find (by rfl) fun k => ?_
  rw [find_below, find_below, find_below, Option.map_map, List.append_assoc]
  cases s.find (p ++ (q ++ k)) <;> simp [Object.relative, ← List.drop_drop]

theorem full_full {c : Call} : (c.full q).full p = c.full (p ++ q) := by
  cases c with
  | list r a => cases a <;> simp [Call.full]
  | _ => simp [Call.full]

theorem exec_nested (c : Call) :
    (Prefixed.mk (Prefixed.mk memoryBackend p).backend q).backend.exec s c =
      (Prefixed.mk memoryBackend (p ++ q)).backend.exec s c := by
  have hanswer : ∀ (s : MemoryStore) (p : Key) (c : Call),
      ((memoryBackend.exec s (c.full p)).1).strip p =
        (memoryBackend.exec (s.below p) c).1.below p := by
    intro s p c
    have h := (exec_below (s := s) (p := p) c).1
    rwa [Prefixed.exec_eq] at h
  rw [Prefixed.exec_eq, Prefixed.exec_eq, Prefixed.exec_eq]
  simp only [full_full, Prod.mk.injEq, and_true]
  rw [hanswer s (p ++ q) c, ← full_full, hanswer s p, strip_below, hanswer, answer_below_below,
    below_below]

theorem exec_outside (c : Call) (h : ¬ p <+: k) :
    ((Prefixed.mk memoryBackend p).backend.exec s c).2.find k = s.find k := by
  cases c with
  | put key data mode =>
    change (s.put (p ++ key) data mode).2.find k = s.find k
    simp only [MemoryStore.put]
    split_ifs
    · exact find_outside_insert h
    · rfl
  | delete key v =>
    change (s.delete (p ++ key) v).2.find k = s.find k
    simp only [MemoryStore.delete]
    split
    · rfl
    · rfl
    · split_ifs
      · rfl
      · exact find_outside_remove h
    · exact find_outside_remove h
  | get key opts => rfl
  | head key => rfl
  | list q a => rfl
  | listPrefixes q => rfl
  | gather sources => rfl

end View

section Tenants

open Notify (RepoId)

variable {g p q k : Key} {s : MemoryStore} {id id' : RepoId}

/-- `open_store`: the store of a process, below the prefix of its configuration. -/
def openStore (g : Key) : Backend MemoryStore :=
  if g = [] then memoryBackend else (Prefixed.mk memoryBackend g).backend

/-- A call on a repository, through the wrapper of its prefix. -/
def serve (g : Key) (s : MemoryStore) (e : RepoId × Call) : Answer × MemoryStore :=
  (Prefixed.mk (openStore g) e.1.storePrefix).backend.exec s e.2

/-- A bucket with the calls on its repositories, in any order. -/
def bucket (g : Key) (s : MemoryStore) :
    List (RepoId × Call) → List (RepoId × Answer) × MemoryStore
  | [] => ([], s)
  | e :: es =>
    ((e.1, (serve g s e).1) :: (bucket g (serve g s e).2 es).1, (bucket g (serve g s e).2 es).2)

/-- What a repository has to do with: its own calls, and versions that others take. -/
inductive Own
  | call (c : Call)
  | others (versions : UInt64)

def MemoryStore.skip (s : MemoryStore) (n : UInt64) : MemoryStore :=
  { s with counter := s.counter + n }

def alone (s : MemoryStore) : List Own → List Answer × MemoryStore
  | [] => ([], s)
  | .call c :: es =>
    let r := memoryBackend.exec s c
    (r.1 :: (alone r.2 es).1, (alone r.2 es).2)
  | .others n :: es => alone (s.skip n) es

def reposDir : Key := "repos/".toList

def RepoId.same (id id' : RepoId) : Bool := id.storePrefix == id'.storePrefix

def ownPart (g : Key) (id : RepoId) (s : MemoryStore) : List (RepoId × Call) → List Own
  | [] => []
  | e :: es =>
    (if RepoId.same e.1 id then .call e.2
      else .others ((serve g s e).2.counter - s.counter)) :: ownPart g id (serve g s e).2 es

def answersOf (id : RepoId) (answers : List (RepoId × Answer)) : List Answer :=
  answers.filterMap fun a => if RepoId.same a.1 id then some a.2 else none

theorem same_iff : RepoId.same id id' ↔ id = id' := by
  rw [RepoId.same, beq_iff_eq]
  refine ⟨fun h => ?_, fun h => by rw [h]⟩
  apply Notify.text_injective.mp
  exact List.append_cancel_right (List.append_cancel_left h)

theorem answersOf_own {a : Answer} {as : List (RepoId × Answer)} :
    answersOf id ((id, a) :: as) = a :: answersOf id as := by
  simp [answersOf, RepoId.same]

theorem answersOf_other {a : Answer} {as : List (RepoId × Answer)} (h : ¬ RepoId.same id' id) :
    answersOf id ((id', a) :: as) = answersOf id as := by
  simp [answersOf, h]

theorem exec_opened (c : Call) : (Prefixed.mk (openStore g) p).backend.exec s c =
    (Prefixed.mk memoryBackend (g ++ p)).backend.exec s c := by
  rw [openStore]
  split_ifs with hg
  · rw [hg, List.nil_append]
  · exact exec_nested c

theorem slash_not_mem {part : Key} {what : String}
    (h : Notify.validatePart part what = .ok ()) : '/' ∉ part :=
  fun hmem => (Notify.validatePart_chars h '/' hmem).2 rfl

theorem segment_eq {a b t t' : Key} (ha : '/' ∉ a) (hb : '/' ∉ b)
    (h : a ++ '/' :: t = b ++ '/' :: t') : a = b ∧ t = t' := by
  have hseg : a = b := by
    rw [← takeWhile_segment (t := t) ha, h, takeWhile_segment hb]
  subst hseg
  exact ⟨rfl, by simpa using h⟩

theorem storePrefix_append : id.storePrefix ++ k =
    reposDir ++ (id.owner ++ '/' :: (id.name ++ '/' :: k)) := by
  have hpre : id.storePrefix = reposDir ++ (id.text ++ ['/']) := rfl
  rw [hpre]
  simp [RepoId.text]

theorem storePrefix_below (h : g ++ id.storePrefix <+: g ++ (id'.storePrefix ++ k)) : id = id' := by
  rw [List.prefix_append_right_inj] at h
  obtain ⟨t, ht⟩ := h
  rw [storePrefix_append, storePrefix_append, List.append_cancel_left_eq] at ht
  obtain ⟨howner, hrest⟩ := segment_eq (slash_not_mem id.owner_valid)
    (slash_not_mem id'.owner_valid) ht
  obtain ⟨hname, -⟩ := segment_eq (slash_not_mem id.name_valid) (slash_not_mem id'.name_valid) hrest
  cases id
  cases id'
  simp_all

theorem serve_other (h : id' ≠ id) (c : Call) :
    (serve g s (id', c)).2.below (g ++ id.storePrefix) =
      (s.below (g ++ id.storePrefix)).skip ((serve g s (id', c)).2.counter - s.counter) := by
  refine MemoryStore.ext_find ?_ fun k => ?_
  · simp [MemoryStore.below, MemoryStore.skip]
  · change _ = (s.below (g ++ id.storePrefix)).find k
    have hout : ¬ g ++ id'.storePrefix <+: g ++ id.storePrefix ++ k := by
      rw [List.append_assoc]
      exact fun hpre => h (storePrefix_below hpre)
    rw [find_below, find_below, serve, exec_opened, exec_outside c hout]

/-- A repository of a bucket with others, whose calls come in between in any order, gets the
answers and has the objects of a store of its own, in which versions are skipped. Its errors name
the keys of the bucket. -/
theorem bucket_alone (g : Key) (s : MemoryStore) (id : RepoId) (es : List (RepoId × Call)) :
    answersOf id (bucket g s es).1 =
        (alone (s.below (g ++ id.storePrefix)) (ownPart g id s es)).1.map
          (Answer.below (g ++ id.storePrefix)) ∧
      (bucket g s es).2.below (g ++ id.storePrefix) =
        (alone (s.below (g ++ id.storePrefix)) (ownPart g id s es)).2 := by
  induction es generalizing s with
  | nil => exact ⟨rfl, rfl⟩
  | cons e es ih =>
    obtain ⟨id', c⟩ := e
    obtain ⟨hanswers, hstore⟩ := ih (serve g s (id', c)).2
    by_cases hid : RepoId.same id' id
    · have hsame := same_iff.mp hid
      subst hsame
      obtain ⟨hanswer, hbelow⟩ := exec_below (s := s) (p := g ++ id'.storePrefix) c
      rw [← exec_opened] at hanswer hbelow
      rw [← serve.eq_def g s (id', c)] at hanswer hbelow
      rw [hbelow] at hanswers hstore
      simp only [bucket, ownPart, alone, hid, if_true, List.map_cons, answersOf_own, hanswers,
        hanswer, hstore, and_self]
    · have hbelow := serve_other (g := g) (s := s) (fun h => hid (same_iff.mpr h)) c
      rw [hbelow] at hanswers hstore
      simp only [bucket, ownPart, hid, answersOf_other hid, hanswers, hstore]
      exact ⟨rfl, rfl⟩

end Tenants

end Walgit.ObjectStore
