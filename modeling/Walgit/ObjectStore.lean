import Walgit.Lib.Decimal
import Walgit.Lib.SortedRanges
import Walgit.Lib.SortedTable
import Walgit.Lib.Stamps

/-!
# The object store

The store in memory is the reference for the other backends: a sorted map whose
versions count the writes. A key is the list of its characters, whose order is
that of the bytes. Whatever a run does, a version that still matches says that
its object was not touched since the write that returned it.
-/

namespace Walgit.ObjectStore

open SortedTable SortedRanges Stamps

abbrev Bytes := List UInt8

abbrev Key := List Char

structure Version where
  text : String
  deriving DecidableEq, Repr

structure ObjectMeta where
  key : Key
  size : ℕ
  version : Version
  deriving DecidableEq, Repr

structure GetOptions where
  ifNoneMatch : Option Version
  ifMatch : Option Version
  range : Option (ℕ × ℕ)
  deriving DecidableEq, Repr

inductive GetResult
  | notModified (version : Version)
  | object (about : ObjectMeta) (body : Bytes)
  deriving DecidableEq, Repr

inductive PutMode
  | overwrite
  | create
  | update (version : Version)
  deriving DecidableEq, Repr

inductive StoreError
  | notFound (key : Key)
  | preconditionFailed (key : Key) (current : Option Version)
  | invalidArgument (text : String)
  deriving DecidableEq, Repr

structure Object where
  key : Key
  version : Version
  data : Bytes
  deriving DecidableEq, Repr

structure MemoryStore where
  objects : List Object
  counter : UInt64
  sorted : Sorted Object.key objects

variable {s : MemoryStore} {o : Object} {key k p after : Key} {v : Version} {data : Bytes}

section Code

def MemoryStore.new : MemoryStore := ⟨[], 0, List.Pairwise.nil⟩

/-- `counter.fetch_add(1)`, whose new value is the version. -/
def MemoryStore.nextVersion (s : MemoryStore) : Version := ⟨toString (s.counter + 1).toNat⟩

def MemoryStore.find (s : MemoryStore) (key : Key) : Option Object :=
  lookup Object.key key s.objects

def Object.about (o : Object) : ObjectMeta := ⟨o.key, o.data.length, o.version⟩

def badRange (r : ℕ × ℕ) (size : ℕ) : String :=
  s!"bad range {r.1}..{r.2} for size {size}"

def MemoryStore.get (s : MemoryStore) (key : Key) (opts : GetOptions) :
    Except StoreError GetResult :=
  match s.find key with
  | none => .error (.notFound key)
  | some o =>
    if opts.ifMatch.any (· ≠ o.version) then .error (.preconditionFailed key (some o.version))
    else if opts.ifNoneMatch = some o.version then .ok (.notModified o.version)
    else
      match opts.range with
      | some r =>
        let start := min r.1 o.data.length
        let stop := min r.2 o.data.length
        if stop < start then .error (.invalidArgument (badRange r o.data.length))
        else .ok (.object ⟨key, o.data.length, o.version⟩ ((o.data.drop start).take (stop - start)))
      | none => .ok (.object ⟨key, o.data.length, o.version⟩ o.data)

def MemoryStore.head (s : MemoryStore) (key : Key) : Option ObjectMeta :=
  (s.find key).map fun o => ⟨key, o.data.length, o.version⟩

/-- Whether a write is let through by what is at its key. -/
def PutMode.admits : PutMode → Option Version → Bool
  | .overwrite, _ => true
  | .create, current => current.isNone
  | .update want, current => current == some want

def MemoryStore.insert (s : MemoryStore) (key : Key) (data : Bytes) : MemoryStore :=
  ⟨SortedTable.put Object.key ⟨key, s.nextVersion, data⟩ s.objects, s.counter + 1, s.sorted.put⟩

def MemoryStore.put (s : MemoryStore) (key : Key) (data : Bytes) (mode : PutMode) :
    Except StoreError ObjectMeta × MemoryStore :=
  let current := (s.find key).map Object.version
  if mode.admits current then (.ok ⟨key, data.length, s.nextVersion⟩, s.insert key data)
  else (.error (.preconditionFailed key current), s)

def MemoryStore.remove (s : MemoryStore) (key : Key) : MemoryStore :=
  ⟨SortedTable.delete Object.key key s.objects, s.counter, s.sorted.delete⟩

def MemoryStore.delete (s : MemoryStore) (key : Key) (ifVersion : Option Version) :
    Except StoreError Unit × MemoryStore :=
  match s.find key, ifVersion with
  | none, none => (.ok (), s)
  | none, some _ => (.error (.notFound key), s)
  | some o, some want =>
    if o.version ≠ want then (.error (.preconditionFailed key (some o.version)), s)
    else (.ok (), s.remove key)
  | some _, none => (.ok (), s.remove key)

/-- `range(prefix..)` as long as the keys start with the prefix. -/
def MemoryStore.under (s : MemoryStore) (p : Key) : List Object :=
  (s.objects.dropWhile fun o => o.key < p).takeWhile fun o => p.isPrefixOf o.key

def MemoryStore.list (s : MemoryStore) (p : Key) (startAfter : Option Key) : List ObjectMeta :=
  ((s.under p).filter fun o => startAfter.all (· < o.key)).map Object.about

/-- The directory below the prefix that a key is in, when it is not directly below it. -/
def directoryOf (p key : Key) : Option Key :=
  let rest := key.drop p.length
  if '/' ∈ rest then some (p ++ rest.takeWhile (· ≠ '/') ++ ['/']) else none

/-- `dedup` drops what equals the element kept before it. -/
def dedup (dirs : List Key) : List Key := dirs.destutter (· ≠ ·)

def MemoryStore.listPrefixes (s : MemoryStore) (p : Key) : List Key :=
  dedup ((s.under p).filterMap fun o => directoryOf p o.key)

/-- The first step of `compose`: the sources are read under one lock. -/
def MemoryStore.gather (s : MemoryStore) : List Key → Except StoreError Bytes
  | [] => .ok []
  | src :: sources =>
    match s.find src with
    | none => .error (.notFound src)
    | some o =>
      match s.gather sources with
      | .error e => .error e
      | .ok data => .ok (o.data ++ data)

def MemoryStore.compose (s : MemoryStore) (dest : Key) (sources : List Key) (mode : PutMode) :
    Except StoreError ObjectMeta × MemoryStore :=
  match s.gather sources with
  | .error e => (.error e, s)
  | .ok data => s.put dest data mode

/-- What happens under one lock of the store. -/
inductive Op
  | get (key : Key) (opts : GetOptions)
  | head (key : Key)
  | put (key : Key) (data : Bytes) (mode : PutMode)
  | delete (key : Key) (ifVersion : Option Version)
  | list (p : Key) (startAfter : Option Key)
  | listPrefixes (p : Key)
  | gather (sources : List Key)

def MemoryStore.step (s : MemoryStore) : Op → MemoryStore
  | .put key data mode => (s.put key data mode).2
  | .delete key ifVersion => (s.delete key ifVersion).2
  | _ => s

def MemoryStore.run (s : MemoryStore) (ops : List Op) : MemoryStore := ops.foldl MemoryStore.step s

end Code

section Runs

/-- The writes and removals that are let through. -/
def change (s : MemoryStore) : Op → Change Key Bytes
  | .put key data mode =>
    match (s.put key data mode).1 with
    | .ok _ => .write key data
    | .error _ => .none
  | .delete key ifVersion =>
    match (s.delete key ifVersion).1 with
    | .ok _ => .remove key
    | .error _ => .none
  | _ => .none

def changes : MemoryStore → List Op → List (Change Key Bytes)
  | _, [] => []
  | s, op :: ops => change s op :: changes (s.step op) ops

/-- No operation on the key was let through. -/
def Untouched (key : Key) (s : MemoryStore) (ops : List Op) : Prop :=
  ∀ c ∈ changes s ops, ¬ c.On key

theorem step_cases (s : MemoryStore) (op : Op) :
    (change s op = .none ∧ s.step op = s) ∨
      (∃ key data, change s op = .write key data ∧ s.step op = s.insert key data) ∨
      ∃ key, change s op = .remove key ∧
        (s.step op = s.remove key ∨ (s.find key = none ∧ s.step op = s)) := by
  cases op with
  | put key data mode =>
    simp only [change, MemoryStore.step, MemoryStore.put]
    split_ifs
    · exact .inr (.inl ⟨key, data, rfl, rfl⟩)
    · exact .inl ⟨rfl, rfl⟩
  | delete key v =>
    simp only [change, MemoryStore.step, MemoryStore.delete]
    cases hfind : s.find key with
    | none =>
      cases v with
      | none => exact .inr (.inr ⟨key, rfl, .inr ⟨hfind, rfl⟩⟩)
      | some want => exact .inl ⟨rfl, rfl⟩
    | some o =>
      cases v with
      | none => exact .inr (.inr ⟨key, rfl, .inl rfl⟩)
      | some want =>
        by_cases hv : o.version = want
        · simp [hv]
        · simp [hv]
  | get key opts => exact .inl ⟨rfl, rfl⟩
  | head key => exact .inl ⟨rfl, rfl⟩
  | list p startAfter => exact .inl ⟨rfl, rfl⟩
  | listPrefixes p => exact .inl ⟨rfl, rfl⟩
  | gather sources => exact .inl ⟨rfl, rfl⟩

def versionOf (n : ℕ) : Version := ⟨toString n⟩

/-- The stamp of an object is the number that its version is the text of. -/
structure Refines (s : MemoryStore) (t : Stamped Key Bytes) : Prop where
  counter : s.counter.toNat = t.clock
  find : ∀ key, s.find key = (t.entries key).map fun e => ⟨key, versionOf e.1, e.2⟩

theorem versionOf_inj {n m : ℕ} : versionOf n = versionOf m ↔ n = m := by
  refine ⟨fun h => ?_, fun h => by rw [h]⟩
  apply Decimal.nat_text_inj
  have htext := congrArg Version.text h
  simp only [versionOf] at htext
  rw [htext]

@[simp] theorem find_new : MemoryStore.new.find key = none := rfl

theorem find_insert : (s.insert key data).find k =
    if key = k then some ⟨key, s.nextVersion, data⟩ else s.find k := by
  simp [MemoryStore.find, MemoryStore.insert, lookup_put]

theorem find_remove : (s.remove key).find k = if key = k then none else s.find k := by
  simp [MemoryStore.find, MemoryStore.remove, lookup_delete]

theorem refines_new : Refines MemoryStore.new .empty :=
  ⟨by simp [MemoryStore.new, Stamped.empty], fun _ => by simp [Stamped.empty]⟩

variable {t : Stamped Key Bytes} {op : Op} {ops : List Op} {mode : PutMode}

theorem Refines.insert (h : Refines s t) (hroom : t.clock + 1 < 2 ^ 64) :
    Refines (s.insert key data) (t.apply (.write key data)) := by
  have hnext : (s.counter + 1).toNat = t.clock + 1 := by
    rw [UInt64.toNat_add, h.counter]
    exact Nat.mod_eq_of_lt hroom
  refine ⟨by simpa [MemoryStore.insert, Stamped.apply] using hnext, fun k => ?_⟩
  rw [find_insert]
  by_cases hk : key = k
  · subst hk
    simp [Stamped.apply, MemoryStore.nextVersion, hnext, versionOf]
  · have hne : k ≠ key := fun he => hk he.symm
    simp [Stamped.apply, hk, hne, h.find]

theorem Refines.remove (h : Refines s t) : Refines (s.remove key) (t.apply (.remove key)) := by
  refine ⟨by simpa [MemoryStore.remove, Stamped.apply] using h.counter, fun k => ?_⟩
  rw [find_remove]
  by_cases hk : key = k
  · subst hk
    simp [Stamped.apply]
  · have hne : k ≠ key := fun he => hk he.symm
    simp [Stamped.apply, hk, hne, h.find]

theorem Refines.absent (h : Refines s t) (hnone : s.find key = none) :
    Refines s (t.apply (.remove key)) := by
  refine ⟨by simpa [Stamped.apply] using h.counter, fun k => ?_⟩
  by_cases hk : k = key
  · subst hk
    simp [Stamped.apply, hnone]
  · simp [Stamped.apply, hk, h.find]

theorem Refines.step (h : Refines s t) (hroom : t.clock + 1 < 2 ^ 64) (op : Op) :
    Refines (s.step op) (t.apply (change s op)) := by
  rcases step_cases s op with ⟨hc, hs⟩ | ⟨key, data, hc, hs⟩ | ⟨key, hc, hs | ⟨hnone, hs⟩⟩
  · rw [hc, hs]
    exact h
  · rw [hc, hs]
    exact h.insert hroom
  · rw [hc, hs]
    exact h.remove
  · rw [hc, hs]
    exact h.absent hnone

theorem Refines.run (h : Refines s t) (hroom : t.clock + ops.length < 2 ^ 64) :
    Refines (s.run ops) (t.run (changes s ops)) := by
  induction ops generalizing s t with
  | nil => exact h
  | cons op ops ih =>
    rw [List.length_cons] at hroom
    have hclock := t.clock_apply_le (c := change s op)
    exact ih (h.step (by omega) op) (by omega)

theorem clock_changes_le (t : Stamped Key Bytes) (s : MemoryStore) (ops : List Op) :
    (t.run (changes s ops)).clock ≤ t.clock + ops.length := by
  induction ops generalizing s t with
  | nil => exact Nat.le_refl _
  | cons op ops ih =>
    have hone := t.clock_apply_le (c := change s op)
    have hrest := ih (t.apply (change s op)) (s.step op)
    rw [changes, Stamped.run_cons, List.length_cons]
    omega

/-- The object a write left is there exactly as long as its version is. -/
theorem Refines.find_iff (h : Refines s t) (ops : List Op) (hroom : t.clock + ops.length < 2 ^ 64)
    {n : ℕ}
    (hfind : t.entries key = some (n, data)) :
    ((s.run ops).find key = some ⟨key, versionOf n, data⟩ ↔ Untouched key s ops) ∧
      (((s.run ops).find key).map Object.version = some (versionOf n) ↔ Untouched key s ops) := by
  have hrun := (h.run hroom).find key
  have hiff : (∃ w, (t.run (changes s ops)).entries key = some (n, w)) ↔
      ∀ c ∈ changes s ops, ¬ c.On key := stamp_iff_untouched hfind
  have hdata : Untouched key s ops → (s.run ops).find key = some ⟨key, versionOf n, data⟩ := by
    intro hu
    rw [hrun, Stamped.entries_of_untouched hu, hfind]
    rfl
  have hversion : ((s.run ops).find key).map Object.version = some (versionOf n) →
      Untouched key s ops := by
    intro hv
    apply hiff.mp
    rw [hrun] at hv
    cases he : (t.run (changes s ops)).entries key with
    | none => simp [he] at hv
    | some e =>
      simp only [he, Option.map_some, Option.some.injEq, versionOf_inj] at hv
      exact ⟨e.2, by rw [← hv]⟩
  exact ⟨⟨fun hf => hversion (by rw [hf]; rfl), hdata⟩,
    ⟨hversion, fun hu => by rw [hdata hu]; rfl⟩⟩

theorem put_update_ok : (∃ about, (s.put key data (.update v)).1 = .ok about) ↔
    (s.find key).map Object.version = some v := by
  simp only [MemoryStore.put, PutMode.admits, beq_iff_eq]
  split_ifs with h <;> simp [h]

theorem delete_ok : (s.delete key (some v)).1 = .ok () ↔
    (s.find key).map Object.version = some v := by
  simp only [MemoryStore.delete]
  cases s.find key with
  | none => simp
  | some o => by_cases h : o.version = v <;> simp [h]

theorem get_notModified : s.get key ⟨some v, none, none⟩ = .ok (.notModified v) ↔
    (s.find key).map Object.version = some v := by
  simp only [MemoryStore.get]
  cases s.find key with
  | none => simp
  | some o =>
    by_cases h : v = o.version
    · simp [h]
    · simp [h, Ne.symm h]

theorem get_ifMatch (hkey : ∀ o, s.find key = some o → o.key = key) :
    s.get key ⟨none, some v, none⟩ = .ok (.object ⟨key, data.length, v⟩ data) ↔
      s.find key = some ⟨key, v, data⟩ := by
  simp only [MemoryStore.get]
  cases hfind : s.find key with
  | none => simp
  | some o =>
    by_cases h : v = o.version
    · have hk := hkey o hfind
      subst h
      cases o
      simp_all
    · cases o
      simp_all
      grind

theorem key_of_find (h : s.find key = some o) : o.key = key := by
  have := List.find?_some h
  simpa using this

theorem written_refines {before : List Op} {about : ObjectMeta} (hroom : before.length + 1 < 2 ^ 64)
    (hput : ((MemoryStore.new.run before).put key data mode).1 = .ok about) :
    ∃ t, Refines ((MemoryStore.new.run before).step (.put key data mode)) t ∧
      about = ⟨key, data.length, versionOf t.clock⟩ ∧ t.entries key = some (t.clock, data) ∧
      t.clock ≤ before.length + 1 := by
  have hbefore : Refines (MemoryStore.new.run before)
      (Stamped.empty.run (changes MemoryStore.new before)) :=
    refines_new.run (by simp [Stamped.empty]; omega)
  have hclock : (Stamped.empty.run (changes MemoryStore.new before)).clock ≤ before.length := by
    simpa [Stamped.empty] using clock_changes_le .empty MemoryStore.new before
  have hok : mode.admits (((MemoryStore.new.run before).find key).map Object.version) := by
    by_contra hno
    simp [MemoryStore.put, hno] at hput
  refine ⟨_, hbefore.step (by omega) (.put key data mode), ?_⟩
  have hnext := hbefore.counter
  have hcounter : ((MemoryStore.new.run before).counter + 1).toNat =
      (Stamped.empty.run (changes MemoryStore.new before)).clock + 1 := by
    rw [UInt64.toNat_add, hnext, UInt64.toNat_one]
    apply Nat.mod_eq_of_lt
    omega
  simp only [MemoryStore.put, hok, if_true, Except.ok.injEq] at hput
  simp only [change, MemoryStore.put, hok, if_true, Stamped.apply, Function.update_self]
  refine ⟨?_, trivial, by omega⟩
  rw [← hput, MemoryStore.nextVersion, hcounter, versionOf]

/-- A version names the write that returned it: whatever a run does in between, a conditional
write, a conditional removal and a conditional read by this version go through exactly when no
operation on the key did, and the read gives the bytes of that write. -/
theorem version_names_write (before ops : List Op) (key : Key) (data data' : Bytes) (mode : PutMode)
    (about : ObjectMeta) (hroom : before.length + ops.length + 1 < 2 ^ 64)
    (hput : ((MemoryStore.new.run before).put key data mode).1 = .ok about) :
    let written := (MemoryStore.new.run before).step (.put key data mode)
    let later := written.run ops
    ((∃ m, (later.put key data' (.update about.version)).1 = .ok m) ↔ Untouched key written ops) ∧
      ((later.delete key (some about.version)).1 = .ok () ↔ Untouched key written ops) ∧
      (later.get key ⟨some about.version, none, none⟩ = .ok (.notModified about.version) ↔
        Untouched key written ops) ∧
      (later.get key ⟨none, some about.version, none⟩ = .ok (.object about data) ↔
        Untouched key written ops) := by
  intro written later
  obtain ⟨t, ht, habout, hentry, hclock⟩ := written_refines (by omega) hput
  have hfind := ht.find_iff ops (by omega) hentry
  have hversion : (later.find key).map Object.version = some about.version ↔
      Untouched key written ops := by
    rw [habout]
    exact hfind.2
  refine ⟨put_update_ok.trans hversion, delete_ok.trans hversion,
    get_notModified.trans hversion, ?_⟩
  rw [habout, get_ifMatch fun o => key_of_find]
  exact hfind.1

/-- Another key is written, and the version still names the first write. -/
theorem version_names_write_first :
    let written := (MemoryStore.new.run []).step (.put ['a'] [1] .create)
    let ops := [Op.put ['b'] [2] .create]
    let later := written.run ops
    ((∃ m, (later.put ['a'] [3] (.update ⟨"1"⟩)).1 = .ok m) ↔ Untouched ['a'] written ops) ∧
      ((later.delete ['a'] (some ⟨"1"⟩)).1 = .ok () ↔ Untouched ['a'] written ops) ∧
      (later.get ['a'] ⟨some ⟨"1"⟩, none, none⟩ = .ok (.notModified ⟨"1"⟩) ↔
        Untouched ['a'] written ops) ∧
      (later.get ['a'] ⟨none, some ⟨"1"⟩, none⟩ = .ok (.object ⟨['a'], 1, ⟨"1"⟩⟩ [1]) ↔
        Untouched ['a'] written ops) :=
  version_names_write [] [.put ['b'] [2] .create] ['a'] [1] [3] .create ⟨['a'], 1, ⟨"1"⟩⟩
    (by decide)
    rfl

end Runs

section Listing

variable {xs : List Object} {d e seg : Key} {ds : List Key}

theorem takeWhile_eq_filter (h : Sorted Object.key xs) (hle : ∀ o ∈ xs, ¬ o.key < p) :
    xs.takeWhile (fun o => p.isPrefixOf o.key) = xs.filter fun o => p.isPrefixOf o.key := by
  induction xs with
  | nil => rfl
  | cons o xs ih =>
    obtain ⟨hlt, hsorted⟩ := List.pairwise_cons.mp h
    rw [List.forall_mem_cons] at hle
    by_cases ho : p.isPrefixOf o.key
    · simp only [List.takeWhile_cons, List.filter_cons, ho, if_true, ih hsorted hle.2]
    · -- a later key with the prefix would put the prefix on this one too
      have hnone : ∀ x ∈ xs, ¬ p.isPrefixOf x.key := by
        intro x hx hp
        apply ho
        rw [List.isPrefixOf_iff_prefix] at hp ⊢
        exact prefix_of_le (hlt x hx) hp hle.1
      simp [ho, List.filter_eq_nil_iff.mpr hnone]

theorem under_eq : s.under p = s.objects.filter fun o => p.isPrefixOf o.key := by
  have hrange : ∀ xs, Sorted Object.key xs →
      ((xs.dropWhile fun o => o.key < p).takeWhile fun o => p.isPrefixOf o.key) =
        xs.filter fun o => p.isPrefixOf o.key := by
    intro xs hsorted
    induction xs with
    | nil => rfl
    | cons o xs ih =>
      obtain ⟨hlt, htail⟩ := List.pairwise_cons.mp hsorted
      by_cases ho : o.key < p
      · have hno : ¬ p.isPrefixOf o.key := fun hp =>
          not_lt_of_prefix (List.isPrefixOf_iff_prefix.mp hp) ho
        simp only [List.dropWhile_cons, List.filter_cons, decide_eq_true ho, hno, if_true,
          ih htail]
        simp
      · simp only [List.dropWhile_cons, decide_eq_false ho]
        apply takeWhile_eq_filter hsorted
        rw [List.forall_mem_cons]
        exact ⟨ho, fun x hx hxp => ho ((hlt x hx).trans hxp)⟩
  exact hrange s.objects s.sorted

theorem mem_under : o ∈ s.under p ↔ o ∈ s.objects ∧ p <+: o.key := by
  simp [under_eq]

theorem find_of_mem (h : o ∈ s.objects) : s.find o.key = some o := by
  have hsorted := s.sorted
  simp only [MemoryStore.find]
  generalize s.objects = xs at h hsorted
  induction xs with
  | nil => simp at h
  | cons x xs ih =>
    rw [lookup_cons]
    rcases List.mem_cons.mp h with rfl | hmem
    · simp
    · have hne : x.key ≠ o.key := ne_of_lt ((List.pairwise_cons.mp hsorted).1 o hmem)
      rw [if_neg hne]
      exact ih hmem hsorted.tail

theorem list_exact (s : MemoryStore) (p : Key) (startAfter : Option Key) :
    (∀ m, m ∈ s.list p startAfter ↔ s.head m.key = some m ∧ p <+: m.key ∧
      ∀ a ∈ startAfter, a < m.key) ∧
      (s.list p startAfter).Pairwise fun m n => m.key < n.key := by
  refine ⟨fun m => ?_, ?_⟩
  · simp only [MemoryStore.list, List.mem_map, List.mem_filter, mem_under, MemoryStore.head,
      Option.map_eq_some_iff, Option.all_eq_true, decide_eq_true_eq]
    constructor
    · rintro ⟨o, ⟨⟨hmem, hp⟩, hafter⟩, rfl⟩
      exact ⟨⟨o, find_of_mem hmem, rfl⟩, hp, hafter⟩
    · rintro ⟨⟨o, hfind, hm⟩, hp, hafter⟩
      have hkey := key_of_find hfind
      refine ⟨o, ⟨⟨mem_of_lookup hfind, ?_⟩, ?_⟩, ?_⟩
      · rwa [hkey]
      · rwa [hkey]
      · rw [← hm, Object.about, hkey]
  · rw [MemoryStore.list, List.pairwise_map, under_eq]
    exact (s.sorted.filter _).filter _

theorem takeWhile_segment {t : Key} (h : '/' ∉ seg) :
    (seg ++ '/' :: t).takeWhile (· ≠ '/') = seg := by
  rw [List.takeWhile_append_of_pos]
  · simp
  · intro c hc
    rw [decide_eq_true_eq]
    rintro rfl
    exact h hc

theorem directoryOf_eq (h : p <+: key) : directoryOf p key = some d ↔
    ∃ seg, '/' ∉ seg ∧ d = p ++ seg ++ ['/'] ∧ d <+: key := by
  obtain ⟨rest, rfl⟩ := h
  simp only [directoryOf, List.drop_left]
  constructor
  · intro hd
    split_ifs at hd with hslash
    · obtain ⟨seg, t, rfl, hseg⟩ := List.eq_append_cons_of_mem hslash
      rw [takeWhile_segment hseg, Option.some.injEq] at hd
      refine ⟨seg, hseg, hd.symm, t, ?_⟩
      simp [← hd]
  · rintro ⟨seg, hseg, rfl, t, ht⟩
    have hrest : rest = seg ++ '/' :: t := by
      simpa [List.append_assoc] using ht.symm
    rw [hrest, takeWhile_segment hseg]
    simp

theorem directoryOf_below (h : p <+: key) (hd : directoryOf p key = some d) : d <+: key := by
  obtain ⟨seg, -, -, hpre⟩ := (directoryOf_eq h).mp hd
  exact hpre

theorem directoryOf_le (hlt : k < key) (hk : p <+: k) (hkey : p <+: key)
    (hd : directoryOf p k = some d) (he : directoryOf p key = some e) : d ≤ e := by
  by_contra hnot
  have hed : e < d := not_le.mp hnot
  have hle : ¬ k < e := fun h => not_lt_of_prefix (directoryOf_below hk hd) (h.trans hed)
  obtain ⟨seg, hseg, rfl, hpre⟩ := (directoryOf_eq hkey).mp he
  -- the later directory is then also a prefix of the earlier key
  have hboth := (directoryOf_eq hk).mpr ⟨seg, hseg, rfl, prefix_of_le hlt hpre hle⟩
  rw [hd, Option.some.injEq] at hboth
  exact absurd hed (hboth ▸ lt_irrefl _)

theorem pairwise_directories :
    ((s.under p).filterMap fun o => directoryOf p o.key).Pairwise (· ≤ ·) := by
  rw [List.pairwise_filterMap, under_eq]
  apply List.Pairwise.imp_of_mem _ (s.sorted.filter _)
  intro a b ha hb hlt d hd e he
  simp only [List.mem_filter, List.isPrefixOf_iff_prefix] at ha hb
  exact directoryOf_le hlt ha.2 hb.2 hd he

theorem listPrefixes_eq :
    s.listPrefixes p = ((s.under p).filterMap fun o => directoryOf p o.key).dedup :=
  List.Pairwise.destutter_eq_dedup pairwise_directories

/-- A delimited listing has each directory below the prefix that some key is in, once and in
order, although only neighbours are compared. -/
theorem listPrefixes_exact (s : MemoryStore) (p : Key) :
    (∀ d, d ∈ s.listPrefixes p ↔ ∃ seg, '/' ∉ seg ∧ d = p ++ seg ++ ['/'] ∧
      ∃ o ∈ s.objects, d <+: o.key) ∧
      (s.listPrefixes p).Pairwise (· < ·) := by
  constructor
  · intro d
    rw [listPrefixes_eq, List.mem_dedup, List.mem_filterMap]
    constructor
    · rintro ⟨o, ho, hd⟩
      rw [mem_under] at ho
      obtain ⟨seg, hseg, hdir, hpre⟩ := (directoryOf_eq ho.2).mp hd
      exact ⟨seg, hseg, hdir, o, ho.1, hpre⟩
    · rintro ⟨seg, hseg, hdir, o, ho, hpre⟩
      have hp : p <+: o.key := by
        apply List.IsPrefix.trans _ hpre
        rw [hdir, List.append_assoc]
        exact List.prefix_append _ _
      exact ⟨o, mem_under.mpr ⟨ho, hp⟩, (directoryOf_eq hp).mpr ⟨seg, hseg, hdir, hpre⟩⟩
  · have hsub : (s.listPrefixes p).Sublist
        ((s.under p).filterMap fun o => directoryOf p o.key) := List.destutter_sublist _ _
    have hle := pairwise_directories.sublist hsub
    have hnodup : (s.listPrefixes p).Nodup := by
      rw [listPrefixes_eq]
      exact List.nodup_dedup _
    exact (hle.and hnodup).imp fun h => lt_of_le_of_ne h.1 h.2

end Listing

end Walgit.ObjectStore
