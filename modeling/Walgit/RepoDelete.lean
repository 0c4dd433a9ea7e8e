import Walgit.PrefixedStore

/-!
# The deletion of a repository

The manifest goes first. What is left below the prefix is then listed and
removed, and listed again after the last key seen until nothing is listed. Others
use the bucket in between, also below the prefix.
-/

namespace Walgit.ObjectStore

open SortedTable Stamps

variable {p k key : Key} {s : MemoryStore} {op : Op}

section Code

/-- Where a deletion stands. A listing is removed key by key, and its last key is kept. -/
inductive DeletePhase
  | start
  | found
  | listing (after : Option Key)
  | removing (queue : List Key) (last : Key)
  | done
  | missing
  deriving DecidableEq, Repr

def manifestName : Key := "manifest.pb".toList

def wrapper (p : Key) : Prefixed MemoryStore := ⟨memoryBackend, p⟩

def deleteStep (p : Key) (s : MemoryStore) : DeletePhase → DeletePhase × MemoryStore
  | .start =>
    match (wrapper p).get s manifestName ⟨none, none, none⟩ with
    | .ok _ => (.found, s)
    | .error _ => (.missing, s)
  | .found => (.listing none, ((wrapper p).delete s manifestName none).2)
  | .listing after =>
    match (wrapper p).list s [] after with
    | [] => (.done, s)
    | m :: ms => (.removing ((m :: ms).map ObjectMeta.key) (ms.getLastD m).key, s)
  | .removing (k :: queue) last => (.removing queue last, ((wrapper p).delete s k none).2)
  | .removing [] last => (.listing (some last), s)
  | .done => (.done, s)
  | .missing => (.missing, s)

end Code

section Runs

/-- A deletion among others. `wrote` are the keys that others wrote since the manifest was removed,
and `changed` those they wrote or removed since the start. -/
structure Deleting where
  phase : DeletePhase
  store : MemoryStore
  wrote : List Key
  changed : List Key

inductive DeleteEvent
  | own
  | other (op : Op)

def writtenBy (s : MemoryStore) (op : Op) : List Key :=
  match change s op with
  | .write k _ => [k]
  | _ => []

def changedBy (s : MemoryStore) (op : Op) : List Key :=
  match change s op with
  | .write k _ => [k]
  | .remove k => [k]
  | .none => []

def Deleting.step (p : Key) (d : Deleting) : DeleteEvent → Deleting
  | .own =>
    ⟨(deleteStep p d.store d.phase).1, (deleteStep p d.store d.phase).2,
      if d.phase = .found then [] else d.wrote, d.changed⟩
  | .other op =>
    ⟨d.phase, d.store.step op, writtenBy d.store op ++ d.wrote, changedBy d.store op ++ d.changed⟩

def Deleting.run (p : Key) (d : Deleting) (es : List DeleteEvent) : Deleting :=
  es.foldl (Deleting.step p) d

def Deleting.begin (s : MemoryStore) : Deleting := ⟨.start, s, [], []⟩

variable {d : Deleting} {es : List DeleteEvent}

theorem find_step (h : k ∉ changedBy s op) : (s.step op).find k = s.find k := by
  rcases step_cases s op with ⟨-, hs⟩ | ⟨key, data, hc, hs⟩ | ⟨key, hc, hs | ⟨-, hs⟩⟩
  · rw [hs]
  · have hne : key ≠ k := fun he => h (by simp [changedBy, hc, he])
    rw [hs, find_insert, if_neg hne]
  · have hne : key ≠ k := fun he => h (by simp [changedBy, hc, he])
    rw [hs, find_remove, if_neg hne]
  · rw [hs]

/-- What others do not write is not there afterwards unless it was before. -/
theorem find_step_none (h : k ∉ writtenBy s op) (hs : s.find k = none) :
    (s.step op).find k = none := by
  rcases step_cases s op with ⟨-, he⟩ | ⟨key, data, hc, he⟩ | ⟨key, hc, he | ⟨-, he⟩⟩
  · rw [he, hs]
  · have hne : key ≠ k := fun he => h (by simp [writtenBy, hc, he])
    rw [he, find_insert, if_neg hne, hs]
  · rw [he, find_remove, hs, ite_self]
  · rw [he, hs]

/-- Below the prefix there is nothing but what others wrote, and what is still to be removed. -/
def Deleting.Left (p : Key) (d : Deleting) (rest : List Key) : Prop :=
  ∀ k, k ∉ rest → p ++ k ∉ d.wrote → d.store.find (p ++ k) = none

def Deleting.Inv (p : Key) (d : Deleting) : Prop :=
  match d.phase with
  | .listing (some _) => d.Left p []
  | .removing queue _ => d.Left p queue
  | .done => d.Left p []
  | _ => True

theorem find_delete : (s.delete key none).2.find k = if key = k then none else s.find k := by
  simp only [MemoryStore.delete]
  cases hfind : s.find key with
  | none =>
    by_cases hk : key = k
    · subst hk
      simp [hfind]
    · simp [hk]
  | some o => exact find_remove

theorem mem_keys_list (after : Option Key) (hk : s.find (p ++ k) ≠ none) (ha : ∀ a ∈ after, a < k) :
    k ∈ ((wrapper p).list s [] after).map ObjectMeta.key := by
  have hlist : (wrapper p).list s [] after = (s.below p).list [] after := list_below.symm
  have hfind : ∃ o, (s.below p).find k = some o := by
    rw [find_below]
    simpa [Option.ne_none_iff_exists'] using hk
  obtain ⟨o, ho⟩ := hfind
  rw [hlist]
  refine List.mem_map.mpr ⟨⟨k, o.data.length, o.version⟩, ?_, rfl⟩
  refine ((list_exact _ _ _).1 _).mpr ⟨?_, List.nil_prefix, ha⟩
  simp [MemoryStore.head, ho]

theorem Deleting.Left.other {rest : List Key} (h : d.Left p rest) :
    (d.step p (.other op)).Left p rest := by
  intro k hk hwrote
  simp only [Deleting.step, List.mem_append, not_or] at hwrote
  exact find_step_none hwrote.1 (h k hk hwrote.2)

theorem Deleting.Left.none_left (after : Option Key) {rest : List Key}
    (h : (wrapper p).list d.store [] after = []) (ha : ∀ a ∈ after, d.Left p []) :
    d.Left p rest := by
  intro k _ hwrote
  cases after with
  | some a => exact ha a rfl k List.not_mem_nil hwrote
  | none =>
    by_contra hk
    have hmem := mem_keys_list none hk (by simp)
    simp [h] at hmem

theorem Deleting.Inv.own (h : d.Inv p) : (d.step p .own).Inv p := by
  obtain ⟨phase, store, wrote, changed⟩ := d
  cases phase with
  | start =>
    simp only [Deleting.step, deleteStep]
    split <;> trivial
  | found => trivial
  | listing after =>
    simp only [Deleting.step, deleteStep]
    split
    · next hnil =>
      refine Left.none_left after hnil fun a ha => ?_
      rw [Option.mem_def] at ha
      subst ha
      exact h
    · next m ms hlist =>
      change Left p ⟨_, store, wrote, changed⟩ ((m :: ms).map ObjectMeta.key)
      intro k hk hwrote
      cases after with
      | some a => exact h k List.not_mem_nil hwrote
      | none =>
        by_contra hfind
        have hmem := mem_keys_list none hfind (by simp)
        rw [hlist] at hmem
        exact hk hmem
  | removing queue last =>
    cases queue with
    | nil => exact h
    | cons k queue =>
      intro k' hk' hwrote
      change (store.delete (p ++ k) none).2.find (p ++ k') = none
      rw [find_delete]
      split_ifs with he
      · rfl
      · have hne : k' ∉ k :: queue := by
          rw [List.mem_cons, not_or]
          exact ⟨fun hkk => he (by rw [hkk]), hk'⟩
        exact h k' hne hwrote
  | done => exact h
  | missing => trivial

theorem Deleting.Inv.other (h : d.Inv p) : (d.step p (.other op)).Inv p := by
  obtain ⟨phase, store, wrote, changed⟩ := d
  cases phase with
  | listing after =>
    cases after with
    | none => trivial
    | some a => exact Left.other (d := ⟨.listing (some a), store, wrote, changed⟩) h
  | removing queue last => exact Left.other (d := ⟨.removing queue last, store, wrote, changed⟩) h
  | done => exact Left.other (d := ⟨.done, store, wrote, changed⟩) h
  | start => trivial
  | found => trivial
  | missing => trivial

theorem Deleting.Inv.run (h : d.Inv p) : (d.run p es).Inv p := by
  induction es generalizing d with
  | nil => exact h
  | cons e es ih =>
    cases e with
    | own => exact ih h.own
    | other op => exact ih h.other

theorem outside_step {e : DeleteEvent} (hp : ¬ p <+: k) (h : k ∉ (d.step p e).changed) :
    k ∉ d.changed ∧ (d.step p e).store.find k = d.store.find k := by
  cases e with
  | other op =>
    simp only [Deleting.step, List.mem_append, not_or] at h
    exact ⟨h.2, find_step h.1⟩
  | own =>
    have hdelete : ∀ key, (d.store.delete (p ++ key) none).2.find k = d.store.find k := by
      intro key
      rw [find_delete, if_neg]
      rintro rfl
      exact hp (List.prefix_append _ _)
    refine ⟨h, ?_⟩
    simp only [Deleting.step]
    cases d.phase with
    | start => simp only [deleteStep]; split <;> rfl
    | found => exact hdelete _
    | listing after => simp only [deleteStep]; split <;> rfl
    | removing queue last =>
      cases queue with
      | nil => rfl
      | cons key queue => exact hdelete key
    | done => rfl
    | missing => rfl

theorem changed_run (hp : ¬ p <+: k) (h : k ∉ (d.run p es).changed) : k ∉ d.changed := by
  induction es generalizing d with
  | nil => exact h
  | cons e es ih => exact (outside_step hp (ih h)).1

theorem outside_run (hp : ¬ p <+: k) (h : k ∉ (d.run p es).changed) :
    (d.run p es).store.find k = d.store.find k := by
  induction es generalizing d with
  | nil => rfl
  | cons e es ih => exact (ih h).trans (outside_step hp (changed_run hp h)).2

end Runs

section Alone

variable {d : Deleting}

def Deleting.alone (p : Key) (d : Deleting) (n : ℕ) : Deleting :=
  d.run p (List.replicate n .own)

theorem wrote_alone {n : ℕ} (h : d.wrote = []) : (d.alone p n).wrote = [] := by
  induction n generalizing d with
  | zero => exact h
  | succ n ih =>
    apply ih
    simp only [Deleting.step, h, ite_self]

def Ends (p : Key) (d : Deleting) : Prop := ∃ n, (d.alone p n).phase = .done

theorem ends_of_step (h : Ends p (d.step p .own)) : Ends p d := by
  obtain ⟨n, hn⟩ := h
  exact ⟨n + 1, hn⟩

theorem ends_of_queue {queue : List Key} {last : Key} {s : MemoryStore} {changed : List Key}
    (h : ∀ s, Deleting.Left p ⟨.listing (some last), s, [], changed⟩ [] →
      Ends p ⟨.listing (some last), s, [], changed⟩)
    (hi : Deleting.Inv p ⟨.removing queue last, s, [], changed⟩) :
    Ends p ⟨.removing queue last, s, [], changed⟩ := by
  induction queue generalizing s with
  | nil => exact ends_of_step (h s hi)
  | cons k queue ih => exact ends_of_step (ih hi.own)

theorem ends_of_left {after : Key} {s : MemoryStore} {changed : List Key}
    (h : Deleting.Left p ⟨.listing (some after), s, [], changed⟩ []) :
    Ends p ⟨.listing (some after), s, [], changed⟩ := by
  refine ⟨1, ?_⟩
  have hnil : (wrapper p).list s [] (some after) = [] := by
    have hlist : (wrapper p).list s [] (some after) = (s.below p).list [] (some after) :=
      list_below.symm
    rw [hlist, List.eq_nil_iff_forall_not_mem]
    intro m hm
    have hhead := (((list_exact _ _ _).1 m).mp hm).1
    rw [head_below, MemoryStore.head, h m.key List.not_mem_nil List.not_mem_nil] at hhead
    simp at hhead
  simp only [Deleting.alone, List.replicate, Deleting.run, List.foldl, Deleting.step, deleteStep,
    hnil]

theorem ends_of_found {s : MemoryStore} {wrote changed : List Key} :
    Ends p ⟨.found, s, wrote, changed⟩ := by
  apply ends_of_step
  simp only [Deleting.step, deleteStep, if_true]
  generalize ((wrapper p).delete s manifestName none).2 = s'
  cases hlist : (wrapper p).list s' [] none with
  | nil =>
    refine ⟨1, ?_⟩
    simp only [Deleting.alone, List.replicate, Deleting.run, List.foldl, Deleting.step, deleteStep,
      hlist]
  | cons m ms =>
    have hinv : (Deleting.step p ⟨.listing none, s', [], changed⟩ .own).Inv p :=
      Deleting.Inv.own trivial
    apply ends_of_step
    simp only [Deleting.step, deleteStep, hlist] at hinv ⊢
    exact ends_of_queue (fun s => ends_of_left) hinv

end Alone

section Deletion

variable {d : Deleting}

/-- However others use the bucket meanwhile: when a deletion is done, what is below the prefix was
written after the manifest was removed, and outside the prefix there is what others left. When
nobody writes, a deletion of a repository ends, with nothing left of it. -/
theorem delete_run (p : Key) (s : MemoryStore) :
    (∀ es, ((Deleting.begin s).run p es).phase = .done →
      (∀ k, ((Deleting.begin s).run p es).store.find (p ++ k) ≠ none →
        p ++ k ∈ ((Deleting.begin s).run p es).wrote) ∧
      ∀ k, ¬ p <+: k → k ∉ ((Deleting.begin s).run p es).changed →
        ((Deleting.begin s).run p es).store.find k = s.find k) ∧
      (s.find (p ++ manifestName) ≠ none → ∃ n, ((Deleting.begin s).alone p n).phase = .done ∧
        ∀ k, ((Deleting.begin s).alone p n).store.find (p ++ k) = none) := by
  have hleft : ∀ es, ((Deleting.begin s).run p es).phase = .done →
      ((Deleting.begin s).run p es).Left p [] := by
    intro es hdone
    have hinv : ((Deleting.begin s).run p es).Inv p := Deleting.Inv.run trivial
    rw [Deleting.Inv, hdone] at hinv
    exact hinv
  refine ⟨fun es hdone => ⟨fun k hk => ?_, fun k hp hk => outside_run hp hk⟩, fun hmanifest => ?_⟩
  · by_contra hwrote
    exact hk (hleft es hdone k List.not_mem_nil hwrote)
  · have hget : ∃ r, (wrapper p).get s manifestName ⟨none, none, none⟩ = .ok r := by
      obtain ⟨o, ho⟩ := Option.ne_none_iff_exists'.mp hmanifest
      rw [wrapper, ← get_below]
      simp [MemoryStore.get, find_below, ho, Except.mapError]
    obtain ⟨r, hr⟩ := hget
    have hends : Ends p (Deleting.begin s) := by
      apply ends_of_step
      simp only [Deleting.begin, Deleting.step, deleteStep, hr]
      exact ends_of_found
    obtain ⟨n, hn⟩ := hends
    refine ⟨n, hn, fun k => hleft _ hn k List.not_mem_nil ?_⟩
    have hwrote : ((Deleting.begin s).alone p n).wrote = [] := wrote_alone rfl
    rw [Deleting.alone] at hwrote
    simp [hwrote]

end Deletion

end Walgit.ObjectStore
