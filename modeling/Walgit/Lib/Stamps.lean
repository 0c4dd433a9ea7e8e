import Mathlib

/-!
# Stamped tables

Each write of a table takes a stamp that no earlier write had. A stamp that is
still at a key says that nothing happened at the key since the write that took
it, whatever happened elsewhere.
-/

namespace Walgit.Stamps

variable {K V : Type} [DecidableEq K]

inductive Change (K V : Type)
  | none
  | write (k : K) (v : V)
  | remove (k : K)

def Change.On (k : K) : Change K V → Prop
  | .none => False
  | .write j _ => j = k
  | .remove j => j = k

structure Stamped (K V : Type) where
  entries : K → Option (ℕ × V)
  clock : ℕ
  le_clock : ∀ k n v, entries k = some (n, v) → n ≤ clock

def Stamped.empty : Stamped K V := ⟨fun _ => none, 0, fun _ _ _ h => by simp at h⟩

def Stamped.apply (t : Stamped K V) : Change K V → Stamped K V
  | .none => t
  | .write k v =>
    { entries := Function.update t.entries k (some (t.clock + 1, v))
      clock := t.clock + 1
      le_clock := by
        intro j n w h
        by_cases hj : j = k
        · subst hj
          simp at h
          omega
        · rw [Function.update_of_ne hj] at h
          exact Nat.le_succ_of_le (t.le_clock j n w h) }
  | .remove k =>
    { entries := Function.update t.entries k none
      clock := t.clock
      le_clock := by
        intro j n w h
        by_cases hj : j = k
        · subst hj
          simp at h
        · rw [Function.update_of_ne hj] at h
          exact t.le_clock j n w h }

def Stamped.run (t : Stamped K V) (cs : List (Change K V)) : Stamped K V :=
  cs.foldl Stamped.apply t

variable {t : Stamped K V} {c : Change K V} {cs : List (Change K V)} {k : K} {v : V} {n : ℕ}

@[simp] theorem Stamped.run_nil : t.run [] = t := rfl

@[simp] theorem Stamped.run_cons : t.run (c :: cs) = (t.apply c).run cs := rfl

theorem Stamped.apply_of_not_on (h : ¬ c.On k) : (t.apply c).entries k = t.entries k := by
  cases c with
  | none => rfl
  | write j w =>
    have hne : k ≠ j := fun hk => h hk.symm
    simp [Stamped.apply, hne]
  | remove j =>
    have hne : k ≠ j := fun hk => h hk.symm
    simp [Stamped.apply, hne]

theorem Stamped.clock_le_apply : t.clock ≤ (t.apply c).clock := by
  cases c <;> simp [Stamped.apply]

theorem Stamped.clock_apply_le : (t.apply c).clock ≤ t.clock + 1 := by
  cases c <;> simp [Stamped.apply]

theorem Stamped.entries_of_untouched (h : ∀ c ∈ cs, ¬ c.On k) :
    (t.run cs).entries k = t.entries k := by
  induction cs generalizing t with
  | nil => rfl
  | cons c cs ih =>
    rw [List.forall_mem_cons] at h
    rw [run_cons, ih h.2, apply_of_not_on h.1]

/-- A stamp that is not at its key any more does not come back. -/
def Gone (n : ℕ) (k : K) (t : Stamped K V) : Prop :=
  n ≤ t.clock ∧ ∀ v, t.entries k ≠ some (n, v)

theorem gone_of_on (hn : n ≤ t.clock) (h : c.On k) : Gone n k (t.apply c) := by
  refine ⟨hn.trans t.clock_le_apply, fun v hv => ?_⟩
  cases c with
  | none => exact h
  | write j w =>
    change j = k at h
    subst h
    simp [Stamped.apply] at hv
    omega
  | remove j =>
    change j = k at h
    subst h
    simp [Stamped.apply] at hv

theorem Gone.apply (h : Gone n k t) : Gone n k (t.apply c) := by
  by_cases hc : c.On k
  · exact gone_of_on h.1 hc
  · refine ⟨h.1.trans t.clock_le_apply, fun v => ?_⟩
    rw [Stamped.apply_of_not_on hc]
    exact h.2 v

theorem Gone.run (h : Gone n k t) : Gone n k (t.run cs) := by
  induction cs generalizing t with
  | nil => exact h
  | cons c cs ih => exact ih h.apply

/-- A stamp is at its key as long as no change is on the key. -/
theorem stamp_iff_untouched (h : t.entries k = some (n, v)) :
    (∃ w, (t.run cs).entries k = some (n, w)) ↔ ∀ c ∈ cs, ¬ c.On k := by
  constructor
  · intro hstill
    induction cs generalizing t with
    | nil => simp
    | cons c cs ih =>
      obtain ⟨w, hw⟩ := hstill
      rw [List.forall_mem_cons]
      have hc : ¬ c.On k := by
        intro hc
        exact (gone_of_on (t.le_clock k n v h) hc).run.2 w hw
      refine ⟨hc, ih ?_ ⟨w, hw⟩⟩
      rw [Stamped.apply_of_not_on hc, h]
  · intro huntouched
    exact ⟨v, (Stamped.entries_of_untouched huntouched).trans h⟩

end Walgit.Stamps
