import Mathlib

/-!
# Steps that may fail

A sequence of steps succeeds when each of them does, and its result is made
of theirs.
-/

namespace Walgit

variable {ε α β : Type} {x : Except ε α} {b : β} {e : ε}

@[simp] theorem ok_bind (a : α) (f : α → Except ε β) : (Except.ok a >>= f) = f a := rfl

theorem bind_eq_ok {f : α → Except ε β} (h : (x >>= f) = .ok b) :
    ∃ a, x = .ok a ∧ f a = .ok b := by
  cases x with
  | error e => cases h
  | ok a => exact ⟨a, rfl, h⟩

theorem bind_eq_error {f : α → Except ε β} (h : (x >>= f) = .error e) :
    x = .error e ∨ ∃ a, x = .ok a ∧ f a = .error e := by
  cases x with
  | error e' =>
    cases h
    exact .inl rfl
  | ok a => exact .inr ⟨a, rfl, h⟩

theorem map_eq_ok {f : α → β} (h : x.map f = .ok b) : ∃ a, x = .ok a ∧ f a = b := by
  cases x with
  | error e => cases h
  | ok a => exact ⟨a, rfl, Except.ok.inj h⟩

theorem mem_of_mapM {f : α → Except ε β} {l : List α} {ys : List β} {y : β}
    (h : l.mapM f = .ok ys) (hy : y ∈ ys) : ∃ x ∈ l, f x = .ok y := by
  induction l generalizing ys with
  | nil =>
    cases h
    cases hy
  | cons a l ih =>
    rw [List.mapM_cons] at h
    obtain ⟨z, ha, hrest⟩ := bind_eq_ok h
    obtain ⟨zs, hl, hcons⟩ := bind_eq_ok hrest
    cases hcons
    rcases List.mem_cons.mp hy with rfl | hy
    · exact ⟨a, List.mem_cons_self, ha⟩
    · obtain ⟨x, hx, hxy⟩ := ih hl hy
      exact ⟨x, List.mem_cons_of_mem a hx, hxy⟩

end Walgit
