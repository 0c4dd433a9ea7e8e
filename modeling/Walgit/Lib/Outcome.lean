import Mathlib

/-!
# How a step ends

A step ends with a result of which something holds, or with one of some errors.
Steps in sequence end so if each of them does, given what holds of the results
before it.
-/

namespace Walgit

variable {ε α β : Type}

/-- The step ends with a result in `R` or with an error in `E`. -/
def Concludes (E : ε → Prop) (R : α → Prop) : Except ε α → Prop
  | .ok a => R a
  | .error e => E e

namespace Concludes

variable {E E' : ε → Prop} {R R' : α → Prop} {S : β → Prop} {x : Except ε α} {a : α} {e : ε}

theorem mono (h : Concludes E R x) (hE : ∀ e, E e → E' e) (hR : ∀ a, R a → R' a) :
    Concludes E' R' x := by
  cases x with
  | ok a => exact hR a h
  | error e => exact hE e h

theorem of_ok (h : Concludes E R x) (hx : x = .ok a) : R a := by
  rwa [hx] at h

theorem of_error (h : Concludes E R x) (hx : x = .error e) : E e := by
  rwa [hx] at h

theorem bind {f : α → Except ε β} (h : Concludes E R x) (hf : ∀ a, R a → Concludes E S (f a)) :
    Concludes E S (x >>= f) := by
  cases x with
  | ok a => exact hf a h
  | error e => exact h

theorem map {f : α → β} (h : Concludes E R x) (hf : ∀ a, R a → S (f a)) :
    Concludes E S (x.map f) := by
  cases x with
  | ok a => exact hf a h
  | error e => exact h

theorem exists_ok (h : Concludes E R x) (hE : ∀ e, ¬ E e) : ∃ a, x = .ok a ∧ R a := by
  cases x with
  | ok a => exact ⟨a, rfl, h⟩
  | error e => exact absurd h (hE e)

theorem mapM {f : α → Except ε β} {g : α → β} {l : List α}
    (hf : ∀ x ∈ l, Concludes E (· = g x) (f x)) : Concludes E (· = l.map g) (l.mapM f) := by
  induction l with
  | nil => exact rfl
  | cons a l ih =>
    rw [List.forall_mem_cons] at hf
    rw [List.mapM_cons]
    refine hf.1.bind fun b hb => (ih hf.2).bind fun bs hbs => ?_
    rw [hb, hbs]
    exact rfl

end Concludes

end Walgit
