import Walgit.Lib.Fallible

/-!
# Tables of what was read

A computation that keeps tables of what it has read before tracks one that
reads everything anew, where an invariant says what the tables hold.
-/

namespace Walgit.Memo

variable {ε σ α β : Type} {Inv : σ → Prop}

/-- From tables that are as the invariant says, the outcome is that of the plain computation,
and the tables are so again. -/
def Tracks (Inv : σ → Prop) (x : StateT σ (Except ε) α) (y : Except ε α) : Prop :=
  ∀ s, Inv s → match x.run s with
    | .error e => y = .error e
    | .ok (a, s') => y = .ok a ∧ Inv s'

theorem tracks_pure (a : α) : Tracks (ε := ε) Inv (pure a) (.ok a) := fun _ hs => ⟨rfl, hs⟩

theorem tracks_bind {x : StateT σ (Except ε) α} {y : Except ε α}
    {f : α → StateT σ (Except ε) β} {g : α → Except ε β} (hx : Tracks Inv x y)
    (hf : ∀ a, y = .ok a → Tracks Inv (f a) (g a)) : Tracks Inv (x >>= f) (y >>= g) := by
  intro s hs
  have hrun := hx s hs
  rw [StateT.run_bind]
  cases hres : x.run s with
  | error e =>
    rw [hres] at hrun
    rw [hrun]
    rfl
  | ok r =>
    rw [hres] at hrun
    rw [hrun.1]
    exact hf r.1 hrun.1 r.2 hrun.2

/-- Look into the tables first, and read what they do not hold. -/
def consult (find : σ → Option α) (onHit : σ → σ) (read : Except ε α) (onMiss : α → σ → σ) :
    StateT σ (Except ε) α := fun s =>
  match find s with
  | some a => .ok (a, onHit s)
  | none => read.map fun a => (a, onMiss a s)

theorem tracks_consult {find : σ → Option α} {onHit : σ → σ} {read : Except ε α}
    {onMiss : α → σ → σ} (hfind : ∀ s, Inv s → ∀ a, find s = some a → read = .ok a)
    (hhit : ∀ s, Inv s → Inv (onHit s))
    (hmiss : ∀ s, Inv s → ∀ a, read = .ok a → Inv (onMiss a s)) :
    Tracks Inv (consult find onHit read onMiss) read := by
  intro s hs
  rw [StateT.run, consult]
  cases hf : find s with
  | some a => exact ⟨hfind s hs a hf, hhit s hs⟩
  | none =>
    cases hr : read with
    | error e => exact rfl
    | ok a => exact ⟨rfl, hmiss s hs a hr⟩

theorem tracks_ite {p : Prop} [Decidable p] {x x' : StateT σ (Except ε) α} {y y' : Except ε α}
    (h : p → Tracks Inv x y) (h' : ¬ p → Tracks Inv x' y') :
    Tracks Inv (if p then x else x') (if p then y else y') := by
  split_ifs with hp
  · exact h hp
  · exact h' hp

theorem Tracks.eq {x : StateT σ (Except ε) α} {y : Except ε α} (h : Tracks Inv x y) {s : σ}
    (hs : Inv s) : x.run' s = y := by
  have hrun := h s hs
  rw [StateT.run']
  cases hres : x.run s with
  | error e =>
    rw [hres] at hrun
    change (x.run s).map _ = y
    rw [hres, hrun]
    rfl
  | ok r =>
    rw [hres] at hrun
    change (x.run s).map _ = y
    rw [hres, hrun.1]
    rfl

end Walgit.Memo
