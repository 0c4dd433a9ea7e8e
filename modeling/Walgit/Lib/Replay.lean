import Mathlib

/-!
# Last-write-wins replay of a numbered log

A log entry has a number and writes some keys. `upto q` is the fold of the
entries numbered at most `q`. A state is `Near q k` when it differs from
`upto q` at most on keys that entries `q+1..k` write: a replica that has seen
part of those entries, in whatever order. Replaying the entries `q+1..p` over
such a state gives one that is `Near p k`, so the fold itself once `k ≤ p`.
-/

namespace Walgit.Replay

variable {K V E : Type} [DecidableEq K]

def assign (s : K → V) (k : K) (v : V) : K → V := fun j => if j = k then v else s j

def replay (s : K → V) : List (K × V) → K → V
  | [] => s
  | w :: ws => replay (assign s w.1 w.2) ws

theorem replay_append {s : K → V} {ws ws' : List (K × V)} :
    replay s (ws ++ ws') = replay (replay s ws) ws' := by
  induction ws generalizing s with
  | nil => rfl
  | cons w ws ih => exact ih

theorem replay_untouched {s : K → V} {ws : List (K × V)} {k : K} (h : ∀ w ∈ ws, w.1 ≠ k) :
    replay s ws k = s k := by
  induction ws generalizing s with
  | nil => rfl
  | cons w ws ih =>
    rw [replay, ih fun x hx => h x (List.mem_cons_of_mem w hx)]
    exact if_neg (Ne.symm (h w List.mem_cons_self))

/-- A key that some write touches ends with the last value written, whatever the start. -/
theorem replay_touched {s s' : K → V} {ws : List (K × V)} {k : K} (h : ∃ w ∈ ws, w.1 = k) :
    replay s ws k = replay s' ws k := by
  induction ws generalizing s s' with
  | nil => simp at h
  | cons w ws ih =>
    by_cases hk : ∃ x ∈ ws, x.1 = k
    · exact ih hk
    · push Not at hk
      obtain ⟨x, hx, rfl⟩ := h
      obtain rfl | hx := List.mem_cons.mp hx
      · rw [replay, replay, replay_untouched hk, replay_untouched hk]
        simp [assign]
      · exact absurd rfl (hk x hx)

theorem replay_congr {s s' : K → V} {ws : List (K × V)} {k : K}
    (h : (∀ w ∈ ws, w.1 ≠ k) → s k = s' k) : replay s ws k = replay s' ws k := by
  by_cases hk : ∃ w ∈ ws, w.1 = k
  · exact replay_touched hk
  · push Not at hk
    rw [replay_untouched hk, replay_untouched hk, h hk]

theorem replay_filter {s : K → V} {ws : List (K × V)} {k : K} {p : K × V → Bool}
    (h : ∀ w ∈ ws, w.1 = k → p w = true) : replay s (ws.filter p) k = replay s ws k := by
  induction ws generalizing s with
  | nil => rfl
  | cons w ws ih =>
    have ih := fun s => ih (s := s) fun x hx => h x (List.mem_cons_of_mem w hx)
    by_cases hp : p w = true
    · rw [List.filter_cons_of_pos hp, replay, replay, ih]
    · have hk : w.1 ≠ k := fun hk => hp (h w List.mem_cons_self hk)
      rw [List.filter_cons_of_neg hp, replay, ih]
      exact replay_congr fun _ => (if_neg (Ne.symm hk)).symm

section Log

variable (seq : E → ℕ) (writes : E → List (K × V)) (init : K → V)

def replayEntries (s : K → V) (es : List E) : K → V := replay s (es.flatMap writes)

/-- The fold of the entries of `log` numbered at most `q`. -/
def upto (log : List E) (q : ℕ) : K → V :=
  replayEntries writes init (log.filter fun e => seq e ≤ q)

def between (log : List E) (q p : ℕ) : List E := log.filter fun e => q < seq e ∧ seq e ≤ p

def Touched (log : List E) (q k : ℕ) (j : K) : Prop :=
  ∃ e ∈ log, q < seq e ∧ seq e ≤ k ∧ ∃ w ∈ writes e, w.1 = j

def Near (log : List E) (s : K → V) (q k : ℕ) : Prop :=
  ∀ j, ¬ Touched seq writes log q k j → s j = upto seq writes init log q j

variable {seq writes init} {log : List E} {s s' : K → V} {q p k : ℕ}

omit [DecidableEq K] in
theorem mem_between {e : E} : e ∈ between seq log q p ↔ e ∈ log ∧ q < seq e ∧ seq e ≤ p := by
  simp [between]

theorem replayEntries_append {es es' : List E} :
    replayEntries writes s (es ++ es') = replayEntries writes (replayEntries writes s es) es' := by
  rw [replayEntries, List.flatMap_append, replay_append]
  rfl

omit [DecidableEq K] in
theorem touched_mono {k' : ℕ} {j : K} (hk : k ≤ k') (h : Touched seq writes log q k j) :
    Touched seq writes log q k' j := by
  obtain ⟨e, he, h1, h2, h3⟩ := h
  exact ⟨e, he, h1, Nat.le_trans h2 hk, h3⟩

theorem near_upto : Near seq writes init log (upto seq writes init log q) q k :=
  fun _ _ => rfl

theorem Near.mono {k' : ℕ} (h : Near seq writes init log s q k) (hk : k ≤ k') :
    Near seq writes init log s q k' :=
  fun j hj => h j fun ht => hj (touched_mono hk ht)

theorem Near.exact (h : Near seq writes init log s q k) (hk : k ≤ q) :
    s = upto seq writes init log q := by
  funext j
  refine h j ?_
  rintro ⟨e, -, h1, h2, -⟩
  omega

theorem Near.replay {ws : List (K × V)} (h : Near seq writes init log s q k)
    (hw : ∀ w ∈ ws, Touched seq writes log q k w.1) :
    Near seq writes init log (replay s ws) q k := by
  intro j hj
  rw [replay_untouched, h j hj]
  rintro w hm rfl
  exact hj (hw w hm)

theorem filter_le_split (hs : log.Pairwise fun a b => seq a < seq b) (hqp : q ≤ p) :
    (log.filter fun e => seq e ≤ p) = (log.filter fun e => seq e ≤ q) ++ between seq log q p := by
  unfold between
  induction log with
  | nil => rfl
  | cons e es ih =>
    obtain ⟨hlt, hes⟩ := List.pairwise_cons.mp hs
    have ih := ih hes
    by_cases hq : seq e ≤ q
    · have hp : seq e ≤ p := Nat.le_trans hq hqp
      have hn : ¬ (q < seq e ∧ seq e ≤ p) := by omega
      simp [hq, hp, ih]
    · have hnone : (es.filter fun e => seq e ≤ q) = [] := by
        refine List.filter_eq_nil_iff.mpr fun x hx => ?_
        have := hlt x hx
        simp only [decide_eq_true_eq]
        omega
      rw [hnone, List.nil_append] at ih
      have hq' : q < seq e := by omega
      simp [hq, hq', hnone, List.filter_cons, ih]

theorem upto_split (hs : log.Pairwise fun a b => seq a < seq b) (hqp : q ≤ p) :
    upto seq writes init log p =
      replayEntries writes (upto seq writes init log q) (between seq log q p) := by
  rw [upto, filter_le_split hs hqp, replayEntries_append]
  rfl

theorem Near.replayEntries (hs : log.Pairwise fun a b => seq a < seq b) (hqp : q ≤ p)
    (h : Near seq writes init log s q k) :
    Near seq writes init log (Replay.replayEntries writes s (between seq log q p)) p k := by
  intro j hj
  rw [upto_split hs hqp]
  refine replay_congr fun hun => h j ?_
  rintro ⟨e, he, h1, h2, w, hw, rfl⟩
  by_cases hep : seq e ≤ p
  · refine hun w (List.mem_flatMap.mpr ⟨e, ?_, hw⟩) rfl
    exact List.mem_filter.mpr ⟨he, by simpa using ⟨h1, hep⟩⟩
  · exact hj ⟨e, he, Nat.lt_of_not_le hep, h2, w, hw, rfl⟩

theorem upto_append {new : List E} (hq : ∀ e ∈ new, q < seq e) :
    upto seq writes init (log ++ new) q = upto seq writes init log q := by
  have hnone : (new.filter fun e => seq e ≤ q) = [] := by
    refine List.filter_eq_nil_iff.mpr fun e he => ?_
    have := hq e he
    simp only [decide_eq_true_eq]
    omega
  rw [upto, List.filter_append, hnone, List.append_nil]
  rfl

omit [DecidableEq K] in
theorem touched_append {new : List E} {j : K} (h : Touched seq writes log q k j) :
    Touched seq writes (log ++ new) q k j := by
  obtain ⟨e, he, h⟩ := h
  exact ⟨e, List.mem_append_left new he, h⟩

theorem Near.append {new : List E} (h : Near seq writes init log s q k)
    (hq : ∀ e ∈ new, q < seq e) : Near seq writes init (log ++ new) s q k := by
  intro j hj
  rw [upto_append hq]
  exact h j fun ht => hj (touched_append ht)

end Log

end Walgit.Replay
