import Mathlib

/-!
# Interleaved programs over atomic calls

A task is a tree of calls on a shared world. A pool runs any number of tasks;
one event either spawns a task or lets one task perform its next call, with the
environment's choice for that call. Nothing else is atomic.

The logic is rely/guarantee: every call keeps the invariant and stays within
the guarantee of its task, and an assertion between two calls is one that the
other tasks' guarantees cannot break. `ok` restricts the steps that a run may
take; an unrestricted run is one with `ok` always true.
-/

namespace Walgit.Interleaving

inductive Prog (Op : Type) (Res : Op → Type) (α : Type) : Type
  | ret (a : α)
  | call (o : Op) (k : Res o → Prog Op Res α)

variable {Op : Type} {Res : Op → Type} {α β W C E : Type}

namespace Prog

def bind : Prog Op Res α → (α → Prog Op Res β) → Prog Op Res β
  | .ret a, f => f a
  | .call o k, f => .call o fun r => (k r).bind f

instance : Monad (Prog Op Res) where
  pure := .ret
  bind := Prog.bind

def perform (o : Op) : Prog Op Res (Res o) := .call o .ret

/-- Every call that the program can make satisfies `p`. -/
def Within (p : Op → Prop) : Prog Op Res α → Prop
  | .ret _ => True
  | .call o k => p o ∧ ∀ r, (k r).Within p

variable {p : Op → Prop}

@[simp]
theorem within_pure {a : α} : (pure a : Prog Op Res α).Within p := trivial

@[simp]
theorem within_perform {o : Op} : (perform o : Prog Op Res (Res o)).Within p ↔ p o :=
  ⟨fun h => h.1, fun h => ⟨h, fun _ => trivial⟩⟩

theorem Within.bind {q : Prog Op Res α} {f : α → Prog Op Res β} (hq : q.Within p)
    (hf : ∀ a, (f a).Within p) : (q >>= f).Within p := by
  change (q.bind f).Within p
  induction q with
  | ret a => exact hf a
  | call o k ih => exact ⟨hq.1, fun r => ih r (hq.2 r)⟩

theorem Within.mono {p' : Op → Prop} (h : ∀ o, p o → p' o) {q : Prog Op Res α}
    (hq : q.Within p) : q.Within p' := by
  induction q with
  | ret a => trivial
  | call o k ih => exact ⟨h o hq.1, fun r => ih r (hq.2 r)⟩

/-- Every call satisfies `p` and every result `Q`. -/
def Ends (p : Op → Prop) (Q : α → Prop) : Prog Op Res α → Prop
  | .ret a => Q a
  | .call o k => p o ∧ ∀ r, (k r).Ends p Q

theorem Ends.within {Q : α → Prop} {q : Prog Op Res α} {f : α → Prog Op Res β}
    (hq : q.Ends p Q) (hf : ∀ a, Q a → (f a).Within p) : (q >>= f).Within p := by
  change (q.bind f).Within p
  induction q with
  | ret a => exact hf a hq
  | call o k ih => exact ⟨hq.1, fun r => ih r (hq.2 r)⟩

theorem Ends.bind {Q : α → Prop} {Q' : β → Prop} {q : Prog Op Res α} {f : α → Prog Op Res β}
    (hq : q.Ends p Q) (hf : ∀ a, Q a → (f a).Ends p Q') : (q >>= f).Ends p Q' := by
  change (q.bind f).Ends p Q'
  induction q with
  | ret a => exact hf a hq
  | call o k ih => exact ⟨hq.1, fun r => ih r (hq.2 r)⟩

theorem Ends.mono {Q Q' : α → Prop} (h : ∀ a, Q a → Q' a) {q : Prog Op Res α}
    (hq : q.Ends p Q) : q.Ends p Q' := by
  induction q with
  | ret a => exact h a hq
  | call o k ih => exact ⟨hq.1, fun r => ih r (hq.2 r)⟩

theorem Within.ends {q : Prog Op Res α} (hq : q.Within p) : q.Ends p fun _ => True := by
  induction q with
  | ret a => trivial
  | call o k ih => exact ⟨hq.1, fun r => ih r (hq.2 r)⟩

end Prog

structure Pool (Op : Type) (Res : Op → Type) (W : Type) where
  world : W
  tasks : List (Prog Op Res Unit)

inductive Event (E C : Type)
  | spawn (e : E)
  | run (t : ℕ) (c : C)

section Runs

variable (exec : ℕ → (o : Op) → C → W → Option (Res o × W)) (main : E → Prog Op Res Unit)

def Pool.step (s : Pool Op Res W) : Event E C → Option (Pool Op Res W)
  | .spawn e => some ⟨s.world, s.tasks ++ [main e]⟩
  | .run t c =>
    match s.tasks[t]? with
    | some (.call o k) =>
      (exec t o c s.world).map fun x => ⟨x.2, s.tasks.set t (k x.1)⟩
    | _ => none

def Pool.runs (s : Pool Op Res W) : List (Event E C) → Option (Pool Op Res W)
  | [] => some s
  | e :: es => (s.step exec main e).bind fun s' => s'.runs es

/-- The step that `e` takes from `s` meets the condition `ok`. -/
def Pool.Meets (ok : ℕ → Op → C → W → Prop) (s : Pool Op Res W) : Event E C → Prop
  | .spawn _ => True
  | .run t c => ∀ o k, s.tasks[t]? = some (.call o k) → ok t o c s.world

/-- Runs all of whose steps meet `ok`. -/
def Reach (ok : ℕ → Op → C → W → Prop) : Pool Op Res W → Pool Op Res W → Prop :=
  Relation.ReflTransGen fun s s' => ∃ e : Event E C, s.Meets ok e ∧ s.step exec main e = some s'

variable {exec main} in
theorem step_run {s s' : Pool Op Res W} {t : ℕ} {c : C}
    (h : s.step exec main (.run t c) = some s') : ∃ o k, s.tasks[t]? = some (.call o k) ∧ ∃ r w,
      exec t o c s.world = some (r, w) ∧ (⟨w, s.tasks.set t (k r)⟩ : Pool Op Res W) = s' := by
  simp only [Pool.step] at h
  split at h
  · rename_i o k ht
    obtain ⟨⟨r, w⟩, hex, rfl⟩ := Option.map_eq_some_iff.mp h
    exact ⟨o, k, ht, r, w, hex, rfl⟩
  · cases h

theorem reach_of_runs {es : List (Event E C)} {s s' : Pool Op Res W}
    (h : s.runs exec main es = some s') : Reach exec main (fun _ _ _ _ => True) s s' := by
  induction es generalizing s with
  | nil =>
    cases h
    exact .refl
  | cons e es ih =>
    obtain ⟨m, hm, hes⟩ := Option.bind_eq_some_iff.mp h
    refine .head ⟨e, ?_, hm⟩ (ih hes)
    cases e with
    | spawn e => trivial
    | run t c => exact fun _ _ _ => trivial

/-- A run each of whose calls passes a test. -/
def Pool.testedRuns (test : ℕ → Op → C → W → Bool) (s : Pool Op Res W) :
    List (Event E C) → Option (Pool Op Res W)
  | [] => some s
  | .spawn e :: es => (s.step exec main (.spawn e)).bind fun s' => s'.testedRuns test es
  | .run t c :: es =>
    match s.tasks[t]? with
    | some (.call o _) =>
      if test t o c s.world then
        (s.step exec main (.run t c)).bind fun s' => s'.testedRuns test es
      else none
    | _ => none

theorem reach_of_testedRuns {test : ℕ → Op → C → W → Bool} {ok : ℕ → Op → C → W → Prop}
    (htest : ∀ t o c σ, test t o c σ = true → ok t o c σ) {es : List (Event E C)}
    {s s' : Pool Op Res W} (h : s.testedRuns exec main test es = some s') :
    Reach exec main ok s s' := by
  induction es generalizing s with
  | nil =>
    cases h
    exact .refl
  | cons e es ih =>
    cases e with
    | spawn e =>
      obtain ⟨m, hm, hrest⟩ := Option.bind_eq_some_iff.mp h
      exact .head ⟨.spawn e, trivial, hm⟩ (ih hrest)
    | run t c =>
      rw [Pool.testedRuns] at h
      split at h
      · rename_i o k ht
        split at h
        · rename_i hpass
          obtain ⟨m, hm, hrest⟩ := Option.bind_eq_some_iff.mp h
          refine .head ⟨.run t c, fun o' k' ho => ?_, hm⟩ (ih hrest)
          rw [ht] at ho
          cases ho
          exact htest t o c s.world hpass
        · cases h
      · cases h

theorem exists_of_runs {es : List (Event E C)} {s : Pool Op Res W} {p : Pool Op Res W → Bool}
    (h : (s.runs exec main es).any p = true) :
    ∃ s', Reach exec main (fun _ _ _ _ => True) s s' ∧ p s' = true := by
  obtain ⟨s', hs, hp⟩ := (Option.any_eq_true _ _).mp h
  exact ⟨s', reach_of_runs exec main hs, hp⟩

theorem exists_of_testedRuns {test : ℕ → Op → C → W → Bool} {ok : ℕ → Op → C → W → Prop}
    (htest : ∀ t o c σ, test t o c σ = true → ok t o c σ) {es : List (Event E C)}
    {s : Pool Op Res W} {p : Pool Op Res W → Bool}
    (h : (s.testedRuns exec main test es).any p = true) :
    ∃ s', Reach exec main ok s s' ∧ p s' = true := by
  obtain ⟨s', hs, hp⟩ := (Option.any_eq_true _ _).mp h
  exact ⟨s', reach_of_testedRuns exec main htest hs, hp⟩

theorem Reach.mono {ok ok' : ℕ → Op → C → W → Prop} (h : ∀ t o c σ, ok t o c σ → ok' t o c σ)
    {s s' : Pool Op Res W} (hr : Reach exec main ok s s') : Reach exec main ok' s s' := by
  induction hr with
  | refl => exact .refl
  | @tail a b _ hs ih =>
    obtain ⟨e, hm, he⟩ := hs
    refine ih.tail ⟨e, ?_, he⟩
    cases e with
    | spawn e => trivial
    | run t c => exact fun o k ho => h t o c a.world (hm o k ho)

end Runs

/-- An invariant and, for each task, a guarantee, for the steps that meet `ok`. `needs t o` is
what task `t` must have ensured when it calls `o`; `fresh t` is what holds as long as task `t` has
not been spawned. -/
structure Discipline (Op : Type) (Res : Op → Type) (W C : Type) where
  exec : ℕ → (o : Op) → C → W → Option (Res o × W)
  ok : ℕ → Op → C → W → Prop
  needs : ℕ → Op → W → Prop
  inv : W → Prop
  guar : ℕ → W → W → Prop
  fresh : ℕ → W → Prop

namespace Discipline

variable (D : Discipline Op Res W C)

def Stable (t : ℕ) (P : W → Prop) : Prop :=
  ∀ t' σ σ', t' ≠ t → D.inv σ → D.inv σ' → D.guar t' σ σ' → P σ → P σ'

/-- `p` run by task `t` from an assertion `P` keeps the invariant and the guarantee at
every call, whatever the other tasks do between its calls, and ends in `Q`. -/
def Triple (t : ℕ) : Prog Op Res α → (W → Prop) → (α → W → Prop) → Prop
  | .ret a, P, Q => ∀ σ, D.inv σ → P σ → Q a σ
  | .call o k, P, Q => (∀ σ, D.inv σ → P σ → D.needs t o σ) ∧
      ∀ σ c r σ', D.inv σ → P σ → D.ok t o c σ → D.exec t o c σ = some (r, σ') →
        D.inv σ' ∧ D.guar t σ σ' ∧ ∃ P', D.Stable t P' ∧ P' σ' ∧ Triple t (k r) P' Q

variable {D} {t : ℕ}

theorem Stable.and {P Q : W → Prop} (hP : D.Stable t P) (hQ : D.Stable t Q) :
    D.Stable t fun σ => P σ ∧ Q σ :=
  fun t' σ σ' ht hi hi' hg h => ⟨hP t' σ σ' ht hi hi' hg h.1, hQ t' σ σ' ht hi hi' hg h.2⟩

theorem Stable.or {P Q : W → Prop} (hP : D.Stable t P) (hQ : D.Stable t Q) :
    D.Stable t fun σ => P σ ∨ Q σ :=
  fun t' σ σ' ht hi hi' hg h =>
    h.imp (hP t' σ σ' ht hi hi' hg) (hQ t' σ σ' ht hi hi' hg)

theorem Stable.const {p : Prop} : D.Stable t fun _ => p :=
  fun _ _ _ _ _ _ _ h => h

namespace Triple

theorem ret {a : α} {P : W → Prop} {Q : α → W → Prop} (h : ∀ σ, D.inv σ → P σ → Q a σ) :
    D.Triple t (.ret a) P Q := h

theorem conseq {p : Prog Op Res α} {P P' : W → Prop} {Q Q' : α → W → Prop}
    (h : D.Triple t p P Q) (hP : ∀ σ, D.inv σ → P' σ → P σ)
    (hQ : ∀ a σ, D.inv σ → Q a σ → Q' a σ) : D.Triple t p P' Q' := by
  induction p generalizing P P' with
  | ret a => exact fun σ hi hp => hQ a σ hi (h σ hi (hP σ hi hp))
  | call o k ih =>
    refine ⟨fun σ hi hp => h.1 σ hi (hP σ hi hp), fun σ c r σ' hi hp hok hex => ?_⟩
    obtain ⟨hi', hg, R, hR, hRσ, ht⟩ := h.2 σ c r σ' hi (hP σ hi hp) hok hex
    exact ⟨hi', hg, R, hR, hRσ, ih r ht fun _ _ h => h⟩

theorem pre {p : Prog Op Res α} {P P' : W → Prop} {Q : α → W → Prop}
    (h : D.Triple t p P Q) (hP : ∀ σ, D.inv σ → P' σ → P σ) : D.Triple t p P' Q :=
  h.conseq hP fun _ _ _ h => h

theorem post {p : Prog Op Res α} {P : W → Prop} {Q Q' : α → W → Prop}
    (h : D.Triple t p P Q) (hQ : ∀ a σ, D.inv σ → Q a σ → Q' a σ) : D.Triple t p P Q' :=
  h.conseq (fun _ _ h => h) hQ

theorem given {ι : Sort*} {p : Prog Op Res α} {P : ι → W → Prop} {Q : α → W → Prop}
    (h : ∀ b, D.Triple t p (P b) Q) : D.Triple t p (fun σ => ∃ b, P b σ) Q := by
  cases p with
  | ret a =>
    rintro σ hi ⟨b, hb⟩
    exact h b σ hi hb
  | call o k =>
    refine ⟨fun σ hi ⟨b, hb⟩ => (h b).1 σ hi hb, ?_⟩
    rintro σ c r σ' hi ⟨b, hb⟩ hok hex
    exact (h b).2 σ c r σ' hi hb hok hex

/-- A part of the assertion that does not depend on the world. -/
theorem fact {a : Prop} {p : Prog Op Res α} {P : W → Prop} {Q : α → W → Prop}
    (h : a → D.Triple t p P Q) : D.Triple t p (fun σ => a ∧ P σ) Q :=
  (given h).pre fun _ _ hx => ⟨hx.1, hx.2⟩

theorem frame {N : W → Prop} {p : Prog Op Res α} {P : W → Prop} {Q : α → W → Prop}
    (hN : ∀ t' σ σ', D.inv σ → D.inv σ' → D.guar t' σ σ' → N σ → N σ') (h : D.Triple t p P Q) :
    D.Triple t p (fun σ => P σ ∧ N σ) fun a σ => Q a σ ∧ N σ := by
  induction p generalizing P with
  | ret a => exact fun σ hi hp => ⟨h σ hi hp.1, hp.2⟩
  | call o k ih =>
    refine ⟨fun σ hi hp => h.1 σ hi hp.1, fun σ c r σ' hi hp hok hex => ?_⟩
    obtain ⟨hi', hg, R, hR, hRσ, ht⟩ := h.2 σ c r σ' hi hp.1 hok hex
    refine ⟨hi', hg, fun σ => R σ ∧ N σ, hR.and fun t' σ σ' _ => hN t' σ σ',
      ⟨hRσ, hN t σ σ' hi hi' hg hp.2⟩, ih r ht⟩

theorem bind {p : Prog Op Res α} {f : α → Prog Op Res β} {P : W → Prop}
    {R : α → W → Prop} {Q : β → W → Prop} (hp : D.Triple t p P R)
    (hf : ∀ a, D.Triple t (f a) (R a) Q) : D.Triple t (p >>= f) P Q := by
  change D.Triple t (p.bind f) P Q
  induction p generalizing P with
  | ret a => exact (hf a).pre hp
  | call o k ih =>
    refine ⟨hp.1, fun σ c r σ' hi hP hok hex => ?_⟩
    obtain ⟨hi', hg, P', hP', hσ', ht⟩ := hp.2 σ c r σ' hi hP hok hex
    exact ⟨hi', hg, P', hP', hσ', ih r ht⟩

theorem within {p : Op → Prop} {q : Prog Op Res α} {P : W → Prop} (hP : D.Stable t P)
    (hcall : ∀ o, p o → (∀ σ, D.inv σ → P σ → D.needs t o σ) ∧
      ∀ σ c r σ', D.inv σ → P σ → D.ok t o c σ → D.exec t o c σ = some (r, σ') →
        D.inv σ' ∧ D.guar t σ σ' ∧ P σ')
    (hq : q.Within p) : D.Triple t q P fun _ => P := by
  induction q with
  | ret a => exact fun _ _ h => h
  | call o k ih =>
    refine ⟨(hcall o hq.1).1, fun σ c r σ' hi hp hok hex => ?_⟩
    obtain ⟨hi', hg, hp'⟩ := (hcall o hq.1).2 σ c r σ' hi hp hok hex
    exact ⟨hi', hg, P, hP, hp', ih r (hq.2 r)⟩

theorem perform {o : Op} {P : W → Prop} {Q : Res o → W → Prop} (hQ : ∀ r, D.Stable t (Q r))
    (hn : ∀ σ, D.inv σ → P σ → D.needs t o σ)
    (h : ∀ σ c r σ', D.inv σ → P σ → D.ok t o c σ → D.exec t o c σ = some (r, σ') →
      D.inv σ' ∧ D.guar t σ σ' ∧ Q r σ') : D.Triple t (Prog.perform o) P Q := by
  refine ⟨hn, fun σ c r σ' hi hP hok hex => ?_⟩
  obtain ⟨hi', hg, hq⟩ := h σ c r σ' hi hP hok hex
  exact ⟨hi', hg, Q r, hQ r, hq, fun _ _ h => h⟩

end Triple

/-- Every task of `s` is within the discipline from an assertion that holds now. -/
structure Sound (s : Pool Op Res W) : Prop where
  inv : D.inv s.world
  fresh : ∀ t, s.tasks.length ≤ t → D.fresh t s.world
  tasks : ∀ t p, s.tasks[t]? = some p →
    ∃ P, D.Stable t P ∧ P s.world ∧ D.Triple t p P fun _ _ => True

variable {main : E → Prog Op Res Unit}

section Run

variable (hfresh : ∀ t, D.Stable t (D.fresh t))
  (hmain : ∀ e t, D.Triple t (main e) (D.fresh t) fun _ _ => True)
include hfresh hmain

theorem Sound.step {s s' : Pool Op Res W} {e : Event E C} (hs : D.Sound s)
    (hok : s.Meets D.ok e) (h : s.step D.exec main e = some s') :
    D.Sound s' ∧ (s'.world = s.world ∨ ∃ t, D.guar t s.world s'.world) := by
  cases e with
  | spawn e =>
    cases h
    refine ⟨⟨hs.inv, fun t ht => ?_, fun t p hp => ?_⟩, .inl rfl⟩
    · refine hs.fresh t (Nat.le_trans ?_ ht)
      simp
    · rcases Nat.lt_or_ge t s.tasks.length with ht | ht
      · exact hs.tasks t p (by rwa [List.getElem?_append_left ht] at hp)
      · obtain rfl : p = main e := by
          rw [List.getElem?_append_right ht] at hp
          cases htl : t - s.tasks.length with
          | zero => simpa [htl, eq_comm] using hp
          | succ n => simp [htl] at hp
        exact ⟨D.fresh t, hfresh t, hs.fresh t ht, hmain e t⟩
  | run t c =>
    obtain ⟨o, k, ht, r, w, hex, rfl⟩ := step_run h
    obtain ⟨P, hPs, hPw, hPt⟩ := hs.tasks t _ ht
    obtain ⟨hi', hg, P', hP's, hP'w, hP't⟩ := hPt.2 s.world c r w hs.inv hPw (hok o k ht) hex
    have hlt : t < s.tasks.length := (List.getElem?_eq_some_iff.mp ht).1
    refine ⟨⟨hi', fun t' ht' => ?_, fun t' p hp => ?_⟩, .inr ⟨t, hg⟩⟩
    · rw [List.length_set] at ht'
      have hne : t ≠ t' := by omega
      exact hfresh t' t s.world w hne hs.inv hi' hg (hs.fresh t' ht')
    · by_cases htt : t' = t
      · subst htt
        obtain rfl : k r = p := by simpa [List.getElem?_set, hlt] using hp
        exact ⟨P', hP's, hP'w, hP't⟩
      · have hp' : s.tasks[t']? = some p := by rwa [List.getElem?_set_ne (Ne.symm htt)] at hp
        obtain ⟨R, hRs, hRw, hRt⟩ := hs.tasks t' p hp'
        exact ⟨R, hRs, hRs t s.world w (Ne.symm htt) hs.inv hi' hg hRw, hRt⟩

theorem Sound.reach {s s' : Pool Op Res W} (hs : D.Sound s)
    (h : Reach D.exec main D.ok s s') : D.Sound s' := by
  induction h with
  | refl => exact hs
  | tail _ h ih =>
    obtain ⟨e, hok, he⟩ := h
    exact (ih.step hfresh hmain hok he).1

theorem Sound.reach_rel {R : W → W → Prop} (hrefl : ∀ σ, R σ σ)
    (htrans : ∀ σ₁ σ₂ σ₃, R σ₁ σ₂ → R σ₂ σ₃ → R σ₁ σ₃)
    (hguar : ∀ t σ σ', D.inv σ → D.inv σ' → D.guar t σ σ' → R σ σ')
    {s s' : Pool Op Res W} (hs : D.Sound s) (h : Reach D.exec main D.ok s s') :
    R s.world s'.world := by
  induction h with
  | refl => exact hrefl _
  | tail hr h ih =>
    obtain ⟨e, hok, he⟩ := h
    have hm := hs.reach hfresh hmain hr
    obtain ⟨hs', hw | ⟨t, hg⟩⟩ := hm.step hfresh hmain hok he
    · rw [hw]
      exact ih
    · exact htrans _ _ _ ih (hguar t _ _ hm.inv hs'.inv hg)

/-- What every call of a run keeps, beside the invariant: `ok'` is the condition on the run's
steps, stronger than the discipline's own. -/
theorem Sound.reach_keeps {J : W → Prop} {ok' : ℕ → Op → C → W → Prop}
    (hok : ∀ t o c σ, ok' t o c σ → D.ok t o c σ)
    (hstep : ∀ t o c σ r σ', D.inv σ → D.inv σ' → D.guar t σ σ' → ok' t o c σ →
      D.exec t o c σ = some (r, σ') → J σ → J σ')
    {s s' : Pool Op Res W} (hs : D.Sound s) (hJ : J s.world)
    (h : Reach D.exec main ok' s s') : D.Sound s' ∧ J s'.world := by
  induction h with
  | refl => exact ⟨hs, hJ⟩
  | @tail a b hr h ih =>
    obtain ⟨e, hm, he⟩ := h
    have hm' : a.Meets D.ok e := by
      cases e with
      | spawn e => trivial
      | run t c => exact fun o k ho => hok t o c a.world (hm o k ho)
    obtain ⟨hs', hg⟩ := ih.1.step hfresh hmain hm' he
    refine ⟨hs', ?_⟩
    cases e with
    | spawn e =>
      cases he
      exact ih.2
    | run t c =>
      obtain ⟨o, k, ht, r, w, hex, rfl⟩ := step_run he
      obtain ⟨P, -, hPw, hPt⟩ := ih.1.tasks t _ ht
      have hcall := hPt.2 a.world c r w ih.1.inv hPw (hm' o k ht) hex
      exact hstep t o c a.world r w ih.1.inv hs'.inv hcall.2.1 (hm o k ht) hex ih.2

end Run

theorem sound_init {w : W} (h : D.inv w) (hf : ∀ t, D.fresh t w) : D.Sound ⟨w, []⟩ :=
  ⟨h, fun t _ => hf t, fun t p hp => by simp at hp⟩

end Discipline

end Walgit.Interleaving
