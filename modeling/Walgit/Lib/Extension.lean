import Walgit.Lib.Interleaving

/-!
# Systems with more parties

A pool over a world is extended by parties with calls and a state of their own.
Their calls read the world and change only their own state, so whatever is
proved of a program under the smaller discipline holds of it in the larger
system, together with any fact about the new state that the program's calls
cannot touch.
-/

namespace Walgit.Interleaving

variable {Op Op' : Type} {Res : Op → Type} {Res' : Op' → Type} {α β W X C E : Type}

abbrev Both (Res : Op → Type) (Res' : Op' → Type) : Op ⊕ Op' → Type
  | .inl o => Res o
  | .inr o => Res' o

def Prog.lift (Res' : Op' → Type) :
    Prog Op Res α → Prog (Op ⊕ Op') (Both Res Res') α
  | .ret a => .ret a
  | .call o k => .call (.inl o) fun r => (k r).lift Res'

theorem Prog.lift_bind {p : Prog Op Res α} {f : α → Prog Op Res β} :
    (p >>= f).lift Res' = p.lift Res' >>= fun a => (f a).lift Res' := by
  change (p.bind f).lift Res' = (p.lift Res').bind fun a => (f a).lift Res'
  induction p with
  | ret a => rfl
  | call o k ih => exact congrArg (Prog.call (Sum.inl o)) (funext ih)

theorem Prog.within_lift {p : Op ⊕ Op' → Prop} {q : Prog Op Res α}
    (h : q.Within fun o => p (.inl o)) : (q.lift Res').Within p := by
  induction q with
  | ret a => trivial
  | call o k ih => exact ⟨h.1, fun r => ih r (h.2 r)⟩

def Prog.extra (Res : Op → Type) {Res' : Op' → Type} (o : Op') :
    Prog (Op ⊕ Op') (Both Res Res') (Res' o) :=
  .call (.inr o) .ret

/-- The program without the calls of the new parties, each answered by `ans`. -/
def Prog.erase (ans : (o : Op') → Res' o) :
    Prog (Op ⊕ Op') (Both Res Res') α → Prog Op Res α
  | .ret a => .ret a
  | .call (.inl o) k => .call o fun r => (k r).erase ans
  | .call (.inr o) k => (k (ans o)).erase ans

theorem Prog.erase_lift {ans : (o : Op') → Res' o} {p : Prog Op Res α} :
    (p.lift Res').erase ans = p := by
  induction p with
  | ret a => rfl
  | call o k ih => exact congrArg (Prog.call o) (funext ih)

theorem Prog.erase_bind {ans : (o : Op') → Res' o} {p : Prog (Op ⊕ Op') (Both Res Res') α}
    {f : α → Prog (Op ⊕ Op') (Both Res Res') β} :
    (p >>= f).erase ans = p.erase ans >>= fun a => (f a).erase ans := by
  change (p.bind f).erase ans = (p.erase ans).bind fun a => (f a).erase ans
  induction p with
  | ret a => rfl
  | call o k ih =>
    cases o with
    | inl o => exact congrArg (Prog.call o) (funext ih)
    | inr o => exact ih (ans o)

/-- The new parties: what their calls do, when they are made, the invariant and what a task
promises about the new state. `keep` says that the old calls cannot break the new invariant. -/
structure Extension (D : Discipline Op Res W C) (Res' : Op' → Type) (X : Type) where
  exec : ℕ → (o : Op') → C → W → X → Option (Res' o × X)
  ok : ℕ → Op' → C → W → X → Prop
  inv : W → X → Prop
  guar : ℕ → W → X → X → Prop
  keep : ∀ t o c σ r σ' x, D.inv σ → D.inv σ' → D.guar t σ σ' → D.ok t o c σ →
    D.exec t o c σ = some (r, σ') → inv σ x → inv σ' x

namespace Extension

variable {D : Discipline Op Res W C} (Y : Extension D Res' X)

def call (t : ℕ) (o : Op ⊕ Op') (c : C) (σ : W × X) : Option (Both Res Res' o × (W × X)) :=
  match o with
  | .inl o => (D.exec t o c σ.1).map fun r => (r.1, r.2, σ.2)
  | .inr o => (Y.exec t o c σ.1 σ.2).map fun r => (r.1, σ.1, r.2)

def Ok (t : ℕ) (o : Op ⊕ Op') (c : C) (σ : W × X) : Prop :=
  match o with
  | .inl o => D.ok t o c σ.1
  | .inr o => Y.ok t o c σ.1 σ.2

def discipline : Discipline (Op ⊕ Op') (Both Res Res') (W × X) C where
  exec := Y.call
  ok := Y.Ok
  needs t o σ := match o with
    | .inl o => D.needs t o σ.1
    | .inr _ => True
  inv σ := D.inv σ.1 ∧ Y.inv σ.1 σ.2
  guar t σ σ' := (D.guar t σ.1 σ'.1 ∧ σ'.2 = σ.2) ∨ (σ'.1 = σ.1 ∧ Y.guar t σ.1 σ.2 σ'.2)
  fresh t σ := D.fresh t σ.1

variable {Y} {t : ℕ}

theorem stable_fst {P : W → Prop} (h : D.Stable t P) : Y.discipline.Stable t fun σ => P σ.1 := by
  rintro t' σ σ' ht hi hi' (⟨hg, -⟩ | ⟨he, -⟩) hp
  · exact h t' σ.1 σ'.1 ht hi.1 hi'.1 hg hp
  · rwa [he]

/-- A fact about the new state, with facts about the world that last. -/
structure Frame (Y : Extension D Res' X) (t : ℕ) (N : W × X → Prop) : Prop where
  world : ∀ t' σ σ' x, D.inv σ → D.inv σ' → D.guar t' σ σ' → N (σ, x) → N (σ', x)
  extra : ∀ t' σ x x', t' ≠ t → D.inv σ → Y.inv σ x → Y.inv σ x' → Y.guar t' σ x x' →
    N (σ, x) → N (σ, x')

theorem Frame.stable {N : W × X → Prop} (h : Frame Y t N) : Y.discipline.Stable t N := by
  rintro t' ⟨σ, x⟩ ⟨σ', x'⟩ ht hi hi' (⟨hg, he⟩ | ⟨he, hg⟩) hn
  · obtain rfl : x' = x := he
    exact h.world t' σ σ' x' hi.1 hi'.1 hg hn
  · obtain rfl : σ' = σ := he
    exact h.extra t' σ' x x' ht hi.1 hi.2 hi'.2 hg hn

theorem Frame.and {N M : W × X → Prop} (h : Frame Y t N) (h' : Frame Y t M) :
    Frame Y t fun σ => N σ ∧ M σ :=
  ⟨fun t' σ σ' x hi hi' hg hn => ⟨h.world t' σ σ' x hi hi' hg hn.1,
      h'.world t' σ σ' x hi hi' hg hn.2⟩,
    fun t' σ x x' ht hi hx hx' hg hn => ⟨h.extra t' σ x x' ht hi hx hx' hg hn.1,
      h'.extra t' σ x x' ht hi hx hx' hg hn.2⟩⟩

theorem Frame.const {p : Prop} : Frame Y t fun _ => p :=
  ⟨fun _ _ _ _ _ _ _ h => h, fun _ _ _ _ _ _ _ _ _ h => h⟩

theorem Frame.of_world {P : W → Prop}
    (h : ∀ t' σ σ', D.inv σ → D.inv σ' → D.guar t' σ σ' → P σ → P σ') :
    Frame Y t fun σ => P σ.1 :=
  ⟨fun t' σ σ' _ hi hi' hg hp => h t' σ σ' hi hi' hg hp, fun _ _ _ _ _ _ _ _ _ h => h⟩

theorem lift_triple {p : Prog Op Res α} {P : W → Prop} {Q : α → W → Prop} {N : W × X → Prop}
    (hN : Frame Y t N) (h : D.Triple t p P Q) :
    Y.discipline.Triple t (p.lift Res') (fun σ => P σ.1 ∧ N σ) fun a σ => Q a σ.1 ∧ N σ := by
  induction p generalizing P with
  | ret a => exact fun σ hi hp => ⟨h σ.1 hi.1 hp.1, hp.2⟩
  | call o k ih =>
    refine ⟨fun σ hi hp => h.1 σ.1 hi.1 hp.1, fun σ c _ σ' hi hp hok hex => ?_⟩
    obtain ⟨⟨r, w⟩, he, heq⟩ := Option.map_eq_some_iff.mp hex
    cases heq
    obtain ⟨hi', hg, P', hP', hPσ, ht⟩ := h.2 σ.1 c r w hi.1 hp.1 hok he
    refine ⟨⟨hi', Y.keep t o c σ.1 r w σ.2 hi.1 hi' hg hok he hi.2⟩, .inl ⟨hg, rfl⟩,
      fun σ => P' σ.1 ∧ N σ, (stable_fst hP').and hN.stable,
      ⟨hPσ, hN.world t σ.1 w σ.2 hi.1 hi' hg hp.2⟩, ih r ht⟩

theorem extra_triple {o : Op'} {P : W × X → Prop} {Q : Res' o → W × X → Prop}
    (hQ : ∀ r, Y.discipline.Stable t (Q r))
    (h : ∀ σ x c r x', D.inv σ → Y.inv σ x → P (σ, x) → Y.ok t o c σ x →
      Y.exec t o c σ x = some (r, x') → Y.inv σ x' ∧ Y.guar t σ x x' ∧ Q r (σ, x')) :
    Y.discipline.Triple t (Prog.extra Res o) P Q := by
  refine ⟨fun _ _ _ => trivial, fun σ c _ σ' hi hp hok hex => ?_⟩
  obtain ⟨⟨r, x'⟩, he, heq⟩ := Option.map_eq_some_iff.mp hex
  cases heq
  obtain ⟨hinv, hg, hq⟩ := h σ.1 σ.2 c r x' hi.1 hi.2 hp hok he
  exact ⟨⟨hi.1, hinv⟩, .inr ⟨rfl, hg⟩, Q r, hQ r, hq, fun _ _ h => h⟩

end Extension

end Walgit.Interleaving
