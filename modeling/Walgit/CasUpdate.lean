import Mathlib.Order.Basic
import Walgit.Lib.Interleaving

/-!
# `cas_update`

Any number of calls on one key, each with a function of its own. A commit
applies the function of a call to the stored value. A put that is answered
`Retryable` may have been applied; the loop then applies the function to its own
write. Commits and returned results are history, and so are the function and the
retries left that a put carries.
-/

namespace Walgit.CasUpdate

open Interleaving

variable {V : Type}

/-- An error, an abort, or the new value. -/
abbrev UpdateFn (V : Type) := Option V → Except Unit (Option V)

inductive StoreError
  | preconditionFailed | retryable | other
  deriving DecidableEq, Repr

inductive Returned
  | updated | aborted | failed | store | retriesExhausted
  deriving DecidableEq, Repr

structure Commit (V : Type) where
  task : ℕ
  f : UpdateFn V

structure Result (V : Type) where
  task : ℕ
  f : UpdateFn V
  returned : Returned

structure World (V : Type) where
  object : Option (ℕ × V)
  next : ℕ
  commits : List (Commit V)
  results : List (Result V)

def World.init : World V := ⟨none, 0, [], []⟩

inductive Outcome
  | ok | retryable | retryableApplied | other | otherApplied
  deriving DecidableEq, Repr

inductive Op (V : Type)
  | getMessage
  | putBytes (known : Option ℕ) (new : V) (f : UpdateFn V) (left : ℕ)
  | answer (f : UpdateFn V) (r : Returned)

@[reducible]
def Op.Res : Op V → Type
  | .getMessage => Except StoreError (Option (ℕ × V))
  | .putBytes .. => Except StoreError Unit
  | .answer .. => Unit

section Exec

variable (t : ℕ) (c : Outcome) (σ : World V)

def World.put (new : V) (f : UpdateFn V) : World V :=
  { σ with object := some (σ.next, new)
           next := σ.next + 1
           commits := ⟨t, f⟩ :: σ.commits }

/-- `Create` without a known version, `Update` with one. -/
def World.expects (known : Option ℕ) : Bool := σ.object.map Prod.fst = known

def World.putBytes (known : Option ℕ) (new : V) (f : UpdateFn V) :
    Except StoreError Unit × World V :=
  if σ.expects known then
    match c with
    | .ok => (.ok (), σ.put t new f)
    | .retryable => (.error .retryable, σ)
    | .retryableApplied => (.error .retryable, σ.put t new f)
    | .other => (.error .other, σ)
    | .otherApplied => (.error .other, σ.put t new f)
  else
    match c with
    | .ok => (.error .preconditionFailed, σ)
    | .retryable | .retryableApplied => (.error .retryable, σ)
    | .other | .otherApplied => (.error .other, σ)

def exec (t : ℕ) (o : Op V) (c : Outcome) (σ : World V) : Option (o.Res × World V) :=
  match o with
  | .getMessage => some (if c = .ok then .ok σ.object else .error .other, σ)
  | .putBytes known new f _ => some (σ.putBytes t c known new f)
  | .answer f r => some ((), { σ with results := ⟨t, f, r⟩ :: σ.results })

end Exec

abbrev Task (V : Type) := Prog (Op V) Op.Res

def call (o : Op V) : Task V o.Res := Prog.perform o

/-- One round of the loop; `again` is the next one, or the exhausted budget. -/
def casRound (f : UpdateFn V) (left : ℕ) (again : Task V Returned) : Task V Returned := do
  match ← call .getMessage with
  | .error _ => pure .store
  | .ok current =>
    match f (current.map Prod.snd) with
    | .ok none => pure .aborted
    | .error () => pure .failed
    | .ok (some new) =>
      match ← call (.putBytes (current.map Prod.fst) new f left) with
      | .ok () => pure .updated
      | .error .preconditionFailed => again
      | .error .retryable => again
      | .error .other => pure .store

def casLoop (f : UpdateFn V) : ℕ → Task V Returned
  | 0 => casRound f 0 (pure .retriesExhausted)
  | left + 1 => casRound f (left + 1) (casLoop f left)

structure Job (V : Type) where
  f : UpdateFn V
  maxRetries : ℕ

/-- A call of `cas_update`, with what it returns. -/
def Job.run (j : Job V) : Task V Unit := do
  let r ← casLoop j.f j.maxRetries
  call (.answer j.f r)

abbrev Sys (V : Type) := Pool (Op V) Op.Res (World V)

abbrev Step (V : Type) := Event (Job V) Outcome

def Sys.init : Sys V := ⟨.init, []⟩

section Properties

/-- One application, which changes nothing when the function gives no value. -/
def applyOnce (f : UpdateFn V) (v : Option V) : Option V :=
  match f v with
  | .ok (some new) => some new
  | _ => v

/-- The composition in commit order, the oldest first. -/
def composed : List (Commit V) → Option V
  | [] => none
  | c :: cs => applyOnce c.f (composed cs)

def commitsOf (t : ℕ) (σ : World V) : List (Commit V) := σ.commits.filter fun c => c.task = t

/-- The stored value is the composition of the commits: one with the call's function for each
call that returned a value, none for a call that was aborted or failed. -/
structure ExactlyOnce (σ : World V) : Prop where
  value : σ.object.map Prod.snd = composed σ.commits
  once : ∀ r ∈ σ.results, r.returned = .updated → commitsOf r.task σ = [⟨r.task, r.f⟩]
  never : ∀ r ∈ σ.results, r.returned = .aborted ∨ r.returned = .failed → commitsOf r.task σ = []

/-- A put that is answered `Retryable` and will be tried again was not applied. -/
def AnsweredRight (o : Op V) (c : Outcome) (σ : World V) : Prop :=
  ∀ known new f left, o = .putBytes known new f left → c = .retryableApplied →
    σ.expects known = true → left = 0

def CasRun (ok : Op V → Outcome → World V → Prop) (s : Sys V) : Prop :=
  Reach exec Job.run (fun _ => ok) Sys.init s

end Properties

section Specs

variable {t : ℕ} {σ σ' : World V} {f : UpdateFn V} {α : Type}

structure Inv (σ : World V) : Prop extends ExactlyOnce σ where
  fresh : ∀ o, σ.object = some o → o.1 < σ.next

structure Guar (t : ℕ) (σ σ' : World V) : Prop where
  next : σ.next ≤ σ'.next
  object : ∀ o, σ'.object = some o → σ.object = some o ∨ σ.next ≤ o.1
  present : σ'.object = none → σ.object = none
  commits : ∀ t' ≠ t, commitsOf t' σ' = commitsOf t' σ
  results : ∀ r ∈ σ'.results, r ∈ σ.results ∨ r.task = t

def Running (t : ℕ) (σ : World V) : Prop := ∀ r ∈ σ.results, r.task ≠ t

def discipline : Discipline (Op V) Op.Res (World V) Outcome where
  exec := exec
  ok _ := AnsweredRight
  needs _ _ _ := True
  inv := Inv
  guar := Guar
  fresh t σ := Running t σ ∧ commitsOf t σ = []

abbrev Spec (t : ℕ) (p : Task V α) (P : World V → Prop) (Q : α → World V → Prop) : Prop :=
  discipline.Triple t p P Q

theorem guar_refl : Guar t σ σ :=
  ⟨Nat.le_refl _, fun _ h => .inl h, id, fun _ _ => rfl, fun _ h => .inl h⟩

theorem stable_running : (discipline (V := V)).Stable t (Running t) := by
  intro t' σ σ' ht _ _ hg h r hr
  rcases hg.results r hr with hr | hr
  · exact h r hr
  · exact fun heq => ht (hr.symm.trans heq)

theorem stable_commits {p : List (Commit V) → Prop} :
    (discipline (V := V)).Stable t fun σ => p (commitsOf t σ) := by
  intro t' σ σ' ht _ _ hg h
  rwa [hg.commits t (Ne.symm ht)]

/-- If the object is as it was known, its value is the one that was read. -/
structure Seen (current : Option (ℕ × V)) (σ : World V) : Prop where
  old : ∀ o, current = some o → o.1 < σ.next
  same : σ.object.map Prod.fst = current.map Prod.fst → σ.object = current

theorem stable_seen {current : Option (ℕ × V)} : discipline.Stable t (Seen current) := by
  intro t' σ σ' _ _ _ hg h
  refine ⟨fun o ho => Nat.lt_of_lt_of_le (h.old o ho) hg.next, fun hk => ?_⟩
  cases ho : σ'.object with
  | none =>
    have hnone := hg.present ho
    rw [ho, ← hnone] at hk
    rw [← hnone]
    exact h.same hk
  | some o =>
    rcases hg.object o ho with hold | hnew
    · rw [ho, ← hold] at hk
      rw [← hold]
      exact h.same hk
    · rw [ho] at hk
      cases hc : current with
      | none => simp [hc] at hk
      | some o' =>
        have hlt := h.old o' hc
        have heq : o.1 = o'.1 := by simpa [hc] using hk
        omega

theorem stable_fresh : (discipline (V := V)).Stable t fun σ => Running t σ ∧ commitsOf t σ = [] :=
  stable_running.and (stable_commits (p := (· = [])))

theorem spec_getMessage :
    Spec (V := V) t (call .getMessage) (fun σ => Running t σ ∧ commitsOf t σ = []) fun r σ =>
      (Running t σ ∧ commitsOf t σ = []) ∧ ∀ current, r = .ok current → Seen current σ := by
  refine Discipline.Triple.perform (fun r => stable_fresh.and ?_) (fun _ _ _ => trivial) ?_
  · intro t' σ σ' ht hi hi' hg h current hr
    exact stable_seen t' σ σ' ht hi hi' hg (h current hr)
  intro σ c r σ' hi hp _ hex
  cases hex
  refine ⟨hi, guar_refl, hp, fun current hr => ?_⟩
  split at hr
  · cases hr
    exact ⟨hi.fresh, fun _ => rfl⟩
  · cases hr

/-- What a put leaves of the commits of its task. -/
def AfterPut (t : ℕ) (f : UpdateFn V) (left : ℕ) (r : Except StoreError Unit)
    (cs : List (Commit V)) : Prop :=
  match r with
  | .ok () => cs = [⟨t, f⟩]
  | .error .preconditionFailed => cs = []
  | .error .retryable => cs = [] ∨ left = 0
  | .error .other => True

theorem commitsOf_put (new : V) (f : UpdateFn V) (h : commitsOf t σ = []) :
    commitsOf t (σ.put t new f) = [⟨t, f⟩] ∧ ∀ t' ≠ t, commitsOf t' (σ.put t new f) =
      commitsOf t' σ := by
  unfold commitsOf World.put at *
  refine ⟨by simp [h], fun t' ht => ?_⟩
  simp [Ne.symm ht]

theorem put_step {current : Option (ℕ × V)} {new : V} (hi : Inv σ) (hrun : Running t σ)
    (hnone : commitsOf t σ = []) (hobj : σ.object = current)
    (hf : f (current.map Prod.snd) = .ok (some new)) :
    Inv (σ.put t new f) ∧ Guar t σ (σ.put t new f) := by
  have hcommits := (commitsOf_put new f hnone).2
  refine ⟨⟨⟨?_, fun r hr hu => ?_, fun r hr hn => ?_⟩, ?_⟩,
    ⟨Nat.le_succ _, ?_, nofun, hcommits, fun _ hr => .inl hr⟩⟩
  · change some new = applyOnce f (composed σ.commits)
    rw [← hi.value, hobj, applyOnce, hf]
  · rw [hcommits _ (hrun r hr)]
    exact hi.once r hr hu
  · rw [hcommits _ (hrun r hr)]
    exact hi.never r hr hn
  · intro o ho
    cases ho
    exact Nat.lt_succ_self _
  · intro o ho
    cases ho
    exact .inr (Nat.le_refl _)

theorem spec_putBytes {current : Option (ℕ × V)} {new : V} {left : ℕ}
    (hf : f (current.map Prod.snd) = .ok (some new)) :
    Spec t (call (.putBytes (current.map Prod.fst) new f left))
      (fun σ => (Running t σ ∧ commitsOf t σ = []) ∧ Seen current σ) fun r σ =>
        Running t σ ∧ AfterPut t f left r (commitsOf t σ) := by
  refine Discipline.Triple.perform (fun _ => stable_running.and stable_commits)
    (fun _ _ _ => trivial) ?_
  rintro σ c r σ' hi ⟨⟨hrun, hnone⟩, hseen⟩ hok hex
  have hput := Option.some.inj hex
  unfold World.putBytes at hput
  split at hput
  · rename_i hexp
    have hobj : σ.object = current := hseen.same (of_decide_eq_true hexp)
    obtain ⟨hi', hg⟩ := put_step hi hrun hnone hobj hf
    have hone := (commitsOf_put new f hnone).1
    cases c with
    | ok =>
      cases hput
      exact ⟨hi', hg, hrun, hone⟩
    | retryable =>
      cases hput
      exact ⟨hi, guar_refl, hrun, .inl hnone⟩
    | retryableApplied =>
      cases hput
      exact ⟨hi', hg, hrun, .inr (hok _ _ _ _ rfl rfl hexp)⟩
    | other =>
      cases hput
      exact ⟨hi, guar_refl, hrun, trivial⟩
    | otherApplied =>
      cases hput
      exact ⟨hi', hg, hrun, trivial⟩
  · cases c with
    | ok =>
      cases hput
      exact ⟨hi, guar_refl, hrun, hnone⟩
    | retryable | retryableApplied =>
      cases hput
      exact ⟨hi, guar_refl, hrun, .inl hnone⟩
    | other | otherApplied =>
      cases hput
      exact ⟨hi, guar_refl, hrun, trivial⟩

/-- The commits that a returned result stands for. -/
def Accounted (t : ℕ) (f : UpdateFn V) (r : Returned) (cs : List (Commit V)) : Prop :=
  (r = .updated → cs = [⟨t, f⟩]) ∧ (r = .aborted ∨ r = .failed → cs = [])

theorem spec_casRound {left : ℕ} {again : Task V Returned}
    (hagain : Spec t again (fun σ => Running t σ ∧ (commitsOf t σ = [] ∨ left = 0)) fun r σ =>
      Running t σ ∧ Accounted t f r (commitsOf t σ)) :
    Spec t (casRound f left again) (fun σ => Running t σ ∧ commitsOf t σ = []) fun r σ =>
      Running t σ ∧ Accounted t f r (commitsOf t σ) := by
  refine Discipline.Triple.bind spec_getMessage fun got => ?_
  match got with
  | .error _ => exact fun σ _ h => ⟨h.1.1, nofun, fun hr => by simp at hr⟩
  | .ok current =>
    dsimp only
    split
    · exact fun σ _ h => ⟨h.1.1, nofun, fun _ => h.1.2⟩
    · exact fun σ _ h => ⟨h.1.1, nofun, fun _ => h.1.2⟩
    · rename_i new hf
      refine Discipline.Triple.bind ((spec_putBytes hf).pre fun σ _ h => ⟨h.1, h.2 current rfl⟩)
        fun r => ?_
      match r with
      | .ok () => exact fun σ _ h => ⟨h.1, fun _ => h.2, fun hr => by simp at hr⟩
      | .error .preconditionFailed => exact hagain.pre fun σ _ h => ⟨h.1, .inl h.2⟩
      | .error .retryable => exact hagain.pre fun σ _ h => h
      | .error .other => exact fun σ _ h => ⟨h.1, nofun, fun hr => by simp at hr⟩

theorem spec_casLoop {left : ℕ} :
    Spec t (casLoop f left) (fun σ => Running t σ ∧ commitsOf t σ = []) fun r σ =>
      Running t σ ∧ Accounted t f r (commitsOf t σ) := by
  induction left with
  | zero => exact spec_casRound fun σ _ h => ⟨h.1, nofun, fun hr => by simp at hr⟩
  | succ left ih =>
    refine spec_casRound (ih.pre fun σ _ h => ⟨h.1, h.2.resolve_right (Nat.succ_ne_zero _)⟩)

theorem spec_job (j : Job V) :
    Spec t j.run (fun σ => Running t σ ∧ commitsOf t σ = []) fun _ _ => True := by
  refine Discipline.Triple.bind spec_casLoop fun r => ?_
  refine Discipline.Triple.perform (fun _ => Discipline.Stable.const) (fun _ _ _ => trivial) ?_
  rintro σ c a σ' hi ⟨hrun, hacc⟩ _ hex
  cases hex
  refine ⟨⟨⟨hi.value, fun x hx hu => ?_, fun x hx hn => ?_⟩, hi.fresh⟩,
    ⟨Nat.le_refl _, fun _ h => .inl h, id, fun _ _ => rfl, fun x hx => ?_⟩, trivial⟩
  · rcases List.mem_cons.mp hx with rfl | hx
    · exact hacc.1 hu
    · exact hi.once x hx hu
  · rcases List.mem_cons.mp hx with rfl | hx
    · exact hacc.2 hn
    · exact hi.never x hx hn
  · rcases List.mem_cons.mp hx with rfl | hx
    · exact .inr rfl
    · exact .inl hx

end Specs

section Runs

theorem inv_init : Inv (World.init : World V) := ⟨⟨rfl, nofun, nofun⟩, nofun⟩

/-- Where no applied put is tried again, each call that returned a value was applied exactly
once. -/
theorem cas_update_exactly_once {s : Sys V} (h : CasRun AnsweredRight s) : ExactlyOnce s.world :=
  (Discipline.Sound.reach (D := discipline) (fun _ => stable_fresh) (fun j _ => spec_job j)
    (Discipline.sound_init inv_init fun _ => ⟨nofun, rfl⟩) h).inv.toExactlyOnce

def increment : UpdateFn ℕ := fun v => .ok (some (v.getD 0 + 1))

def calls (t n : ℕ) : List (Step ℕ) := List.replicate n (.run t .ok)

/-- A test of the condition on a call. -/
def answeredRight (_ : ℕ) (o : Op ℕ) (c : Outcome) (_ : World ℕ) : Bool :=
  match o with
  | .putBytes _ _ _ left => c ≠ .retryableApplied || left = 0
  | _ => true

theorem answeredRight_of_test {t : ℕ} {o : Op ℕ} {c : Outcome} {σ : World ℕ}
    (h : answeredRight t o c σ = true) : AnsweredRight o c σ := by
  rintro known new f left rfl rfl -
  simpa [answeredRight] using h

/-- Both calls have read when the first one puts. -/
def contended : List (Step ℕ) :=
  .spawn ⟨increment, 1⟩ :: .spawn ⟨increment, 1⟩ :: calls 0 1 ++ calls 1 1 ++ calls 0 2 ++ calls 1 4

theorem cas_update_exactly_once_contended : ∃ s : Sys ℕ, CasRun AnsweredRight s ∧
    s.world.object = some (1, 2) ∧ s.world.results.map Result.returned = [.updated, .updated] ∧
    ExactlyOnce s.world := by
  have hrun : (Pool.testedRuns exec Job.run answeredRight Sys.init contended).any (fun s =>
      s.world.object = some (1, 2) ∧
        s.world.results.map Result.returned = [.updated, .updated]) = true := by decide +kernel
  obtain ⟨s, hr, hs⟩ := exists_of_testedRuns exec Job.run
    (fun _ _ _ _ => answeredRight_of_test) hrun
  obtain ⟨hobj, hres⟩ := of_decide_eq_true hs
  exact ⟨s, hr, hobj, hres, cas_update_exactly_once hr⟩

/-- One call; its first put is applied but answered `Retryable`. -/
theorem cas_update_applies_twice : ∃ s : Sys ℕ, CasRun (fun _ _ _ => True) s ∧
    s.world.object = some (1, 2) ∧ s.world.results.map Result.returned = [.updated] ∧
    ¬ ExactlyOnce s.world := by
  have hrun : (Pool.runs exec Job.run Sys.init (.spawn ⟨increment, 1⟩ :: calls 0 1 ++
      .run 0 .retryableApplied :: calls 0 3)).any (fun s => s.world.object = some (1, 2) ∧
        s.world.results.map Result.returned = [.updated] ∧ s.world.commits.length = 2 ∧
        s.world.commits.all fun c => c.task = 0 ∧ s.world.results.all fun r => r.task = 0) =
      true := by decide +kernel
  obtain ⟨s, hr, hs⟩ := exists_of_runs exec Job.run hrun
  obtain ⟨hobj, hres, hlen, hall⟩ := of_decide_eq_true hs
  refine ⟨s, hr, hobj, hres, fun hx => ?_⟩
  obtain ⟨r, hresults, hret⟩ := List.map_eq_singleton_iff.mp hres
  have honce := hx.once r (by simp [hresults]) hret
  have hcommits : commitsOf r.task s.world = s.world.commits := by
    refine List.filter_eq_self.mpr fun c hc => ?_
    have hc' := of_decide_eq_true (List.all_eq_true.mp hall c hc)
    have hr' := of_decide_eq_true (List.all_eq_true.mp hc'.2 r (by simp [hresults]))
    simp [hc'.1, hr']
  rw [hcommits] at honce
  rw [honce] at hlen
  cases hlen

end Runs

end Walgit.CasUpdate
