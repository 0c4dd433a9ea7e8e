import Mathlib.Data.List.Infix
import Walgit.Lib.Tiling

/-!
# Resumed reads

A body that ends before the end of its range is asked for again, from the
bytes received on and pinned to the generation of the first answer. The server
is a parameter: it may cut a body anywhere, with an error or without.
-/

namespace Walgit.BulkRead

open Tiling

abbrev Bytes := List UInt8

def resumeAttempts : ℕ := 5

/-- A request for the bytes from the first to the last of a range, of one generation. -/
structure Request where
  range : Option (ℕ × ℕ)
  generation : Option ℤ
  deriving DecidableEq, Repr

/-- The chunks of a body, and whether it ends in a transport error. -/
structure Body where
  pieces : List Bytes
  cut : Bool
  deriving DecidableEq, Repr

/-- A successful answer, with the total of its `Content-Range` and its `Content-Length`. -/
structure Answer where
  total : Option ℕ
  contentLength : Option ℕ
  generation : Option ℤ
  body : Body
  deriving DecidableEq, Repr

/-- The answers to the requests of a read, by their number. -/
abbrev Server := ℕ → Request → Option Answer

section Code

def Answer.size (a : Answer) : ℕ := (a.total.or a.contentLength).getD 0

def rangeHeader (r : ℕ × ℕ) : ℕ × ℕ := (r.1, r.2 - 1)

/-- The reader with the body it is at, and what it yielded before. -/
structure State where
  body : Body
  pos : ℕ
  attempts : ℕ
  out : List Bytes
  deriving DecidableEq, Repr

/-- The position behind the body. -/
def State.reached (σ : State) : ℕ := σ.pos + σ.body.pieces.flatten.length

def State.yielded (σ : State) : List Bytes := σ.out ++ σ.body.pieces

/-- What was yielded, and whether the end was reported as complete. -/
abbrev Outcome := List Bytes × Bool

variable (server : Server) (fin : ℕ) (generation : Option ℤ)

def resume (σ : State) : State ⊕ Outcome :=
  let attempts := σ.attempts + 1
  match server attempts ⟨some (rangeHeader (σ.reached, fin)), generation⟩ with
  | some a => .inl ⟨a.body, σ.reached, attempts, σ.yielded⟩
  | none =>
    if resumeAttempts ≤ attempts then .inr (σ.yielded, false)
    else .inl ⟨⟨[], false⟩, σ.reached, attempts, σ.yielded⟩

/-- The end of a body. -/
def poll (σ : State) : State ⊕ Outcome :=
  if σ.body.cut then
    if resumeAttempts ≤ σ.attempts ∨ fin ≤ σ.reached then .inr (σ.yielded, false)
    else resume server fin generation σ
  else
    if 0 < fin ∧ σ.reached < fin ∧ σ.attempts < resumeAttempts then resume server fin generation σ
    else .inr (σ.yielded, true)

variable {server fin generation} {σ σ' τ : State} {r : Outcome}

theorem resume_inl (h : resume server fin generation σ = .inl σ') :
    σ'.pos = σ.reached ∧ σ'.attempts = σ.attempts + 1 ∧ σ'.out = σ.yielded ∧
      (σ'.body = ⟨[], false⟩ ∨ ∃ a, server (σ.attempts + 1)
        ⟨some (rangeHeader (σ.reached, fin)), generation⟩ = some a ∧ σ'.body = a.body) := by
  rw [resume] at h
  cases ha : server (σ.attempts + 1) ⟨some (rangeHeader (σ.reached, fin)), generation⟩ with
  | some a =>
    rw [ha] at h
    cases h
    exact ⟨rfl, rfl, rfl, .inr ⟨a, rfl, rfl⟩⟩
  | none =>
    rw [ha] at h
    dsimp only at h
    split_ifs at h
    cases h
    exact ⟨rfl, rfl, rfl, .inl rfl⟩

theorem poll_inl (h : poll server fin generation σ = .inl σ') : σ.reached < fin ∧
    σ.attempts < resumeAttempts ∧ resume server fin generation σ = .inl σ' := by
  rw [poll] at h
  split_ifs at h with hcut hend hmore
  · rw [not_or, Nat.not_le, Nat.not_le] at hend
    exact ⟨hend.2, hend.1, h⟩
  · exact ⟨hmore.2.1, hmore.2.2, h⟩

theorem resume_inr (h : resume server fin generation σ = .inr r) : r.2 = false := by
  rw [resume] at h
  split at h
  · cases h
  · split_ifs at h
    cases h
    rfl

theorem poll_complete (h : poll server fin generation σ = .inr r) (hdone : r.2 = true) :
    σ.body.cut = false ∧ r.1 = σ.yielded ∧
      ¬ (0 < fin ∧ σ.reached < fin ∧ σ.attempts < resumeAttempts) := by
  rw [poll] at h
  split_ifs at h with hcut hend hmore
  · cases h
    cases hdone
  · exact absurd hdone (resume_inr h ▸ Bool.false_ne_true)
  · exact absurd hdone (resume_inr h ▸ Bool.false_ne_true)
  · cases h
    exact ⟨Bool.eq_false_iff.mpr hcut, rfl, hmore⟩

theorem poll_attempts (h : poll server fin generation σ = .inl σ') :
    resumeAttempts - σ'.attempts < resumeAttempts - σ.attempts := by
  obtain ⟨-, hlt, hresume⟩ := poll_inl h
  have hnext := (resume_inl hresume).2.1
  omega

variable (server fin generation)

def run (σ : State) : Outcome :=
  match h : poll server fin generation σ with
  | .inr r => r
  | .inl σ' =>
    have := poll_attempts h
    run σ'
termination_by resumeAttempts - σ.attempts

def first (start : ℕ) (a : Answer) : State := ⟨a.body, start, 0, []⟩

/-- `BulkHttp::read`: the size, the generation and what the stream comes to. -/
def read (range : Option (ℕ × ℕ)) (ifGenerationMatch : Option ℤ) :
    Option (ℕ × Option ℤ × Outcome) :=
  (server 0 ⟨range.map rangeHeader, ifGenerationMatch⟩).map fun a =>
    (a.size, a.generation,
      run server (range.elim a.size Prod.snd) a.generation (first (range.elim 0 Prod.fst) a))

end Code

section Runs

variable {server : Server} {fin : ℕ} {generation : Option ℤ} {σ σ' τ : State} {r : Outcome}

/-- The states in which a run comes to the end of a body. -/
inductive Reaches (server : Server) (fin : ℕ) (generation : Option ℤ) (σ : State) : State → Prop
  | refl : Reaches server fin generation σ σ
  | step {τ τ' : State} (h : Reaches server fin generation σ τ)
      (hpoll : poll server fin generation τ = .inl τ') : Reaches server fin generation σ τ'

theorem run_inr (h : poll server fin generation σ = .inr r) : run server fin generation σ = r := by
  rw [run]
  split <;> simp_all

theorem run_inl (h : poll server fin generation σ = .inl σ') :
    run server fin generation σ = run server fin generation σ' := by
  rw [run]
  split <;> simp_all

theorem Reaches.run_eq (h : Reaches server fin generation σ τ) :
    run server fin generation σ = run server fin generation τ := by
  induction h with
  | refl => rfl
  | step _ hpoll ih => exact ih.trans (run_inl hpoll)

theorem Reaches.head (hpoll : poll server fin generation σ = .inl σ')
    (h : Reaches server fin generation σ' τ) : Reaches server fin generation σ τ := by
  induction h with
  | refl => exact .step .refl hpoll
  | step _ hpoll' ih => exact .step ih hpoll'

theorem exists_last : ∃ τ, Reaches server fin generation σ τ ∧
    poll server fin generation τ = .inr (run server fin generation σ) := by
  induction σ using run.induct server fin generation with
  | case1 σ r hpoll => exact ⟨σ, .refl, (run_inr hpoll).symm ▸ hpoll⟩
  | case2 σ σ' hpoll _ ih =>
    obtain ⟨τ, hreach, hlast⟩ := ih
    exact ⟨τ, hreach.head hpoll, (run_inl hpoll).symm ▸ hlast⟩

theorem Reaches.invariant {P : State → Prop} (h : Reaches server fin generation σ τ) (hσ : P σ)
    (hstep : ∀ τ τ', P τ → poll server fin generation τ = .inl τ' → P τ') : P τ := by
  induction h with
  | refl => exact hσ
  | step _ hpoll ih => exact hstep _ _ ih hpoll

end Runs

section Spec

/-- What a server has for a range: all of the object where the range is not valid. -/
def served (content : Bytes) : Option (ℕ × ℕ) → Bytes
  | none => content
  | some (a, b) => if a ≤ b then slice content (a, b + 1) else content

/-- An answer of an object: sizes that are right where they are given, and a body that may end
anywhere. -/
structure AnswerOf (content : Bytes) (range : Option (ℕ × ℕ)) (a : Answer) : Prop where
  total : ∀ n ∈ a.total, n = content.length
  contentLength : ∀ n ∈ a.contentLength, n = (served content range).length
  body : a.body.pieces.flatten <+: served content range

/-- The server states the generation it answers with, and keeps to the one that is asked for. -/
def Honest (server : Server) (contents : ℤ → Bytes) : Prop :=
  ∀ n q a, server n q = some a → ∃ g, a.generation = some g ∧
    (∀ g' ∈ q.generation, g' = g) ∧ AnswerOf (contents g) q.range a

/-- The bytes of the range that is asked for. -/
def requested (content : Bytes) (range : Option (ℕ × ℕ)) : Bytes :=
  range.elim content (slice content)

/-- At the end of a body without an error: what is missing of the range can still be asked for,
and there is nothing for an empty range. -/
structure Settled (content : Bytes) (range : Option (ℕ × ℕ)) (fin : ℕ) (τ : State) : Prop where
  missing : τ.reached < min (range.elim content.length Prod.snd) content.length →
    0 < fin ∧ τ.attempts < resumeAttempts
  empty : ∀ r ∈ range, r.2 ≤ r.1 → τ.body.pieces.flatten = []

variable {server : Server} {contents : ℤ → Bytes} {content : Bytes} {start fin g : ℕ}
  {generation : ℤ} {σ τ τ' : State} {a : Answer} {range : Option (ℕ × ℕ)}

/-- What a run has yielded and has at hand are the bytes from its start on. -/
structure Inv (content : Bytes) (start fin : ℕ) (σ : State) : Prop where
  pos : σ.pos = start + σ.out.flatten.length
  bytes : σ.yielded.flatten <+: slice content (start, fin)

theorem length_yielded : σ.yielded.flatten.length =
    σ.out.flatten.length + σ.body.pieces.flatten.length := by
  rw [State.yielded, List.flatten_append, List.length_append]

theorem Inv.reached (h : Inv content start fin σ) :
    σ.reached = start + σ.yielded.flatten.length := by
  rw [State.reached, h.pos, length_yielded, Nat.add_assoc]

theorem Inv.complete_iff (h : Inv content start fin σ) :
    σ.yielded.flatten = slice content (start, fin) ↔ ¬ σ.reached < min fin content.length := by
  have hreached := h.reached
  have hle := h.bytes.length_le
  have hlen : (slice content (start, fin)).length = min (fin - start) (content.length - start) := by
    rw [slice, List.length_take, List.length_drop]
  constructor
  · intro heq
    rw [heq, hlen] at hreached
    omega
  · intro hnot
    exact h.bytes.eq_of_length (by omega)

theorem Inv.poll (hhonest : Honest server contents)
    (h : Inv (contents generation) start fin σ)
    (hpoll : poll server fin (some generation) σ = .inl τ) :
    Inv (contents generation) start fin τ := by
  obtain ⟨hlt, -, hresume⟩ := poll_inl hpoll
  obtain ⟨hpos, -, hout, hbody⟩ := resume_inl hresume
  have hreached := h.reached
  have hyielded : σ.yielded.flatten = slice (contents generation) (start, σ.reached) := by
    have htake := List.prefix_iff_eq_take.mp h.bytes
    rw [slice, List.take_take] at htake
    rw [htake, slice]
    congr 1
    dsimp only
    omega
  refine ⟨by rw [hpos, hreached, hout], ?_⟩
  rw [State.yielded, hout, List.flatten_append, hyielded,
    ← slice_append (by omega : start ≤ σ.reached) hlt.le, List.prefix_append_right_inj]
  rcases hbody with hnil | ⟨a, ha, hbody⟩
  · rw [hnil]
    exact List.nil_prefix
  · obtain ⟨g, -, hpinned, hanswer⟩ := hhonest _ _ _ ha
    rw [hbody]
    have hprefix := hanswer.body
    rwa [← hpinned _ rfl, served, rangeHeader, if_pos (by dsimp only; omega),
      Nat.sub_add_cancel (by dsimp only; omega)] at hprefix

/-- A run that can resume: complete with all of the range iff it never gives up on bytes that are
missing. -/
theorem Inv.run_iff (hhonest : Honest server contents)
    (h : Inv (contents generation) start fin σ) :
    ((run server fin (some generation) σ).2 = true →
      (run server fin (some generation) σ).1.flatten =
        slice (contents generation) (start, fin)) ↔
      ∀ τ, Reaches server fin (some generation) σ τ → τ.body.cut = false →
        τ.reached < min fin (contents generation).length →
          0 < fin ∧ τ.attempts < resumeAttempts := by
  have hinv : ∀ τ, Reaches server fin (some generation) σ τ →
      Inv (contents generation) start fin τ := fun τ hreach =>
    hreach.invariant h fun _ _ hτ hpoll => hτ.poll hhonest hpoll
  constructor
  · intro hcomplete τ hreach hcut hmissing
    by_contra hnot
    have hpoll : BulkRead.poll server fin (some generation) τ = .inr (τ.yielded, true) := by
      rw [BulkRead.poll, hcut, if_neg Bool.false_ne_true, if_neg fun hmore =>
        hnot ⟨hmore.1, hmore.2.2⟩]
    have hrun := hreach.run_eq.trans (run_inr hpoll)
    rw [hrun] at hcomplete
    exact (hinv τ hreach).complete_iff.mp (hcomplete rfl) hmissing
  · intro hsettled hdone
    obtain ⟨τ, hreach, hlast⟩ := @exists_last server fin (some generation) σ
    obtain ⟨hcut, hout, hnot⟩ := poll_complete hlast hdone
    rw [hout, (hinv τ hreach).complete_iff]
    intro hmissing
    have hmore := hsettled τ hreach hcut hmissing
    exact hnot ⟨hmore.1, by omega, hmore.2⟩

theorem inv_first (h : a.body.pieces.flatten <+: slice content (start, fin)) :
    Inv content start fin (first start a) := by
  refine ⟨rfl, ?_⟩
  rw [State.yielded]
  exact h

theorem first_reached : (first start a).reached = start + a.body.pieces.flatten.length := rfl

/-- A run that cannot resume comes to its end at once. -/
theorem run_first (h : fin ≤ start) (generation : Option ℤ) :
    run server fin generation (first start a) = (a.body.pieces, !a.body.cut) ∧
      ∀ τ, Reaches server fin generation (first start a) τ → τ = first start a := by
  have hreached : start ≤ (first start a).reached := Nat.le_add_right _ _
  have hpoll : poll server fin generation (first start a) = .inr (a.body.pieces, !a.body.cut) := by
    cases hcut : a.body.cut with
    | true =>
      rw [poll, first, hcut, if_pos rfl, if_pos (.inr (h.trans hreached))]
      rfl
    | false =>
      rw [poll, first, hcut, if_neg Bool.false_ne_true, if_neg fun hmore => ?_]
      · rfl
      · exact absurd (h.trans hreached) (Nat.not_le.mpr hmore.2.1)
  refine ⟨run_inr hpoll, fun τ hreach => ?_⟩
  induction hreach with
  | refl => rfl
  | step _ hnext ih =>
    rw [ih, hpoll] at hnext
    cases hnext

theorem size_eq {q : Option (ℕ × ℕ)} (h : AnswerOf content q a) (hq : q = none) :
    a.size = 0 ∨ a.size = content.length := by
  subst hq
  rw [Answer.size]
  cases htotal : a.total with
  | some n => exact .inr (h.total n htotal)
  | none =>
    cases hlength : a.contentLength with
    | some n => exact .inr (h.contentLength n hlength)
    | none => exact .inl rfl

theorem run_resuming (hhonest : Honest server contents)
    (hanswer : AnswerOf (contents generation) (range.map rangeHeader) a)
    (h : range.elim 0 Prod.fst < range.elim a.size Prod.snd) :
    ((run server (range.elim a.size Prod.snd) (some generation)
        (first (range.elim 0 Prod.fst) a)).2 = true →
      (run server (range.elim a.size Prod.snd) (some generation)
        (first (range.elim 0 Prod.fst) a)).1.flatten = requested (contents generation) range) ↔
      ∀ τ, Reaches server (range.elim a.size Prod.snd) (some generation)
          (first (range.elim 0 Prod.fst) a) τ → τ.body.cut = false →
        Settled (contents generation) range (range.elim a.size Prod.snd) τ := by
  have hbody := hanswer.body
  cases range with
  | none =>
    have hsize : a.size = (contents generation).length :=
      (size_eq hanswer rfl).resolve_left (Nat.ne_of_gt h)
    have hall : slice (contents generation) (0, a.size) = contents generation := by
      rw [slice, hsize, List.drop_zero]
      exact List.take_length
    have hinv : Inv (contents generation) 0 a.size (first 0 a) := inv_first (by rwa [hall])
    have hiff := hinv.run_iff hhonest
    rw [hall] at hiff
    refine hiff.trans (forall_congr' fun τ => imp_congr_right fun _ => imp_congr_right fun _ => ?_)
    refine ⟨fun hmissing => ⟨?_, fun r hr => by cases hr⟩, fun hsettled => ?_⟩
    · rw [Option.elim_none, ← hsize]
      exact fun hlt => hmissing (by rwa [← hsize])
    · have hknown := hsettled.missing
      rw [Option.elim_none, Option.elim_none, hsize] at hknown
      rw [hsize]
      exact hknown
  | some r =>
    have hlt : r.1 < r.2 := h
    have hserved : served (contents generation) ((some r).map rangeHeader) =
        slice (contents generation) r := by
      rw [Option.map_some, served, rangeHeader, if_pos (by omega), Nat.sub_add_cancel (by omega)]
    have hinv : Inv (contents generation) r.1 r.2 (first r.1 a) := inv_first (hserved ▸ hbody)
    refine (hinv.run_iff hhonest).trans
      (forall_congr' fun τ => imp_congr_right fun _ => imp_congr_right fun _ => ?_)
    refine ⟨fun hmissing => ⟨hmissing, fun r' hr' hempty => ?_⟩, fun hsettled => hsettled.missing⟩
    cases hr'
    exact absurd hempty (Nat.not_le.mpr hlt)

theorem whole_iff_settled (hbody : a.body.pieces.flatten <+: content) (hzero : a.size = 0) :
    a.body.pieces.flatten = requested content none ↔ Settled content none a.size (first 0 a) := by
  rw [requested, Option.elim_none]
  constructor
  · intro heq
    refine ⟨fun hmissing => ?_, fun r hr => by cases hr⟩
    rw [first_reached, heq] at hmissing
    change 0 + content.length < min content.length content.length at hmissing
    omega
  · intro hsettled
    refine hbody.eq_of_length (Nat.le_antisymm hbody.length_le (Nat.not_lt.mp fun hlt => ?_))
    have hmissing := hsettled.missing
    rw [first_reached] at hmissing
    change 0 + a.body.pieces.flatten.length < min content.length content.length →
      0 < a.size ∧ _ at hmissing
    have hpos := (hmissing (by omega)).1
    omega

theorem empty_iff_settled {r : ℕ × ℕ} (hle : r.2 ≤ r.1) :
    a.body.pieces.flatten = requested content (some r) ↔
      Settled content (some r) r.2 (first r.1 a) := by
  have hnone : requested content (some r) = [] := by
    rw [requested, Option.elim_some, slice, Nat.sub_eq_zero_of_le hle, List.take_zero]
  rw [hnone]
  constructor
  · intro hnil
    refine ⟨fun hmissing => ?_, fun _ _ _ => hnil⟩
    rw [first_reached] at hmissing
    change r.1 + _ < min r.2 _ at hmissing
    omega
  · exact fun hsettled => hsettled.empty r rfl hle

theorem run_at_once (hanswer : AnswerOf (contents generation) (range.map rangeHeader) a)
    (h : range.elim a.size Prod.snd ≤ range.elim 0 Prod.fst) :
    ((run server (range.elim a.size Prod.snd) (some generation)
        (first (range.elim 0 Prod.fst) a)).2 = true →
      (run server (range.elim a.size Prod.snd) (some generation)
        (first (range.elim 0 Prod.fst) a)).1.flatten = requested (contents generation) range) ↔
      ∀ τ, Reaches server (range.elim a.size Prod.snd) (some generation)
          (first (range.elim 0 Prod.fst) a) τ → τ.body.cut = false →
        Settled (contents generation) range (range.elim a.size Prod.snd) τ := by
  obtain ⟨hrun, hreach⟩ := @run_first server _ _ a h (some generation)
  have hone : (∀ τ, Reaches server (range.elim a.size Prod.snd) (some generation)
        (first (range.elim 0 Prod.fst) a) τ → τ.body.cut = false →
      Settled (contents generation) range (range.elim a.size Prod.snd) τ) ↔
      (a.body.cut = false → Settled (contents generation) range (range.elim a.size Prod.snd)
        (first (range.elim 0 Prod.fst) a)) := by
    constructor
    · exact fun hall => hall _ .refl
    · intro hfirst τ hτ
      rw [hreach τ hτ]
      exact hfirst
  rw [hone, hrun, Bool.not_eq_true']
  refine imp_congr_right fun _ => ?_
  cases range with
  | none => exact whole_iff_settled hanswer.body (Nat.le_zero.mp h)
  | some r => exact empty_iff_settled h

/-- A read that is reported as complete has all bytes of the range, iff at every end without an
error what is missing can still be asked for, and nothing came for an empty range. -/
theorem bulk_read_complete (hhonest : Honest server contents) {ifGenerationMatch : Option ℤ}
    (hopen : server 0 ⟨range.map rangeHeader, ifGenerationMatch⟩ = some a)
    (hgeneration : a.generation = some generation) :
    (∀ size g bytes, read server range ifGenerationMatch = some (size, g, bytes, true) →
      bytes.flatten = requested (contents generation) range) ↔
      ∀ τ, Reaches server (range.elim a.size Prod.snd) (some generation)
          (first (range.elim 0 Prod.fst) a) τ → τ.body.cut = false →
        Settled (contents generation) range (range.elim a.size Prod.snd) τ := by
  obtain ⟨g, hg, -, hanswer⟩ := hhonest _ _ _ hopen
  obtain rfl : generation = g := Option.some.inj (hgeneration.symm.trans hg)
  have hread : (∀ size g bytes, read server range ifGenerationMatch = some (size, g, bytes, true) →
      bytes.flatten = requested (contents generation) range) ↔
      ((run server (range.elim a.size Prod.snd) (some generation)
        (first (range.elim 0 Prod.fst) a)).2 = true →
          (run server (range.elim a.size Prod.snd) (some generation)
            (first (range.elim 0 Prod.fst) a)).1.flatten =
              requested (contents generation) range) := by
    rw [read, hopen, Option.map_some, hgeneration]
    constructor
    · intro h hdone
      refine h a.size (some generation) _ ?_
      rw [← hdone]
    · intro h size g bytes heq
      have hpair := Option.some.inj heq
      rw [Prod.mk.injEq, Prod.mk.injEq] at hpair
      rw [hpair.2.2] at h
      exact h rfl
  rw [hread]
  by_cases hresumes : range.elim 0 Prod.fst < range.elim a.size Prod.snd
  · exact run_resuming hhonest hanswer hresumes
  · exact run_at_once hanswer (Nat.not_lt.mp hresumes)

/-- A server of one object of two bytes that has the same body for a range every time. -/
def twoBytes (body : Option (ℕ × ℕ) → Body) : Server := fun _ q =>
  if q.generation.getD 7 = 7 then some ⟨some 2, none, some 7, body q.range⟩ else none

theorem honest_twoBytes {body : Option (ℕ × ℕ) → Body}
    (h : ∀ q, (body q).pieces.flatten <+: served [1, 2] q) :
    Honest (twoBytes body) fun _ => [1, 2] := by
  intro n q a ha
  rw [twoBytes] at ha
  split_ifs at ha with hpinned
  cases ha
  refine ⟨7, rfl, fun g hg => ?_, fun n hn => ?_, fun n hn => (by cases hn), h q.range⟩
  · rwa [hg, Option.getD_some] at hpinned
  · cases hn
    rfl

theorem bulk_read_complete_twoBytes :
    (∀ size g bytes, read (twoBytes fun q => ⟨[served [1, 2] q], false⟩) none none =
        some (size, g, bytes, true) → bytes.flatten = requested [1, 2] none) ↔
      ∀ τ, Reaches (twoBytes fun q => ⟨[served [1, 2] q], false⟩) 2 (some 7)
          (first 0 ⟨some 2, none, some 7, ⟨[[1, 2]], false⟩⟩) τ → τ.body.cut = false →
        Settled [1, 2] none 2 τ :=
  @bulk_read_complete (twoBytes fun q => ⟨[served [1, 2] q], false⟩) (fun _ => [1, 2]) 7
    ⟨some 2, none, some 7, ⟨[[1, 2]], false⟩⟩ none
    (honest_twoBytes fun q => by rw [List.flatten_singleton]) none rfl rfl

/-- A body that ends before its first byte, six times in a row, passes for the object. -/
theorem short_read_completed : Honest (twoBytes fun _ => ⟨[], false⟩) (fun _ => [1, 2]) ∧
    ∃ size g bytes, read (twoBytes fun _ => ⟨[], false⟩) none none =
      some (size, g, bytes, true) ∧ bytes.flatten ≠ requested [1, 2] none := by
  refine ⟨honest_twoBytes fun _ => List.nil_prefix, 2, some 7, [], ?_, by decide⟩
  have hstep : ∀ k < 5, poll (twoBytes fun _ => ⟨[], false⟩) 2 (some 7) ⟨⟨[], false⟩, 0, k, []⟩ =
      .inl ⟨⟨[], false⟩, 0, k + 1, []⟩ := by decide
  have hrun : run (twoBytes fun _ => ⟨[], false⟩) 2 (some 7) ⟨⟨[], false⟩, 0, 0, []⟩ =
      ([], true) := by
    rw [run_inl (hstep 0 (by decide)), run_inl (hstep 1 (by decide)), run_inl (hstep 2 (by decide)),
      run_inl (hstep 3 (by decide)), run_inl (hstep 4 (by decide))]
    exact run_inr rfl
  exact congrArg (fun r => some (2, some 7, r)) hrun

end Spec

end Walgit.BulkRead
