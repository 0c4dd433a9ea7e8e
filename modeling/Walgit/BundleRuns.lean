import Walgit.RetentionRules
import Mathlib.Tactic.Common

/-!
# Runs of the bundle builders

Builds, composes and retention passes on any number of hosts, one call of the
store at a time. An operation reads the list, uploads its object, and repeats
a conditional write of the list until it succeeds; then it deletes the objects
of the entries that the list it had read at first holds and the written one
does not. In a run where by the rules of retention what is added stays, a compose
adds no slot twice, what joins the list between the first read and the write
stays too, and no key on its way out is listed again, the list and the objects
stay consistent.
-/

namespace Walgit.Bundles

inductive Request
  | build (entry : BundleEntry)
  | compose (entry : BundleEntry)
  | retention
  deriving DecidableEq, Repr

def Request.entry : Request → Option BundleEntry
  | .build e => some e
  | .compose e => some e
  | .retention => none

def Request.extended (req : Request) (current : List BundleEntry) : List BundleEntry :=
  match req with
  | .build e => withBuilt e current
  | .compose e => withComposed e current
  | .retention => current

/-- The closure given to `cas_update_list`; a retention with nothing to prune writes nothing. -/
def Request.update (cfg : BundlesConfig) (req : Request) (current : List BundleEntry) :
    Option (List BundleEntry) :=
  let next := retain cfg (req.extended current)
  if req = .retention ∧ next = current then none else some next

/-- Where an operation stands. `old` is the list read before the upload, `current` the one it
replaced, `new` the one it wrote. -/
inductive Phase
  | idle
  | listed (old : List BundleEntry)
  | ready (req : Request) (old : List BundleEntry)
  | loaded (req : Request) (old : List BundleEntry) (version : ℕ) (current : List BundleEntry)
  | deleting (req : Request) (current new : List BundleEntry) (pending deleted : List String)
  | returned (req : Request) (current new : List BundleEntry) (deleted : List String)
  | failed
  deriving DecidableEq, Repr

/-- The store and the operations. `version` counts the writes of the list; at `0` there is none. -/
structure World where
  version : ℕ
  bundles : List BundleEntry
  objects : List String
  ops : ℕ → Phase

def World.init : World := ⟨0, [], [], fun _ => .idle⟩

def World.setOp (w : World) (i : ℕ) (p : Phase) : World :=
  { w with ops := fun j => if j = i then p else w.ops j }

/-- A conditional write is answered, or applied and answered with an error, or not applied. -/
inductive Outcome
  | ok | lost | error
  deriving DecidableEq, Repr

inductive Act
  | readList (i : ℕ)
  | upload (i : ℕ) (req : Request)
  | getList (i : ℕ)
  | cas (i : ℕ) (outcome : Outcome)
  | delete (i : ℕ) (ok : Bool)
  | finish (i : ℕ)
  | stop (i : ℕ)
  deriving DecidableEq, Repr

def World.commit (w : World) (new : List BundleEntry) : World :=
  { w with version := w.version + 1, bundles := new }

/-- One call of an operation. `stop` is a crash, an error or the last retry. -/
def step (cfg : BundlesConfig) (w : World) : Act → Option World
  | .readList i =>
    match w.ops i with
    | .idle => some (w.setOp i (.listed w.bundles))
    | _ => none
  | .upload i req =>
    match w.ops i with
    | .listed old =>
      some ({ w with objects := req.entry.toList.map BundleEntry.key ++ w.objects }.setOp i
        (.ready req old))
    | _ => none
  | .getList i =>
    match w.ops i with
    | .ready req old => some (w.setOp i (.loaded req old w.version w.bundles))
    | _ => none
  | .cas i outcome =>
    match w.ops i with
    | .loaded req old version current =>
      match req.update cfg current with
      | none => some (w.setOp i (.returned req current current []))
      | some new =>
        if outcome = .error then some (w.setOp i .failed)
        else if w.version = version then
          some ((w.commit new).setOp i (if outcome = .ok then
            .deleting req current new (prunedDiff old new) [] else .failed))
        else some (w.setOp i (.ready req old))
    | _ => none
  | .delete i ok =>
    match w.ops i with
    | .deleting req current new (k :: ks) deleted =>
      some (if ok then
        { w with objects := w.objects.filter (· ≠ k) }.setOp i
          (.deleting req current new ks (k :: deleted))
      else w.setOp i (.deleting req current new ks deleted))
    | _ => none
  | .finish i =>
    match w.ops i with
    | .deleting req current new [] deleted => some (w.setOp i (.returned req current new deleted))
    | _ => none
  | .stop i => some (w.setOp i .failed)

inductive Run (cfg : BundlesConfig) : World → Prop
  | init : Run cfg .init
  | step {w w' : World} {a : Act} : Run cfg w → step cfg w a = some w' → Run cfg w'

/-- What the builders promise of the list and the objects. -/
structure Consistent (w : World) : Prop where
  answered : ∀ i req current new deleted e, w.ops i = .returned req current new deleted →
    req.entry = some e → e ∈ new
  distinct : Distinct w.bundles
  stored : ∀ b ∈ w.bundles, b.key ∈ w.objects
  cleared : ∀ i req current new deleted, w.ops i = .returned req current new deleted →
    ∀ b ∈ current, b.key ∉ new.map BundleEntry.key → b.key ∈ deleted

/-! ## The condition on the steps -/

/-- What an operation may write: a compose adds no slot that is listed, and the object of the
entry is there and no operation is about to delete its key. -/
structure Addable (w : World) (req : Request) (current : List BundleEntry) : Prop where
  fresh : ∀ e, req = .compose e → ∀ b ∈ current,
    ¬ (b.strategy = e.strategy ∧ b.creationToken = e.creationToken)
  there : ∀ e, req.entry = some e → e.key ∈ w.objects
  staying : ∀ e, req.entry = some e → ∀ j r c n pending d,
    w.ops j = .deleting r c n pending d → e.key ∉ pending

/-- What an answered write may do: by the tokens in the extended list the entry stays, and so does
each that joined the list since the read before the upload, or another with its key. -/
structure Complete (cfg : BundlesConfig) (req : Request) (old current : List BundleEntry) :
    Prop where
  added : ∀ e, req.entry = some e → Stays cfg (req.extended current) e.id
  joined : ∀ b ∈ current, b.key ∉ old.map BundleEntry.key →
    ∃ c ∈ req.extended current, c.key = b.key ∧ Stays cfg (req.extended current) c.id

def Sound (cfg : BundlesConfig) (w : World) : Act → Prop
  | .cas i outcome => ∀ req old version current, w.ops i = .loaded req old version current →
      outcome ≠ .error → w.version = version →
      Addable w req current ∧ (outcome = .ok → Complete cfg req old current)
  | .delete _ ok => ok = true
  | _ => True

inductive SoundRun (cfg : BundlesConfig) : World → Prop
  | init : SoundRun cfg .init
  | step {w w' : World} {a : Act} : SoundRun cfg w → Sound cfg w a → step cfg w a = some w' →
      SoundRun cfg w'

/-! ## The invariant -/

/-- What an operation's phase says of the list as it is. -/
def Phase.Ok (now : ℕ) (bundles : List BundleEntry) : Phase → Prop
  | .loaded _ _ version current => version ≤ now ∧ (now = version → current = bundles)
  | .deleting req current new pending deleted =>
    (∀ e, req.entry = some e → e ∈ new) ∧
    (∀ k ∈ pending, k ∉ bundles.map BundleEntry.key) ∧
    ∀ b ∈ current, b.key ∉ new.map BundleEntry.key → b.key ∈ pending ∨ b.key ∈ deleted
  | .returned req current new deleted =>
    (∀ e, req.entry = some e → e ∈ new) ∧
    ∀ b ∈ current, b.key ∉ new.map BundleEntry.key → b.key ∈ deleted
  | _ => True

structure Inv (w : World) : Prop where
  ops : ∀ i, (w.ops i).Ok w.version w.bundles
  distinct : Distinct w.bundles
  stored : ∀ b ∈ w.bundles, b.key ∈ w.objects

variable {cfg : BundlesConfig} {w w' : World} {i : ℕ} {p : Phase} {req : Request}
  {old current : List BundleEntry} {a : Act}

theorem Inv.consistent (h : Inv w) : Consistent w where
  answered i req current new deleted e hi := by
    have hok := h.ops i
    rw [hi] at hok
    exact hok.1 e
  distinct := h.distinct
  stored := h.stored
  cleared i req current new deleted hi := by
    have hok := h.ops i
    rw [hi] at hok
    exact hok.2

theorem inv_init : Inv .init := ⟨fun _ => trivial, List.Pairwise.nil, fun _ h => by cases h⟩

theorem Inv.setOp (h : Inv w) (hp : p.Ok w.version w.bundles) : Inv (w.setOp i p) := by
  refine ⟨fun j => ?_, h.distinct, h.stored⟩
  by_cases hj : j = i
  · simpa [World.setOp, hj] using hp
  · simpa [World.setOp, hj] using h.ops j

theorem Inv.upload (h : Inv w) {keys : List String} : Inv { w with objects := keys ++ w.objects } :=
  ⟨h.ops, h.distinct, fun b hb => List.mem_append_right _ (h.stored b hb)⟩

theorem mem_extended {b : BundleEntry} (h : b ∈ req.extended current) :
    b ∈ current ∨ req.entry = some b := by
  cases req with
  | build e =>
    obtain h | rfl := mem_withBuilt h
    · exact .inl h
    · exact .inr rfl
  | compose e =>
    rcases List.mem_append.mp h with h | h
    · exact .inl h
    · exact .inr (congrArg some (List.mem_singleton.mp h).symm)
  | retention => exact .inl h

theorem entry_mem_extended {e : BundleEntry} (h : req.entry = some e) :
    e ∈ req.extended current := by
  cases req with
  | build e =>
    cases h
    exact List.mem_append_right _ List.mem_cons_self
  | compose e =>
    cases h
    exact List.mem_append_right _ List.mem_cons_self
  | retention => cases h

theorem distinct_extended (h : Distinct current) (ha : Addable w req current) :
    Distinct (req.extended current) := by
  cases req with
  | build e => exact h.withBuilt
  | compose e => exact h.withComposed (ha.fresh e rfl)
  | retention => exact h

/-- Writing an addable update keeps the invariant for every operation. -/
theorem Inv.commit (h : Inv w) (ha : Addable w req w.bundles) :
    Inv (w.commit (retain cfg (req.extended w.bundles))) := by
  have hmem : ∀ b ∈ retain cfg (req.extended w.bundles), b ∈ w.bundles ∨ req.entry = some b :=
    fun b hb => mem_extended (mem_retain.mp hb).1
  refine ⟨fun j => ?_, (distinct_extended h.distinct ha).retain, fun b hb => ?_⟩
  · have hj := h.ops j
    change (w.ops j).Ok (w.version + 1) _
    cases hp : w.ops j with
    | loaded r o v c =>
      rw [hp] at hj
      have hlt : v < w.version + 1 := Nat.lt_succ_of_le hj.1
      exact ⟨hlt.le, fun hv => absurd hv (ne_of_gt hlt)⟩
    | deleting r c n pending d =>
      rw [hp] at hj
      refine ⟨hj.1, fun k hk hin => ?_, hj.2.2⟩
      obtain ⟨b, hb, rfl⟩ := List.mem_map.mp hin
      obtain hb | he := hmem b hb
      · exact hj.2.1 _ hk (List.mem_map_of_mem hb)
      · exact ha.staying b he j r c n pending d hp hk
    | returned r c n d =>
      rw [hp] at hj
      exact hj
    | idle => trivial
    | listed o => trivial
    | ready r o => trivial
    | failed => trivial
  · obtain hb | he := hmem b hb
    · exact h.stored b hb
    · exact ha.there b he

theorem deleting_ok (hc : Complete cfg req old current) (hd : Distinct (req.extended current))
    (hw : w.bundles = retain cfg (req.extended current)) :
    Phase.Ok w.version w.bundles
      (.deleting req current w.bundles (prunedDiff old w.bundles) []) := by
  refine ⟨fun e he => ?_, fun k hk => (mem_prunedDiff.mp hk).2, fun b hb hgone => ?_⟩
  · rw [hw]
    exact mem_retain.mpr ⟨entry_mem_extended he, (stays_iff hd).mp (hc.added e he)⟩
  · refine .inl (mem_prunedDiff.mpr ⟨by_contra fun hnew => ?_, hgone⟩)
    -- an entry that joined has its key in the list that was written
    obtain ⟨c, hcur, hkey, hstays⟩ := hc.joined b hb hnew
    rw [hw, ← hkey] at hgone
    exact hgone (List.mem_map_of_mem (mem_retain.mpr ⟨hcur, (stays_iff hd).mp hstays⟩))

theorem Inv.delete {k : String} (h : Inv w) (hk : k ∉ w.bundles.map BundleEntry.key) :
    Inv { w with objects := w.objects.filter (· ≠ k) } := by
  refine ⟨h.ops, h.distinct, fun b hb => ?_⟩
  have hne : b.key ≠ k := fun he => hk (he ▸ List.mem_map_of_mem hb)
  exact List.mem_filter.mpr ⟨h.stored b hb, by simpa using hne⟩

theorem update_eq {new : List BundleEntry} (h : req.update cfg current = some new) :
    new = retain cfg (req.extended current) := by
  simp only [Request.update] at h
  split_ifs at h
  exact (Option.some.inj h).symm

theorem update_none (h : req.update cfg current = none) : req = .retention := by
  simp only [Request.update] at h
  split_ifs at h with hr
  exact hr.1

theorem inv_cas {outcome : Outcome} (h : Inv w) (hs : Sound cfg w (.cas i outcome))
    (hstep : step cfg w (.cas i outcome) = some w') : Inv w' := by
  unfold step at hstep
  cases hp : w.ops i with
  | loaded req old version current =>
    have hi := h.ops i
    rw [hp] at hi
    simp only [hp] at hstep
    cases hu : req.update cfg current with
    | none =>
      simp only [hu, Option.some.injEq] at hstep
      subst hstep
      have hnone : ∀ e, req.entry = some e → e ∈ current := by
        intro e he
        rw [update_none hu] at he
        cases he
      exact h.setOp ⟨hnone, fun b hb hgone => absurd (List.mem_map_of_mem hb) hgone⟩
    | some new =>
      simp only [hu] at hstep
      by_cases herr : outcome = .error
      · rw [if_pos herr] at hstep
        cases hstep
        exact h.setOp trivial
      rw [if_neg herr] at hstep
      by_cases hv : w.version = version
      · obtain ⟨ha, hc⟩ := hs req old version current hp herr hv
        obtain rfl := hi.2 hv
        obtain rfl := update_eq hu
        have hcommit : Inv (w.commit (retain cfg (req.extended w.bundles))) := h.commit ha
        rw [if_pos hv] at hstep
        obtain rfl := Option.some.inj hstep
        refine hcommit.setOp ?_
        split_ifs with hok
        · exact deleting_ok (hc hok) (distinct_extended h.distinct ha) rfl
        · trivial
      · rw [if_neg hv] at hstep
        cases hstep
        exact h.setOp trivial
  | _ => simp [hp] at hstep

theorem inv_delete {ok : Bool} (h : Inv w) (hok : ok = true)
    (hstep : step cfg w (.delete i ok) = some w') : Inv w' := by
  subst hok
  unfold step at hstep
  cases hp : w.ops i with
  | deleting req current new pending deleted =>
    have hi := h.ops i
    rw [hp] at hi
    cases pending with
    | nil => simp [hp] at hstep
    | cons k ks =>
      simp only [hp, if_true, Option.some.injEq] at hstep
      subst hstep
      refine (h.delete (hi.2.1 k List.mem_cons_self)).setOp
        ⟨hi.1, fun x hx => hi.2.1 x (List.mem_cons_of_mem k hx), fun b hb hgone => ?_⟩
      rcases hi.2.2 b hb hgone with hin | hin
      · obtain hk | hin := List.mem_cons.mp hin
        · exact .inr (hk ▸ List.mem_cons_self)
        · exact .inl hin
      · exact .inr (List.mem_cons_of_mem k hin)
  | _ => simp [hp] at hstep

theorem inv_finish (h : Inv w) (hstep : step cfg w (.finish i) = some w') : Inv w' := by
  unfold step at hstep
  cases hp : w.ops i with
  | deleting req current new pending deleted =>
    have hi := h.ops i
    rw [hp] at hi
    cases pending with
    | cons k ks => simp [hp] at hstep
    | nil =>
      simp only [hp, Option.some.injEq] at hstep
      subst hstep
      refine h.setOp ⟨hi.1, fun b hb hgone => ?_⟩
      rcases hi.2.2 b hb hgone with hin | hin
      · cases hin
      · exact hin
  | _ => simp [hp] at hstep

theorem inv_step (h : Inv w) (hs : Sound cfg w a) (hstep : step cfg w a = some w') : Inv w' := by
  cases a with
  | readList i =>
    simp only [step] at hstep
    split at hstep
    · cases hstep
      exact h.setOp trivial
    · cases hstep
  | upload i req =>
    simp only [step] at hstep
    split at hstep
    · cases hstep
      exact h.upload.setOp trivial
    · cases hstep
  | getList i =>
    simp only [step] at hstep
    split at hstep
    · cases hstep
      exact h.setOp ⟨le_rfl, fun _ => rfl⟩
    · cases hstep
  | cas i outcome => exact inv_cas h hs hstep
  | delete i ok => exact inv_delete h hs hstep
  | finish i => exact inv_finish h hstep
  | stop i =>
    cases hstep
    exact h.setOp trivial

/-- In a sound run, in every state: what an operation returned is in the list it wrote, no slot of
a strategy is listed twice, the objects of all listed entries are there, and an operation that
returned has deleted the objects of what its write dropped. -/
theorem bundles_consistent (h : SoundRun cfg w) : Consistent w := by
  have hinv : Inv w := by
    induction h with
    | init => exact inv_init
    | step _ hs hstep ih => exact inv_step ih hs hstep
  exact hinv.consistent

/-! ## Runs that are not sound -/

/-- A number of calls, as long as each is possible. -/
def exec (cfg : BundlesConfig) (w : World) : List Act → Option World
  | [] => some w
  | a :: as => (step cfg w a).bind fun w => exec cfg w as

theorem Run.exec {acts : List Act} (h : Run cfg w) (he : exec cfg w acts = some w') :
    Run cfg w' := by
  induction acts generalizing w with
  | nil =>
    cases he
    exact h
  | cons a as ih =>
    obtain ⟨mid, hmid, he⟩ := Option.bind_eq_some_iff.mp he
    exact ih (h.step hmid) he

/-- One full strategy that keeps its newest bundle. -/
def weekly : BundlesConfig := [⟨"weekly", .full, none, 1, false, []⟩]

def weeklyAt (id : String) (token : ℕ) (key : String) : BundleEntry :=
  ⟨id, key, "weekly", token, token, 1, "", []⟩

/-- An operation without others in between, up to its conditional write. -/
def alone (i : ℕ) (req : Request) : List Act :=
  [.readList i, .upload i req, .getList i, .cas i .ok]

def newer : BundleEntry := weeklyAt "weekly-20" 20 "b"

theorem bundles_consistent_one_build :
    ∃ w, SoundRun weekly w ∧ w.ops 0 = .returned (.build newer) [] [newer] [] ∧ Consistent w := by
  have hread : SoundRun weekly _ := .step (a := .readList 0) .init trivial rfl
  have hupload : SoundRun weekly _ := .step (a := .upload 0 (.build newer)) hread trivial rfl
  have hget : SoundRun weekly _ := .step (a := .getList 0) hupload trivial rfl
  have hcas : SoundRun weekly _ := .step (a := .cas 0 .ok) hget (by
    intro req old version current hp _ _
    cases hp
    refine ⟨⟨fun e he => (by cases he), fun e he => ?_, fun e _ j r c n pending d hj => ?_⟩,
      fun _ => ⟨fun e he => ?_, fun b hb => (by cases hb)⟩⟩
    · cases he
      decide
    · -- only operation 0 has begun, and it has not come to deleting
      by_cases h0 : j = 0 <;> simp [World.setOp, World.init, h0] at hj
    · cases he
      exact (stays_iff (by decide)).mpr (by decide)) rfl
  have hfinish : SoundRun weekly _ := .step (a := .finish 0) hcas trivial rfl
  exact ⟨_, hfinish, rfl, bundles_consistent hfinish⟩

/-- Four runs: an operation returns an entry that its own retention dropped; a compose lists a
slot a second time; a key is deleted that was listed again; and the object of an entry that was
listed after the first read is left behind. -/
theorem bundles_inconsistent :
    (∃ w, Run weekly w ∧
      w.ops 1 = .returned (.build (weeklyAt "weekly-10" 10 "a")) [newer] [newer] []) ∧
    (∃ w, Run weekly w ∧ ¬ Distinct w.bundles) ∧
    (∃ w, Run weekly w ∧ newer ∈ w.bundles ∧ newer.key ∉ w.objects) ∧
    (∃ w, Run weekly w ∧
      w.ops 1 = .returned (.build (weeklyAt "weekly-30" 30 "c")) [newer]
        [weeklyAt "weekly-30" 30 "c"] []) := by
  refine ⟨⟨_, Run.init.exec (rfl : exec weekly .init (alone 0 (.build newer) ++
      alone 1 (.build (weeklyAt "weekly-10" 10 "a")) ++ [.finish 1]) = some _), rfl⟩,
    ⟨_, Run.init.exec (rfl : exec weekly .init (alone 0 (.build newer) ++
      alone 1 (.compose (weeklyAt "weekly-20" 20 "c"))) = some _), by decide⟩,
    ⟨_, Run.init.exec (rfl : exec weekly .init (alone 0 (.build newer) ++
      [.readList 1, .upload 1 (.build newer)] ++
      alone 2 (.build (weeklyAt "weekly-20" 20 "c")) ++
      [.getList 1, .cas 1 .ok, .delete 2 true]) = some _), by decide, by decide⟩,
    ⟨_, Run.init.exec (rfl : exec weekly .init ([.readList 1] ++ alone 0 (.build newer) ++
      [.upload 1 (.build (weeklyAt "weekly-30" 30 "c")), .getList 1, .cas 1 .ok, .finish 1]) =
        some _), rfl⟩⟩

end Walgit.Bundles
