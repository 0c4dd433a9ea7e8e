import Walgit.Hazard

/-!
# Runs written out

A run given by its list of events. `Op.clean` tests one call for all races at
once: it may refuse a harmless call, but a call that passes hits none of them.
-/

namespace Walgit

open Interleaving

def Run (cfg : Config) (s : Sys) : Prop :=
  Reach exec (Job.run cfg) (fun _ _ _ _ => True) Sys.init s

theorem exists_run (cfg : Config) (es : List Step) {p : Sys → Bool}
    (h : (Sys.runs cfg es).any p = true) : ∃ s, Run cfg s ∧ p s = true :=
  exists_of_runs exec (Job.run cfg) h

theorem exists_run_later (cfg : Config) (es es' : List Step) {p : Sys → Sys → Bool}
    (h : ((Sys.runs cfg es).any fun s =>
      (Pool.runs exec (Job.run cfg) s es').any (p s)) = true) :
    ∃ s s', Run cfg s ∧ Reach exec (Job.run cfg) (fun _ _ _ _ => True) s s' ∧ p s s' = true := by
  obtain ⟨s, hr, hs⟩ := exists_run cfg es h
  obtain ⟨s', hr', hp⟩ := exists_of_runs exec (Job.run cfg) hs
  exact ⟨s, s', hr, hr', hp⟩

def World.all (σ : World) (h : ℕ) (p : Handle → Bool) : Bool := (σ.handles h).all p

theorem World.all_on {σ : World} {h : ℕ} {p : Handle → Bool} {P : Handle → Prop}
    (ha : σ.all h p = true) (ho : σ.on h P) : ∃ hd, σ.handles h = some hd ∧ p hd = true ∧ P hd := by
  obtain ⟨hd, hh, hP⟩ := ho
  refine ⟨hd, hh, ?_, hP⟩
  simpa [World.all, hh] using ha

instance {e : LogEntry} : Decidable e.setsHead :=
  inferInstanceAs (Decidable (∃ u ∈ e.updates, u.isSymbolic ≠ decide (u.name = "HEAD")))

instance {e : LogEntry} : Decidable e.repeatsRef :=
  inferInstanceAs (Decidable (¬ ((e.updates.filter fun u => !u.isSymbolic).map
    RefUpdate.name).Nodup))

instance {v : Verified} : Decidable v.Mixed :=
  inferInstanceAs (Decidable (v.valid = false ∧ ∃ r ∈ v.perRef, isOk r.2 = true))

def Op.clean (c : Choice) (σ : World) : Op → Bool
  | .versionFor h seen => σ.all h fun hd => hd.manifest = seen
  | .setVersion h own _ => σ.all h fun hd => hd.manifest = own
  | .setManifest h m locked => σ.all h fun hd => hd.manifest.revision ≤ m.revision ∧
      (locked ∨ (hd.syncMutex = none ∧ hd.manifest.headSeq = m.headSeq))
  | .setState h own _ _ locked => σ.all h fun hd =>
      locked ∨ (hd.syncMutex = none ∧ hd.manifest = own)
  | .headManifest fresh => c.outcome = .ok ∧ σ.current.manifest = fresh
  | .casLanded s => c.outcome = .ok ∧ σ.current.slot = some s ∧
      ∀ a ∈ σ.commits, a.manifest.checkpointSeq < s.last
  | .lockForCommit h own => σ.all h fun hd => hd.manifest.revision < own.revision
  | .lock h => σ.all h fun hd => !hd.verified || hd.state.appliedSeq == hd.manifest.headSeq
  | .unlock h => σ.all h Handle.verified
  | .publishHandle h => σ.all h Handle.verified
  | .applyRefTxn h txn _ => σ.all h fun hd => isOk (hd.applyRefTxn c txn).1
  | .refresh _ => c.outcome = .ok
  | .refView h seen => σ.all h fun hd => hd.verified ∧ hd.state.appliedSeq = seen.headSeq
  | .refs h seen => σ.all h fun hd =>
      hd.verified ∧ hd.state.appliedSeq = seen.headSeq ∧ hd.syncMutex = none
  | .putManifest _ base (.checkpoint cp) slot => base.checkpointSeq ≤ cp.seq ∧ slot = none
  | .putManifest _ _ _ (some s) => ∀ e ∈ s.entries, ¬ e.setsHead ∧ ¬ e.repeatsRef
  | .lastEntryTime h view batch => σ.all h fun hd =>
      ∀ v ∈ verifyBatch ⟨view, []⟩ hd.lastEntryTime batch, ¬ v.Mixed
  | _ => true

theorem avoids_of_clean {L : List Hazard} {o : Op} {c : Choice} {σ : World}
    (hL : .inexactSnapshot ∉ L) (hc : o.clean c σ = true) : Avoids L o c σ := by
  intro z hmem hz
  cases z with
  | tornRead =>
    obtain ⟨h, seen, rfl, ho⟩ := hz
    obtain ⟨hd, -, hp, hne⟩ := World.all_on hc ho
    exact hne (of_decide_eq_true hp)
  | tornWrite =>
    obtain ⟨h, own, v, rfl, ho⟩ := hz
    obtain ⟨hd, -, hp, hne⟩ := World.all_on hc ho
    exact hne (of_decide_eq_true hp)
  | backwards =>
    obtain ⟨h, m, locked, rfl, ho⟩ := hz
    obtain ⟨hd, -, hp, hlt⟩ := World.all_on hc ho
    exact absurd (of_decide_eq_true hp).1 (Nat.not_le_of_lt hlt)
  | unlockedBackwards =>
    obtain ⟨h, m, rfl, ho⟩ := hz
    obtain ⟨hd, -, hp, hlt⟩ := World.all_on hc ho
    exact absurd (of_decide_eq_true hp).1 (Nat.not_le_of_lt hlt)
  | landedTorn =>
    obtain ⟨fresh, rfl, hne⟩ := hz
    exact hne (of_decide_eq_true hc).2
  | landedTrimmed =>
    obtain ⟨s, rfl, -, a, ha, hle⟩ := hz
    exact absurd hle (Nat.not_le_of_lt ((of_decide_eq_true hc).2.2 a ha))
  | landedAhead =>
    obtain ⟨s, rfl, -, hne⟩ := hz
    exact hne (of_decide_eq_true hc).2.1
  | landedUnread =>
    obtain ⟨hbad, ⟨s, rfl, -⟩ | ⟨fresh, rfl⟩⟩ := hz
    · exact hbad (of_decide_eq_true hc).1
    · exact hbad (of_decide_eq_true hc).1
  | staleCommit =>
    obtain ⟨h, own, rfl, ho⟩ := hz
    obtain ⟨hd, -, hp, hle⟩ := World.all_on hc ho
    exact absurd (of_decide_eq_true hp) (Nat.not_lt_of_le hle)
  | unlockedUpdate =>
    rcases hz with ⟨h, m, rfl, ho⟩ | ⟨h, own, v, applied, rfl, ho⟩
    · obtain ⟨hd, -, hp, hne⟩ := World.all_on hc ho
      have := (of_decide_eq_true hp).2
      simp_all
    · obtain ⟨hd, -, hp, hne⟩ := World.all_on hc ho
      have := of_decide_eq_true hp
      simp_all
  | unlockedHead =>
    obtain ⟨h, m, rfl, ho⟩ := hz
    obtain ⟨hd, -, hp, hne⟩ := World.all_on hc ho
    have := (of_decide_eq_true hp).2
    simp_all
  | unlockUnproven =>
    obtain ⟨h, rfl | rfl, ho⟩ := hz
    · obtain ⟨hd, -, hp, hv⟩ := World.all_on hc ho
      rw [hv] at hp
      cases hp
    · obtain ⟨hd, -, hp, hv⟩ := World.all_on hc ho
      rw [hv] at hp
      cases hp
  | applyFailed =>
    rcases hz with ⟨h, txn, done, rfl, ho⟩ | ⟨h, rfl, hbad⟩
    · obtain ⟨hd, -, hp, hbad, -⟩ := World.all_on hc ho
      rw [applyFails, hp] at hbad
      cases hbad
    · exact hbad (of_decide_eq_true hc)
  | staleView =>
    obtain ⟨h, seen, rfl, ho⟩ := hz
    obtain ⟨hd, -, hp, hne⟩ := World.all_on hc ho
    have := of_decide_eq_true hp
    exact hne ⟨this.1, this.2⟩
  | staleSnapshot =>
    obtain ⟨h, seen, rfl, ho⟩ := hz
    obtain ⟨hd, -, hp, hne⟩ := World.all_on hc ho
    have := of_decide_eq_true hp
    exact hne ⟨this.1, this.2.1⟩
  | snapshotMoved =>
    obtain ⟨h, seen, rfl, ho⟩ := hz
    obtain ⟨hd, -, hp, hne⟩ := World.all_on hc ho
    exact hne (of_decide_eq_true hp).2.2
  | inexactSnapshot => exact hL hmem
  | lockUnsettled =>
    obtain ⟨h, rfl, ho⟩ := hz
    obtain ⟨hd, -, hp, hv, hne⟩ := World.all_on hc ho
    simp [hv, hne] at hp
  | checkpointBehind =>
    obtain ⟨known, base, cp, slot, rfl, hlt⟩ := hz
    exact absurd (of_decide_eq_true hc).1 (Nat.not_le_of_lt hlt)
  | headUpdate =>
    obtain ⟨known, base, op, s, rfl, e, he, hset⟩ := hz
    cases op with
    | checkpoint cp => cases (of_decide_eq_true hc).2
    | _ => exact (of_decide_eq_true hc e he).1 hset
  | repeatedRef =>
    obtain ⟨known, base, op, s, rfl, e, he, hrep⟩ := hz
    cases op with
    | checkpoint cp => cases (of_decide_eq_true hc).2
    | _ => exact (of_decide_eq_true hc e he).2 hrep
  | mixedVerdict =>
    obtain ⟨h, view, batch, rfl, ho⟩ := hz
    obtain ⟨hd, -, hp, v, hv, hmix⟩ := World.all_on hc ho
    exact of_decide_eq_true hp v hv hmix

def Sys.cleanRuns (cfg : Config) (s : Sys) (es : List Step) : Option Sys :=
  s.testedRuns exec (Job.run cfg) (fun _ o c σ => o.clean c σ) es

theorem exists_clean {L : List Hazard} (hL : .inexactSnapshot ∉ L) (cfg : Config) (es : List Step)
    {p : Sys → Bool} (h : (Sys.cleanRuns cfg Sys.init es).any p = true) :
    ∃ s, Reachable cfg L s ∧ p s = true :=
  exists_of_testedRuns exec (Job.run cfg) (fun _ _ _ _ => avoids_of_clean hL) h

theorem exists_runIf {ok : Op → Choice → World → Prop} (test : Op → Choice → World → Bool)
    (htest : ∀ o c σ, test o c σ = true → ok o c σ) (cfg : Config) (es : List Step)
    {p : Sys → Bool}
    (h : (Pool.testedRuns exec (Job.run cfg) (fun _ => test) Sys.init es).any p = true) :
    ∃ s, RunIf cfg ok s ∧ p s = true :=
  exists_of_testedRuns exec (Job.run cfg) (fun _ => htest) h

section Everyday

def noFault : Choice := ⟨.ok, 0, false⟩

/-- Task `t` takes `n` steps and every call succeeds. -/
def steps (t n : ℕ) : List Step := List.replicate n (.run t noFault)

def plainConfig : Config := ⟨3, 5⟩

def oidA : String := "aaaaaaaaaaaaaaaaaaaaaaaaaaaaaaaaaaaaaaaa"

def oidB : String := "bbbbbbbbbbbbbbbbbbbbbbbbbbbbbbbbbbbbbbbb"

def oidC : String := "cccccccccccccccccccccccccccccccccccccccc"

def mainRef : String := "refs/heads/main"

def devRef : String := "refs/heads/dev"

def pushRef (name old new : String) : PublishRequest :=
  ⟨none, ⟨[⟨name, old, new, ""⟩], false⟩, true, none⟩

def push (old new : String) : Job := .publish 0 [pushRef mainRef old new]

/-- A sync, a push, a checkpoint and a push, one after the other. -/
def everyday : List Step :=
  .spawn (.sync 0) :: steps 0 19 ++ .spawn (push "" oidA) :: steps 1 20 ++
    .spawn (.checkpoint 0) :: steps 2 26 ++ .spawn (push oidA oidB) :: steps 3 20

theorem everyday_reachable {L : List Hazard} (hL : .inexactSnapshot ∉ L) :
    ∃ s, Reachable plainConfig L s ∧
    s.world.commits.map (fun c => (c.manifest.headSeq, c.manifest.checkpointSeq)) =
      [(2, 1), (1, 1), (1, 0), (0, 0)] := by
  obtain ⟨s, hr, hs⟩ := exists_clean (L := L) hL plainConfig everyday
    (p := fun s => s.world.commits.map (fun c => (c.manifest.headSeq, c.manifest.checkpointSeq)) =
      [(2, 1), (1, 1), (1, 0), (0, 0)]) (by decide +kernel)
  exact ⟨s, hr, of_decide_eq_true hs⟩

end Everyday

end Walgit
