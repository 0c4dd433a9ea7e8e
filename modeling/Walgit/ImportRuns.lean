import Walgit.ImportSpec

/-!
# Atomic imports

An import that fails leaves what committed manifests name as it was, and one
that succeeds leaves the snapshot that it read, in every run in which no import
puts a checkpoint object that is already named or that another task still counts
on. The puts are unconditional, so a run without that condition may replace the
checkpoint of a committed manifest.
-/

namespace Walgit

open Interleaving

variable {t : ℕ} {σ σ' : World × Imports}

section Steps

variable {c : Choice} {o : ImportOp}

theorem SameObjects.of_eq {m : Manifest} (hr : σ'.1.cpRefs = σ.1.cpRefs)
    (hrb : σ'.2.refsBy = σ.2.refsBy) (hp : σ'.1.cps = σ.1.cps) (hpb : σ'.2.cpBy = σ.2.cpBy)
    (hs : σ'.1.segs = σ.1.segs) (hf : σ'.2.files = σ.2.files) : SameObjects m σ σ' := by
  constructor
  case refs => exact fun cp _ => ⟨congrFun hr cp.seq, congrFun hrb cp.seq⟩
  case checkpoint => exact fun cp _ => ⟨congrFun hp cp.seq, congrFun hpb cp.seq⟩
  case segments => exact fun seg _ => congrFun hs seg.key
  case files => exact fun p _ key _ bytes h => (congrFun hf key).trans h

theorem unnamed_ne {seq : ℕ} {a : Commit} {cp : CheckpointRef}
    (hok : ImportsOk t (.inr o) c σ) (ho : o.checkpointSeq = some seq) (hc : c.outcome ≠ .err)
    (ha : a ∈ σ.1.commits) (hcp : a.manifest.checkpoint = some cp) : cp.seq ≠ seq := by
  rintro rfl
  exact (alone_of_ok hok ho hc).2 ⟨a, ha, hcp⟩

theorem sameObjects_import {r : o.Res} (hok : ImportsOk t (.inr o) c σ)
    (hex : importExec t (.inr o) c σ = some (r, σ')) {a : Commit} (ha : a ∈ σ.1.commits) :
    SameObjects a.manifest σ σ' := by
  obtain ⟨-, hex⟩ := importExec_import hex
  cases o with
  | putRefs seq snap =>
    rcases put₂_eq (Option.some.inj hex) with ⟨-, rfl, -⟩ | ⟨hc, rfl⟩
    · exact .of_eq rfl rfl rfl rfl rfl rfl
    · constructor
      case refs =>
        intro cp hcp
        have hne := unnamed_ne hok rfl hc ha hcp
        exact ⟨if_neg hne, if_neg hne⟩
      case checkpoint => exact fun _ _ => ⟨rfl, rfl⟩
      case segments => exact fun _ _ => rfl
      case files => exact fun _ _ _ _ _ h => h
  | putCheckpoint seq cp =>
    rcases put₂_eq (Option.some.inj hex) with ⟨-, rfl, -⟩ | ⟨hc, rfl⟩
    · exact .of_eq rfl rfl rfl rfl rfl rfl
    · constructor
      case refs => exact fun _ _ => ⟨rfl, rfl⟩
      case checkpoint =>
        intro cp hcp
        have hne := unnamed_ne hok rfl hc ha hcp
        exact ⟨if_neg hne, if_neg hne⟩
      case segments => exact fun _ _ => rfl
      case files => exact fun _ _ _ _ _ h => h
  | putFile key bytes =>
    rcases put₂_eq (Option.some.inj hex) with ⟨-, rfl, -⟩ | ⟨hc, rfl⟩
    · exact .of_eq rfl rfl rfl rfl rfl rfl
    · refine ⟨fun _ _ => ⟨rfl, rfl⟩, fun _ _ => ⟨rfl, rfl⟩, fun _ _ => rfl,
        fun p hp key' hn bytes' hb => ?_⟩
      change (if key' = key then some bytes else σ.2.files key') = some bytes'
      split
      · rename_i he
        subst he
        by_contra hne
        refine hok .replacedFile ⟨key', bytes, rfl, hc, ⟨a, ha, p, hp, hn⟩, bytes', hb, ?_⟩
        exact fun h => hne (congrArg some h.symm)
      · exact hb
  | uploadFile key bytes =>
    cases hex
    refine ⟨fun _ _ => ?_, fun _ _ => ?_, fun _ _ => rfl, fun p hp key' hn bytes' hb => ?_⟩
    · dsimp only
      split <;> exact ⟨rfl, rfl⟩
    · dsimp only
      split <;> exact ⟨rfl, rfl⟩
    · dsimp only
      split
      · rename_i hnone
        change (if key' = key then some bytes else σ.2.files key') = some bytes'
        split
        · rename_i he
          rw [he] at hb
          simp [hb] at hnone
        · exact hb
      · exact hb
  | writeMarker source m =>
    rcases put₂_eq (Option.some.inj hex) with ⟨-, rfl, -⟩ | ⟨-, rfl⟩
    · exact .of_eq rfl rfl rfl rfl rfl rfl
    · exact .of_eq rfl rfl rfl rfl rfl rfl
  | createManifest =>
    have hres : ((σ.1.createManifest t c).1, (σ.1.createManifest t c).2, σ.2) = (r, σ') :=
      Option.some.inj hex
    unfold World.createManifest at hres
    split at hres
    · cases hres
      exact .of_eq rfl rfl rfl rfl rfl rfl
    · split at hres <;> cases hres <;> exact .of_eq rfl rfl rfl rfl rfl rfl
  | putManifest base m snap =>
    have hres : casImport t c σ.1 σ.2 base m snap = (r, σ') := Option.some.inj hex
    unfold casImport at hres
    split at hres
    · cases hres
      exact .of_eq rfl rfl rfl rfl rfl rfl
    · split at hres <;> cases hres <;> exact .of_eq rfl rfl rfl rfl rfl rfl
  | _ =>
    cases hex
    exact .of_eq rfl rfl rfl rfl rfl rfl

end Steps

/-- In every run whose steps avoid the races: the checkpoint objects of committed manifests are
never those of an import that failed, every import that succeeded left the snapshot that it read,
and no call of an import changes what a committed manifest names. -/
theorem direct_import_atomic {cfg : Config} {s : ImportSys} (h : ImportRun cfg ImportsOk s) :
    ImportAtomic s.world ∧ ∀ t (c : Choice) s', Importing s t →
      s.Meets (E := ImportJob) ImportsOk (.run t c) →
      s.step importExec (ImportJob.run cfg) (.run t c) = some s' →
      ∀ a ∈ s.world.1.commits, SameObjects a.manifest s.world s'.world := by
  refine ⟨h.inv.atomic, fun t c s' ⟨o, k, ho⟩ hm hs a ha => ?_⟩
  obtain ⟨o', k', ho', r, w, hex, rfl⟩ := step_run hs
  rw [ho] at ho'
  cases ho'
  exact sameObjects_import (hm _ k ho) hex ha

section Examples

def importClean (t : ℕ) (o : Op ⊕ ImportOp) (c : Choice) (σ : World × Imports) : Bool :=
  match o with
  | .inl (.putManifest known base _ _) =>
    decide (known = some σ.1.current.version → base = σ.1.current.manifest)
  | .inl _ => true
  | .inr (.rereadMarker source seen) => σ.2.markers source = some seen
  | .inr (.putFile key bytes) => (σ.2.files key).all (· = bytes)
  | .inr o => o.checkpointSeq.all fun seq =>
    (c.outcome = .err) || ((σ.1.commits.all fun a => a.manifest.checkpoint ≠ some ⟨seq⟩) &&
      σ.2.writers.all fun w => decide (w.2 = seq → w.1 = t))

theorem clean_checkpoint {o : ImportOp} {c : Choice} {seq : ℕ}
    (h : importClean t (.inr o) c σ = true) (ho : o.checkpointSeq = some seq)
    (hc : c.outcome ≠ .err) : (∀ a ∈ σ.1.commits, a.manifest.checkpoint ≠ some ⟨seq⟩) ∧
      ∀ w ∈ σ.2.writers, w.2 = seq → w.1 = t := by
  cases o with
  | putRefs seq' snap | putCheckpoint seq' cp =>
    cases ho
    simpa [importClean, ImportOp.checkpointSeq, hc, imp_iff_not_or] using h
  | _ => cases ho

theorem importsOk_of_clean {o : Op ⊕ ImportOp} {c : Choice} (h : importClean t o c σ = true) :
    ImportsOk t o c σ := by
  intro z hz
  cases z with
  | tornCas =>
    obtain ⟨known, base, op, slot, rfl, hk, hb⟩ := hz
    exact hb (of_decide_eq_true h hk)
  | markerMoved =>
    obtain ⟨source, seen, rfl, hne⟩ := hz
    exact hne (of_decide_eq_true h)
  | replacedFile =>
    obtain ⟨key, bytes, rfl, -, -, stored, hs, hne⟩ := hz
    change (σ.2.files key).all (· = bytes) = true at h
    rw [hs] at h
    exact hne (of_decide_eq_true h)
  | named =>
    obtain ⟨o', seq, rfl, ho, hc, a, ha, hcp⟩ := hz
    exact (clean_checkpoint h ho hc).1 a ha hcp
  | contested =>
    obtain ⟨o', seq, rfl, ho, hc, w, hw, he, hne⟩ := hz
    exact hne ((clean_checkpoint h ho hc).2 w hw he)

theorem exists_cleanImports (cfg : Config) (es : List ImportEvent) {p : ImportSys → Bool}
    (h : (Pool.testedRuns importExec (ImportJob.run cfg) importClean ImportSys.init es).any p =
      true) : ∃ s, ImportRun cfg ImportsOk s ∧ p s = true :=
  exists_of_testedRuns importExec (ImportJob.run cfg) (fun _ _ _ _ => importsOk_of_clean) h

theorem exists_imports (cfg : Config) (es : List ImportEvent) {p : ImportSys → Bool}
    (h : (Pool.runs importExec (ImportJob.run cfg) ImportSys.init es).any p = true) :
    ∃ s, ImportRun cfg (fun _ _ _ _ => True) s ∧ p s = true :=
  exists_of_runs importExec (ImportJob.run cfg) h

def importSteps (t n : ℕ) : List ImportEvent := List.replicate n (.run t noFault)

def importedRefs : RefState
  | .ref name => if name = mainRef then some oidB else none
  | .head => some mainRef

/-- An import of one pack, from a source with one branch. -/
def importOf (source : ℕ) (checksum : String) (replace : Bool) : DirectOptions :=
  ⟨source, importedRefs, "tips", [⟨checksum, [1], [2], none, none, none, none⟩], false, replace,
    false⟩

/-- An import that a push overtakes, and one that succeeds. -/
def twoImports : List ImportEvent :=
  .spawn (.create 0) :: importSteps 0 4 ++ .spawn (.importDirect (importOf 0 "aa" false)) ::
    importSteps 1 18 ++ .spawn (.server (push "" oidA)) :: importSteps 2 21 ++ importSteps 1 5 ++
    .spawn (.importDirect (importOf 1 "bb" true)) :: importSteps 3 25

theorem direct_import_atomic_twice : ∃ s, ImportRun plainConfig ImportsOk s ∧
    s.world.2.landed.map (fun l => (l.task, l.seq)) = [(3, 2)] ∧
    s.world.2.refsBy 1 = some (.importer 1) ∧ ImportAtomic s.world := by
  obtain ⟨s, hr, hs⟩ := exists_cleanImports plainConfig twoImports
    (p := fun s => s.world.2.landed.map (fun l => (l.task, l.seq)) = [(3, 2)] ∧
      s.world.2.refsBy 1 = some (.importer 1)) (by decide +kernel)
  obtain ⟨hland, hby⟩ := of_decide_eq_true hs
  exact ⟨s, hr, hland, hby, (direct_import_atomic hr).1⟩

/-- A push and a checkpoint come between an import's start and its puts: its CAS fails, and the
ref snapshot of the committed checkpoint is the import's. -/
def overtaken : List ImportEvent :=
  .spawn (.create 0) :: importSteps 0 4 ++ .spawn (.importDirect (importOf 0 "aa" false)) ::
    importSteps 1 18 ++ .spawn (.server (push "" oidA)) :: importSteps 2 21 ++
    .spawn (.server (.checkpoint 0)) :: importSteps 3 39 ++ importSteps 1 5

theorem import_replaces_snapshot : ∃ s, ImportRun plainConfig (fun _ _ _ _ => True) s ∧
    s.world.2.landed.isEmpty ∧ s.world.1.current.manifest.checkpoint = some ⟨1⟩ ∧
    Replay.replay RefState.init (s.world.1.log.flatMap LogEntry.writes) (.ref mainRef) = some oidA ∧
    (s.world.1.cpRefs 1).map (· (.ref mainRef)) = some (some oidB) ∧
    ¬ ImportAtomic s.world := by
  obtain ⟨s, hr, hs⟩ := exists_imports plainConfig overtaken
    (p := fun s => s.world.2.landed.isEmpty ∧ s.world.1.current.manifest.checkpoint = some ⟨1⟩ ∧
      (s.world.1.commits.head?.map fun a => a.manifest.checkpoint) = some (some ⟨1⟩) ∧
      Replay.replay RefState.init (s.world.1.log.flatMap LogEntry.writes) (.ref mainRef) =
        some oidA ∧
      (s.world.1.cpRefs 1).map (· (.ref mainRef)) = some (some oidB) ∧
      s.world.2.refsBy 1 = some (.importer 1)) (by decide +kernel)
  obtain ⟨hland, hcp, hhead, hlog, hsnap, hby⟩ := of_decide_eq_true hs
  refine ⟨s, hr, hland, hcp, hlog, hsnap, fun hat => ?_⟩
  obtain ⟨a, ha, hacp⟩ := Option.map_eq_some_iff.mp hhead
  obtain ⟨l, hl, -⟩ := hat.refs 1 ⟨a, List.mem_of_mem_head? ha, hacp⟩ 1 hby
  rw [List.isEmpty_iff.mp hland] at hl
  cases hl

end Examples

end Walgit
