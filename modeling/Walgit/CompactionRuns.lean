import Walgit.CompactionSpec

/-!
# Reachable objects across compactions

In every run whose repacks leave the whole of what they replace in their first
pack, each committed manifest lists every reachable object. With two new packs
the manifest between the two publishes does not.
-/

namespace Walgit

open Interleaving

variable {G : ObjectGraph} {cfg : Config}

theorem compactInv_run {s : CompactSys}
    (h : CompactRun cfg (fun t o _ σ => GitOk G o σ.2 ∧ CompactsOk G t o σ) s) :
    CompactInv G s.world :=
  (Discipline.Sound.reach (D := compactDiscipline G) (fun _ => Discipline.Stable.const)
    (fun job _ => spec_compactJob job)
    (Discipline.sound_init compactInv_init fun _ => trivial) h).inv

/-- No run of compactions, base rebuilds and pushes loses a reachable object. -/
theorem compaction_keeps_reachable {s : CompactSys}
    (h : CompactRun cfg (fun t o _ σ => GitOk G o σ.2 ∧ CompactsOk G t o σ) s) :
    Complete G s.world.1 :=
  complete_of_since (compactInv_run h).complete

section Examples

variable {packs : List (String × String)} {t : ℕ} {o : Op ⊕ RebuildOp} {c : Choice}
  {σ : World × Rebuilds}

/-- Packs with the objects that each has; a ref's value reaches itself. -/
def tableGraph (packs : List (String × String)) : ObjectGraph where
  packed checksum oid := (checksum, oid) ∈ packs
  reach tip oid := oid = tip ∧ oid ∈ packs.map Prod.snd

def RepackResult.has (packs : List (String × String)) (r : RepackResult) (oid : String) : Bool :=
  r.newPacks.any fun p => (p.checksum, oid) ∈ packs

def Slot.bringsObjects (packs : List (String × String)) (new : List PackRef) (slot : Slot) : Bool :=
  (slot.entries.flatMap LogEntry.writes).all fun w =>
    w.2.all fun oid => new.any fun p => (p.checksum, oid) ∈ packs

def putKeeps (packs : List (String × String)) (t : ℕ) (base : Manifest) (slot : Option Slot)
    (x : Rebuilds) : ManifestOp → Bool
  | .push new _ => slot.all (Slot.bringsObjects packs new)
  | .compact _ supersedes _ => (x.started t).all fun started =>
    base.packs.all fun p => p.checksum ∉ supersedes || p.seq ≤ started
  | _ => true

def sameRefs (refs : RefState) (σ : World) : Bool :=
  (σ.log.flatMap LogEntry.writes).all fun w => refs w.1 = σ.committedRefs w.1

def keepsObjects (packs : List (String × String)) (t : ℕ) (o : Op ⊕ RebuildOp) (_ : Choice)
    (σ : World × Rebuilds) : Bool :=
  match o with
  | .inl (.putManifest known base op slot) =>
    decide (known = some σ.1.current.version → base = σ.1.current.manifest) &&
      putKeeps packs t base slot σ.2 op
  | .inl _ | .inr .acquireLease => true
  | .inr (.repackGeometric r) => packs.all fun p => p.1 ∉ r.removed || r.has packs p.2
  | .inr (.repackFull _ r) =>
    (σ.2.lease = some t) && (r.newPacks.length ≤ 1 && packs.all fun p => r.has packs p.2)
  | .inr (.copyScratch h _ started) =>
    (σ.2.lease = some t) && σ.1.all h fun hd => started ≤ σ.1.head && sameRefs hd.refs σ.1
  | .inr _ => σ.2.lease = some t

theorem RepackResult.has_iff {r : RepackResult} {oid : String} :
    r.has packs oid = true ↔ ∃ p ∈ r.newPacks, (tableGraph packs).packed p.checksum oid := by
  simp [RepackResult.has, tableGraph]

theorem gitOk_of_keeps (h : keepsObjects packs t o c σ = true) :
    GitOk (tableGraph packs) o σ.2 := by
  match o with
  | .inl _ => trivial
  | .inr (.repackGeometric r) =>
    rintro oid ⟨checksum, hrem, hpacked⟩
    have hp := List.all_eq_true.mp h (checksum, oid) hpacked
    simp only [hrem, not_true_eq_false, decide_false, Bool.false_or] at hp
    exact RepackResult.has_iff.mp hp
  | .inr (.repackFull place r) =>
    rintro oid ⟨refs, -, name, tip, -, -, hmem⟩
    obtain ⟨p, hp, rfl⟩ := List.mem_map.mp hmem
    simp only [keepsObjects, Bool.and_eq_true] at h
    exact RepackResult.has_iff.mp (List.all_eq_true.mp h.2.2 p hp)
  | .inr .acquireLease | .inr .releaseLease | .inr (.readMarker _) | .inr (.hasScratch _) => trivial
  | .inr (.removeScratch _) | .inr (.removeMarker _) | .inr (.copyScratch ..) => trivial
  | .inr (.writeMarker ..) | .inr (.supersedeUpTo _) => trivial

theorem replay_some {s : RefState} {ws : List (RefKey × Option String)} {k : RefKey} {v : String}
    (h : Replay.replay s ws k = some v) : s k = some v ∨ ∃ w ∈ ws, w.1 = k ∧ w.2 = some v := by
  induction ws generalizing s with
  | nil => exact .inl h
  | cons w ws ih =>
    rcases ih h with hs | ⟨w', hw', hk⟩
    · unfold Replay.assign at hs
      split at hs
      · rename_i hk
        exact .inr ⟨w, List.mem_cons_self, hk.symm, hs⟩
      · exact .inl hs
    · exact .inr ⟨w', List.mem_cons_of_mem w hw', hk⟩

theorem putOk_of_keeps {known : Option ℕ} {base : Manifest} {op : ManifestOp} {slot : Option Slot}
    (h : keepsObjects packs t (.inl (.putManifest known base op slot)) c σ = true) :
    PutOk (tableGraph packs) t known base op slot σ := by
  simp only [keepsObjects, Bool.and_eq_true] at h
  refine ⟨of_decide_eq_true h.1, ?_⟩
  cases op with
  | push new seg =>
    rintro oid ⟨name, tip, htip, rfl, hmem⟩
    rcases replay_some htip with hold | ⟨w, hw, -, hval⟩
    · exact .inl ⟨name, _, hold, rfl, hmem⟩
    · cases slot with
      | none => cases hw
      | some slot =>
        have hb := List.all_eq_true.mp h.2 w hw
        rw [hval] at hb
        simpa [tableGraph] using Or.inr hb
  | compact pack supersedes seg =>
    intro started hs p hp hsup
    have hall := h.2
    simp only [putKeeps, hs, Option.all_some, List.all_eq_true] at hall
    simpa [hsup] using hall p hp
  | _ => trivial

theorem copyOk_of_keeps {h started : ℕ} {w : World}
    (hw : (w.all h fun hd => decide (started ≤ w.head) && sameRefs hd.refs w) = true) :
    CopyOk (tableGraph packs) h started w := by
  intro hd hhd
  simp only [World.all, hhd, Option.all_some, Bool.and_eq_true, decide_eq_true_eq] at hw
  refine ⟨w.commits, List.suffix_rfl, hw.1, ?_⟩
  rintro oid ⟨name, tip, htip, hreach⟩
  refine ⟨name, tip, ?_, hreach⟩
  rcases replay_some htip with hinit | ⟨wr, hwr, hk, -⟩
  · cases hinit
  · have hsame := of_decide_eq_true (List.all_eq_true.mp hw.2 wr hwr)
    rw [hk] at hsame
    exact hsame.trans htip

theorem compactsOk_of_keeps (h : keepsObjects packs t o c σ = true) :
    CompactsOk (tableGraph packs) t o σ ∨ ∃ r, o = .inr (.repackGeometric r) := by
  match o with
  | .inl o =>
    left
    cases o with
    | putManifest known base op slot => exact putOk_of_keeps h
    | _ => trivial
  | .inr (.repackGeometric r) => exact .inr ⟨r, rfl⟩
  | .inr (.repackFull place r) =>
    simp only [keepsObjects, Bool.and_eq_true, decide_eq_true_eq] at h
    exact .inl ⟨h.1, .inl h.2.1⟩
  | .inr (.copyScratch h' place started) =>
    simp only [keepsObjects, Bool.and_eq_true, decide_eq_true_eq] at h
    exact .inl ⟨h.1, copyOk_of_keeps h.2⟩
  | .inr .acquireLease | .inr .releaseLease | .inr (.supersedeUpTo _) => exact .inl trivial
  | .inr (.readMarker _) | .inr (.hasScratch _) | .inr (.removeScratch _) | .inr (.removeMarker _)
  | .inr (.writeMarker ..) => exact .inl (of_decide_eq_true (p := σ.2.lease = some t) h)

def reportsOne : Op ⊕ RebuildOp → Bool
  | .inr (.repackGeometric r) => r.newPacks.length ≤ 1
  | _ => true

theorem exists_keeping (cfg : Config) (packs : List (String × String)) (es : List CompactEvent)
    {p : CompactSys → Bool}
    (h : (Pool.testedRuns compactExec (CompactJob.run cfg)
      (fun t o c σ => keepsObjects packs t o c σ && reportsOne o) CompactSys.init es).any p =
        true) :
    ∃ s, CompactRun cfg (fun t o _ σ => GitOk (tableGraph packs) o σ.2 ∧
      CompactsOk (tableGraph packs) t o σ) s ∧ p s = true := by
  refine exists_of_testedRuns compactExec (CompactJob.run cfg) (fun t o c σ ht => ?_) h
  obtain ⟨hkeeps, hone⟩ := Bool.and_eq_true_iff.mp ht
  refine ⟨gitOk_of_keeps hkeeps, ?_⟩
  rcases compactsOk_of_keeps hkeeps with hok | ⟨r, rfl⟩
  · exact hok
  · exact .inl (of_decide_eq_true hone)

theorem exists_splitting (cfg : Config) (packs : List (String × String)) (es : List CompactEvent)
    {p : CompactSys → Bool}
    (h : (Pool.testedRuns compactExec (CompactJob.run cfg) (keepsObjects packs) CompactSys.init
      es).any p = true) :
    ∃ s, CompactRun cfg (fun t o _ σ => GitOk (tableGraph packs) o σ.2 ∧
      (CompactsOk (tableGraph packs) t o σ ∨ ∃ r, o = .inr (.repackGeometric r))) s ∧ p s = true :=
  exists_of_testedRuns compactExec (CompactJob.run cfg)
    (fun _ _ _ _ ht => ⟨gitOk_of_keeps ht, compactsOk_of_keeps ht⟩) h

def compactSteps (t n : ℕ) : List CompactEvent := List.replicate n (.run t noFault)

def pushWithPack (name new pack : String) : CompactJob :=
  .server (.publish 0 [⟨some pack, ⟨[⟨name, "", new, ""⟩], false⟩, true, none⟩]) rfl

def packInfo (checksum : String) : PackInfo := ⟨checksum, false, true, false⟩

def liveChecksums (s : CompactSys) : List String :=
  s.world.1.current.manifest.packs.map PackRef.checksum

def baseAnswers : RebuildAnswers := ⟨⟨[packInfo "base"], []⟩, none, none, [packInfo "base"], []⟩

def rebuilt : List CompactEvent :=
  .spawn (pushWithPack mainRef oidA "pa") :: compactSteps 0 21 ++
    .spawn (.compactRepo 0 (.rebuildBase 0 baseAnswers)) :: compactSteps 1 54

theorem compaction_keeps_reachable_rebuilt :
    ∃ s, CompactRun plainConfig (fun t o _ σ =>
        GitOk (tableGraph [("pa", oidA), ("base", oidA)]) o σ.2 ∧
        CompactsOk (tableGraph [("pa", oidA), ("base", oidA)]) t o σ) s ∧
      liveChecksums s = ["base"] ∧ s.world.1.committedRefs (.ref mainRef) = some oidA ∧
      Complete (tableGraph [("pa", oidA), ("base", oidA)]) s.world.1 := by
  obtain ⟨s, hr, hs⟩ := exists_keeping plainConfig [("pa", oidA), ("base", oidA)] rebuilt
    (p := fun s => liveChecksums s = ["base"] ∧ s.world.1.committedRefs (.ref mainRef) = some oidA)
    (by decide +kernel)
  obtain ⟨hlive, hrefs⟩ := of_decide_eq_true hs
  exact ⟨s, hr, hlive, hrefs, compaction_keeps_reachable hr⟩

/-- What two pushes brought, and how `git` packs it again in two. -/
def splitPacks : List (String × String) :=
  [("pa", oidA), ("pb", oidB), ("n1", oidA), ("n2", oidB)]

/-- A fold whose second upload fails: the loop ends with the first pack published, and both old
packs are superseded. -/
def halfPublished : List CompactEvent :=
  .spawn (pushWithPack mainRef oidA "pa") :: compactSteps 0 21 ++
    .spawn (pushWithPack devRef oidB "pb") :: compactSteps 1 21 ++
    .spawn (.compactRepo 0 (.fold ⟨[packInfo "n1", packInfo "n2"], ["pa", "pb"]⟩)) ::
    compactSteps 2 40 ++ .run 2 ⟨.err, 0, false⟩ :: compactSteps 2 1

theorem split_fold_loses_object : ∃ s, CompactRun plainConfig (fun t o _ σ =>
      GitOk (tableGraph splitPacks) o σ.2 ∧
      (CompactsOk (tableGraph splitPacks) t o σ ∨ ∃ r, o = .inr (.repackGeometric r))) s ∧
    liveChecksums s = ["n1"] ∧ s.world.1.committedRefs (.ref devRef) = some oidB ∧
    s.world.2.lease = none ∧ ¬ Complete (tableGraph splitPacks) s.world.1 := by
  obtain ⟨s, hr, hs⟩ := exists_splitting plainConfig splitPacks halfPublished
    (p := fun s => liveChecksums s = ["n1"] ∧ s.world.1.committedRefs (.ref devRef) = some oidB ∧
      s.world.2.lease = none) (by decide +kernel)
  obtain ⟨hlive, hrefs, hend⟩ := of_decide_eq_true hs
  refine ⟨s, hr, hlive, hrefs, hend, fun hcomplete => ?_⟩
  obtain ⟨p, hp, hpacked⟩ := hcomplete oidB ⟨devRef, oidB, hrefs, rfl, by decide⟩
  have hn1 : p.checksum = "n1" := by
    have hmem : p.checksum ∈ liveChecksums s := List.mem_map_of_mem hp
    simpa [hlive] using hmem
  rw [hn1] at hpacked
  exact absurd (show ("n1", oidB) ∈ splitPacks from hpacked) (by decide)

end Examples

end Walgit
