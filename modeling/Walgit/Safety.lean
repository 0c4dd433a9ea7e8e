import Walgit.WriterSpec

/-!
# Every run keeps the invariant

All jobs are within the discipline, so every state of a run that avoids the
races of `L`, those on the pair included, satisfies the invariant.
-/

namespace Walgit

open Interleaving Replay

variable {L : List Hazard} {t : ℕ} {cfg : Config}

theorem spec_enter {α : Type} {h : ℕ} {p : Task α}
    (hspec : Spec L t p (Fresh t) fun _ _ => True) :
    Spec L t (enter h p) (Fresh t) fun _ _ => True := by
  unfold enter
  refine Spec.bind (spec_updateIf (fun _ => trivial) (h := h) (f := id) calm_fresh ?_
    fun hd => ⟨⟨rfl, rfl, rfl, rfl⟩, rfl, rfl⟩) fun _ => ?_
  · intro c σ r σ' hex
    obtain ⟨hd, hh, -, rfl⟩ := updateIf_eq hex
    exact ⟨hd, hh, rfl⟩
  · exact Spec.bind hspec fun _ => Spec.ret fun _ _ _ => trivial

theorem spec_run (hp : PairLevel L) (job : Job) :
    Spec L t (job.run cfg) (Fresh t) fun _ _ => True := by
  cases job with
  | openRepo h old =>
    exact Spec.bind (spec_openRepo calm_fresh) fun _ => Spec.ret fun _ _ _ => trivial
  | sync h => exact spec_enter ((spec_syncRefsPhase hp calm_fresh).post fun _ _ _ _ => trivial)
  | publish h batch => exact spec_processBatch hp
  | compact h pack supersedes tier => exact spec_enter (spec_publishCompact hp)
  | settings h toml author message => exact spec_enter (spec_publishSettingsFrom hp)
  | annotate h checksum rev bitmap commitGraph => exact spec_enter (spec_annotatePackImpl hp)
  | checkpoint h => exact spec_enter (spec_writeCheckpoint hp)

theorem handleInv_init : HandleInv L World.init
    ⟨.created, some 0, .default, false, .init, none, false, none, true⟩ where
  pair := ⟨.created, List.mem_cons_self, rfl, fun _ hv => Nat.le_of_eq (Option.some.inj hv).symm⟩
  headOk _ := .inl rfl
  near _ := nofun
  settled _ _ _ := ⟨Nat.le_refl _, rfl, rfl, fun _ => rfl⟩

theorem log_init : World.init.log = [] := rfl

theorem inv_init : Inv L World.init where
  linked := rfl
  commitVersion c hc := by
    rw [List.mem_singleton.mp hc]
    exact Nat.zero_lt_one
  segVersion _ _ h := by cases h
  stored c hc s hs := by
    rw [List.mem_singleton.mp hc] at hs
    cases hs
  once := List.pairwise_singleton _ _
  snapStored c hc cp hcp := by
    rw [List.mem_singleton.mp hc] at hcp
    cases hcp
  folding _ := List.pairwise_singleton _ _
  plain _ e he := by cases he
  snaps _ _ _ h := by cases h
  cas _ := trivial
  cps _ _ h := by cases h
  verdicts v hv := by cases hv
  replies r hr := by cases hr
  handles h hd hh := by
    change (if h = 0 then some _ else none) = some hd at hh
    split at hh
    · cases hh
      exact handleInv_init
    · cases hh

theorem fresh_init : Fresh t World.init where
  commits c hc := by
    rw [List.mem_singleton.mp hc]
    nofun
  verdicts v hv := by cases hv
  replies r hr := by cases hr

theorem sound_start : (discipline L).Sound (Sys.init : Sys) :=
  Discipline.sound_init inv_init fun _ => fresh_init

theorem Reachable.inv {s : Sys} (hp : PairLevel L) (h : Reachable cfg L s) : Inv L s.world :=
  (sound_start.reach (fun _ => calm_fresh.stable) (fun job _ => spec_run hp job) h).inv

theorem Reachable.rel {s s' : Sys} {R : World → World → Prop} (hp : PairLevel L)
    (h : Reachable cfg L s)
    (h' : Reach exec (Job.run cfg) (fun _ => Avoids L) s s') (hrefl : ∀ σ, R σ σ)
    (htrans : ∀ σ₁ σ₂ σ₃, R σ₁ σ₂ → R σ₂ σ₃ → R σ₁ σ₃)
    (hguar : ∀ t σ σ', Inv L σ → Inv L σ' → Guar L t σ σ' → R σ σ') : R s.world s'.world :=
  (sound_start.reach (fun _ => calm_fresh.stable) (fun job _ => spec_run hp job) h).reach_rel
    (fun _ => calm_fresh.stable) (fun job _ => spec_run hp job) hrefl htrans hguar h'

section Keeps

variable {ok : Op → Choice → World → Prop} {s : Sys}

theorem RunIf.reachable (hok : ∀ o c σ, ok o c σ → Avoids L o c σ) (h : RunIf cfg ok s) :
    Reachable cfg L s :=
  Reach.mono exec (Job.run cfg) (fun _ => hok) h

theorem RunIf.keeps {J : World → Prop} (hp : PairLevel L)
    (hok : ∀ o c σ, ok o c σ → Avoids L o c σ) (hinit : J World.init)
    (hstep : ∀ t o c σ r σ', Inv L σ → Inv L σ' → Guar L t σ σ' → ok o c σ →
      exec t o c σ = some (r, σ') → J σ → J σ') (h : RunIf cfg ok s) : J s.world :=
  (sound_start.reach_keeps (fun _ => calm_fresh.stable) (fun job _ => spec_run hp job)
    (fun _ => hok) hstep hinit h).2

end Keeps

end Walgit
