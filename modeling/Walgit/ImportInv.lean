import Walgit.Imports
import Walgit.ServerSpec

/-!
# What the servers beside an import keep

The heads of the committed manifests never go back, so a server puts checkpoint
objects only at seqs that were heads before, and an import whose base is still
the manifest has a seq above all of them.
-/

namespace Walgit

open Interleaving

variable {t : ℕ} {σ σ' : World × Imports}

section Invariant

/-- The manifest is still the one with this version, or still missing. -/
def Still (base : Option ℕ) (σ : World) : Prop := σ.currentVersion = base

structure BasedOn (base : Option ℕ) (seq : ℕ) (σ : World) : Prop where
  old : ∀ v, base = some v → v < σ.next
  below : Still base σ → ∀ a ∈ σ.commits, a.manifest.headSeq < seq

structure LandedOk (σ : World) (x : Imports) (l : LandedImport) : Prop where
  refsBy : x.refsBy l.seq = some (.importer l.task)
  refs : σ.cpRefs l.seq = some l.snap
  commit : ∃ a ∈ σ.commits, a.manifest.headSeq = l.seq
  heads : ∀ a ∈ σ.commits, a.manifest.headSeq = l.seq → a.manifest.checkpoint = some ⟨l.seq⟩

structure ImportInv (σ : World × Imports) : Prop where
  versions : ∀ a ∈ σ.1.commits, a.version < σ.1.next
  heads : ∀ a ∈ σ.1.commits, a.manifest.headSeq ≤ σ.1.head
  held : ∀ h hd, σ.1.handles h = some hd → Has hd.manifest σ.1
  markers : ∀ source m, σ.2.markers source = some m → BasedOn m.baseManifestVersion m.seq σ.1
  refs : ∀ seq, σ.1.NamesCheckpoint seq → Unharmed σ.2 seq (σ.2.refsBy seq)
  checkpoint : ∀ seq, σ.1.NamesCheckpoint seq → Unharmed σ.2 seq (σ.2.cpBy seq)
  landed : ∀ l ∈ σ.2.landed, LandedOk σ.1 σ.2 l

theorem LandedOk.named {x : Imports} {l : LandedImport} {w : World} (h : LandedOk w x l) :
    w.NamesCheckpoint l.seq := by
  obtain ⟨a, ha, he⟩ := h.commit
  exact ⟨a, ha, h.heads a ha he⟩

theorem ImportInv.atomic (h : ImportInv σ) : ImportAtomic σ where
  refs := h.refs
  checkpoint := h.checkpoint
  snapshot l hl := ⟨(h.landed l hl).named, (h.landed l hl).refs⟩

theorem importInv_init : ImportInv (World.absent, Imports.init) := by
  have hnone : ∀ a : Commit, a ∉ World.absent.commits := fun a => List.not_mem_nil
  constructor
  case versions => exact fun a ha => (hnone a ha).elim
  case heads => exact fun a ha => (hnone a ha).elim
  case held => exact fun h hd hh => (Option.some_ne_none hd hh.symm).elim
  case markers => exact fun source m hm => (Option.some_ne_none m hm.symm).elim
  case refs => exact fun seq ⟨a, ha, _⟩ => (hnone a ha).elim
  case checkpoint => exact fun seq ⟨a, ha, _⟩ => (hnone a ha).elim
  case landed => exact fun l hl => (List.not_mem_nil hl).elim

end Invariant

section Guarantee

def HistoryGrows (σ σ' : World) : Prop :=
  σ'.commits = σ.commits ∨ ∃ a, σ'.commits = a :: σ.commits ∧ σ.next ≤ a.version

theorem HistoryGrows.mem {σ σ' : World} (h : HistoryGrows σ σ') {a : Commit} (ha : a ∈ σ.commits) :
    a ∈ σ'.commits := by
  rcases h with h | ⟨b, h, -⟩
  · rwa [h]
  · rw [h]
    exact List.mem_cons_of_mem b ha

theorem HistoryGrows.has {σ σ' : World} {m : Manifest} (h : HistoryGrows σ σ') :
    Has m σ → Has m σ' := by
  rintro ⟨a, ha, hm⟩
  exact ⟨a, h.mem ha, hm⟩

theorem HistoryGrows.same_of_still {σ σ' : World} {base : Option ℕ} (h : HistoryGrows σ σ')
    (hold : ∀ v, base = some v → v < σ.next) (hs : Still base σ') : σ'.commits = σ.commits := by
  rcases h with h | ⟨a, h, hv⟩
  · exact h
  · have hbase : base = some a.version := by
      rw [← hs]
      simp [World.currentVersion, h]
    have := hold _ hbase
    omega

theorem HistoryGrows.still {σ σ' : World} {base : Option ℕ} (h : HistoryGrows σ σ')
    (hold : ∀ v, base = some v → v < σ.next) (hs : Still base σ') : Still base σ := by
  have := h.same_of_still hold hs
  unfold Still World.currentVersion at hs ⊢
  rwa [← this]

theorem BasedOn.grows {σ σ' : World} {base : Option ℕ} {seq : ℕ} (h : BasedOn base seq σ)
    (hg : HistoryGrows σ σ') (hn : σ.next ≤ σ'.next) : BasedOn base seq σ' where
  old v hv := (h.old v hv).trans_le hn
  below hs := by
    rw [hg.same_of_still h.old hs]
    exact h.below (hg.still h.old hs)

def RefsKept (σ σ' : World × Imports) (seq : ℕ) : Prop :=
  σ'.1.cpRefs seq = σ.1.cpRefs seq ∧ σ'.2.refsBy seq = σ.2.refsBy seq

def WasHead (σ : World) (seq : ℕ) : Prop := ∃ a ∈ σ.commits, a.manifest.headSeq = seq

/-- No other task that has put an object at the seq still runs. -/
def Alone (t : ℕ) (x : Imports) (seq : ℕ) : Prop := ∀ w ∈ x.writers, w.2 = seq → w.1 = t

structure Grown (σ σ' : World × Imports) : Prop where
  commits : HistoryGrows σ.1 σ'.1
  next : σ.1.next ≤ σ'.1.next
  dead : ∀ t ∈ σ.2.dead, t ∈ σ'.2.dead
  landed : ∀ l ∈ σ.2.landed, l ∈ σ'.2.landed

structure ServerGuar (t : ℕ) (σ σ' : World × Imports) : Prop extends Grown σ σ' where
  refs : ∀ seq, RefsKept σ σ' seq ∨ (σ'.2.refsBy seq = some (.server t) ∧ WasHead σ.1 seq)
  checkpoint : ∀ seq, σ'.2.cpBy seq = σ.2.cpBy seq ∨ σ'.2.cpBy seq = some (.server t) ∧
    WasHead σ.1 seq
  writers : ∀ w ∈ σ.2.writers, w ∈ σ'.2.writers

structure ImportGuar (t : ℕ) (σ σ' : World × Imports) : Prop extends Grown σ σ' where
  refs : ∀ seq, RefsKept σ σ' seq ∨ (σ'.2.refsBy seq = some (.server t) ∧ WasHead σ.1 seq) ∨
    Alone t σ.2 seq
  checkpoint : ∀ seq, σ'.2.cpBy seq = σ.2.cpBy seq ∨
    (σ'.2.cpBy seq = some (.server t) ∧ WasHead σ.1 seq) ∨ Alone t σ.2 seq
  writers : ∀ w ∈ σ.2.writers, w.1 ≠ t → w ∈ σ'.2.writers ∨ w.1 ∈ σ'.2.dead

theorem ServerGuar.guar (h : ServerGuar t σ σ') : ImportGuar t σ σ' where
  toGrown := h.toGrown
  refs seq := (h.refs seq).imp_right .inl
  checkpoint seq := (h.checkpoint seq).imp_right .inl
  writers w hw _ := .inl (h.writers w hw)

theorem Unharmed.mono {x x' : Imports} {seq : ℕ} {w : Option Writer}
    (h : Unharmed x seq w) (hl : ∀ l ∈ x.landed, l ∈ x'.landed) : Unharmed x' seq w := by
  intro t ht
  obtain ⟨l, hm, he⟩ := h t ht
  exact ⟨l, hl l hm, he⟩

theorem unharmed_server {x : Imports} {seq : ℕ} : Unharmed x seq (some (.server t)) := nofun

end Guarantee

def importDiscipline : Discipline (Op ⊕ ImportOp) (Both Op.Res ImportOp.Res) (World × Imports)
    Choice where
  exec := importExec
  ok := ImportsOk
  needs _ _ _ := True
  inv := ImportInv
  guar := ImportGuar
  fresh _ _ := True

section Changes

variable {seq : ℕ} {w : World}

theorem Has.of_commits {m : Manifest} {σ σ' : World} (hc : σ'.commits = σ.commits)
    (h : Has m σ) : Has m σ' := by
  unfold Has
  rwa [hc]

theorem NamesCheckpoint_congr {σ σ' : World} (hc : σ'.commits = σ.commits) :
    σ'.NamesCheckpoint seq ↔ σ.NamesCheckpoint seq := by
  unfold World.NamesCheckpoint
  rw [hc]

theorem head_congr {σ σ' : World} (hc : σ'.commits = σ.commits) : σ'.head = σ.head := by
  unfold World.head World.current
  rw [hc]

theorem ImportInv.same {x : Imports} (hi : ImportInv σ) (hc : w.commits = σ.1.commits)
    (hn : σ.1.next ≤ w.next) (hr : w.cpRefs = σ.1.cpRefs)
    (hheld : ∀ h hd, w.handles h = some hd → Has hd.manifest σ.1)
    (hx : x.refsBy = σ.2.refsBy ∧ x.cpBy = σ.2.cpBy ∧ x.landed = σ.2.landed)
    (hm : ∀ source m, x.markers source = some m → σ.2.markers source = some m ∨
      BasedOn m.baseManifestVersion m.seq σ.1) : ImportInv (w, x) := by
  have hg : HistoryGrows σ.1 w := .inl hc
  constructor
  case versions => exact fun a ha => (hi.versions a (hc ▸ ha)).trans_le hn
  case heads =>
    intro a ha
    rw [head_congr hc]
    exact hi.heads a (hc ▸ ha)
  case held => exact fun h hd hh => (hheld h hd hh).of_commits hc
  case markers =>
    intro source m hmark
    rcases hm source m hmark with h | h
    · exact (hi.markers source m h).grows hg hn
    · exact h.grows hg hn
  case refs =>
    intro q hq
    rw [hx.1]
    exact (hi.refs q ((NamesCheckpoint_congr hc).mp hq)).mono (by rw [hx.2.2]; exact fun _ h => h)
  case checkpoint =>
    intro q hq
    rw [hx.2.1]
    exact (hi.checkpoint q ((NamesCheckpoint_congr hc).mp hq)).mono
      (by rw [hx.2.2]; exact fun _ h => h)
  case landed =>
    intro l hl
    have h := hi.landed l (hx.2.2 ▸ hl)
    refine ⟨by rw [hx.1]; exact h.refsBy, by rw [hr]; exact h.refs, ?_, ?_⟩
    · rw [hc]
      exact h.commit
    · rw [hc]
      exact h.heads

theorem ImportInv.putRefs {snap : RefState} {by' : Writer} (hi : ImportInv σ)
    (hfree : ∀ l ∈ σ.2.landed, l.seq ≠ seq)
    (hu : σ.1.NamesCheckpoint seq → Unharmed σ.2 seq (some by')) :
    ImportInv (σ.1.setCpRefs seq snap, σ.2.noteRefs t seq by') := by
  refine ⟨hi.versions, hi.heads, hi.held, fun source m h => ?_, fun q hq => ?_, hi.checkpoint,
    fun l hl => ?_⟩
  · exact (hi.markers source m h).grows (.inl rfl) (Nat.le_refl _)
  · change Unharmed σ.2 q (if q = seq then some by' else σ.2.refsBy q)
    split
    · rename_i h
      exact h ▸ hu (h ▸ hq)
    · exact hi.refs q hq
  · have h := hi.landed l hl
    refine ⟨(if_neg (hfree l hl)).trans h.refsBy, (if_neg (hfree l hl)).trans h.refs, h.commit,
      h.heads⟩

theorem ImportInv.putCheckpoint {cp : Checkpoint} {by' : Writer} (hi : ImportInv σ)
    (hu : σ.1.NamesCheckpoint seq → Unharmed σ.2 seq (some by')) :
    ImportInv (σ.1.setCp seq cp, σ.2.noteCheckpoint t seq by') := by
  refine ⟨hi.versions, hi.heads, hi.held, fun source m h => ?_, hi.refs, fun q hq => ?_,
    fun l hl => ?_⟩
  · exact (hi.markers source m h).grows (.inl rfl) (Nat.le_refl _)
  · change Unharmed σ.2 q (if q = seq then some by' else σ.2.cpBy q)
    split
    · rename_i h
      exact h ▸ hu (h ▸ hq)
    · exact hi.checkpoint q hq
  · have h := hi.landed l hl
    exact ⟨h.refsBy, h.refs, h.commit, h.heads⟩

/-- A new commit: its head is not behind, its checkpoint is unharmed, and the imports that have
succeeded keep theirs. -/
theorem ImportInv.commit {a : Commit} {ls : List LandedImport} (hi : ImportInv σ)
    (hw : w = { σ.1 with commits := a :: σ.1.commits, next := σ.1.next + 1 })
    (hv : a.version = σ.1.next) (hhead : ∀ b ∈ σ.1.commits, b.manifest.headSeq ≤ a.manifest.headSeq)
    (hls : ∀ l ∈ σ.2.landed, l ∈ ls)
    (hcp : ∀ seq, a.manifest.checkpoint = some ⟨seq⟩ →
      Unharmed { σ.2 with landed := ls } seq (σ.2.refsBy seq) ∧
      Unharmed { σ.2 with landed := ls } seq (σ.2.cpBy seq))
    (hland : ∀ l ∈ ls, (l ∈ σ.2.landed ∧ (a.manifest.headSeq = l.seq →
        a.manifest.checkpoint = some ⟨l.seq⟩)) ∨ LandedOk w { σ.2 with landed := ls } l) :
    ImportInv (w, { σ.2 with landed := ls }) := by
  subst hw
  have hg : HistoryGrows σ.1 { σ.1 with commits := a :: σ.1.commits, next := σ.1.next + 1 } :=
    .inr ⟨a, rfl, hv.ge⟩
  constructor
  case versions =>
    intro b hb
    rcases List.mem_cons.mp hb with rfl | hb
    · exact hv ▸ Nat.lt_succ_self _
    · exact (hi.versions b hb).trans (Nat.lt_succ_self _)
  case heads =>
    intro b hb
    rcases List.mem_cons.mp hb with rfl | hb
    · exact Nat.le_refl _
    · exact hhead b hb
  case held => exact fun h hd hh => hg.has (hi.held h hd hh)
  case markers => exact fun source m h => (hi.markers source m h).grows hg (Nat.le_succ _)
  case refs =>
    rintro q ⟨b, hb, hq⟩
    rcases List.mem_cons.mp hb with rfl | hb
    · exact (hcp q hq).1
    · exact (hi.refs q ⟨b, hb, hq⟩).mono hls
  case checkpoint =>
    rintro q ⟨b, hb, hq⟩
    rcases List.mem_cons.mp hb with rfl | hb
    · exact (hcp q hq).2
    · exact (hi.checkpoint q ⟨b, hb, hq⟩).mono hls
  case landed =>
    intro l hl
    rcases hland l hl with ⟨hold, hnew⟩ | h
    · have h := hi.landed l hold
      obtain ⟨b, hb, he⟩ := h.commit
      refine ⟨h.refsBy, h.refs, ⟨b, List.mem_cons_of_mem a hb, he⟩, fun b hb he => ?_⟩
      rcases List.mem_cons.mp hb with rfl | hb
      · exact hnew he
      · exact h.heads b hb he
    · exact h

end Changes

section Servers

/-- What neither the other tasks nor the server's own calls break. -/
def Lasts (t : ℕ) (P : World × Imports → Prop) : Prop :=
  ∀ t' σ σ', ImportInv σ → ImportInv σ' → (t' ≠ t ∧ ImportGuar t' σ σ') ∨ ServerGuar t σ σ' →
    P σ → P σ'

theorem Lasts.of_grown {P : World × Imports → Prop}
    (h : ∀ σ σ', Grown σ σ' → P σ → P σ') : Lasts t P := by
  rintro t' σ σ' _ _ (⟨-, hg⟩ | hg) hp
  · exact h σ σ' hg.toGrown hp
  · exact h σ σ' hg.toGrown hp

/-- The task, if it still runs, has put an object at the seq that no failed import replaced. -/
def FiledBy (by' : Imports → ℕ → Option Writer) (t seq : ℕ) (σ : World × Imports) : Prop :=
  t ∈ σ.2.dead ∨ ((t, seq) ∈ σ.2.writers ∧ Unharmed σ.2 seq (by' σ.2 seq))

theorem lasts_filedBy {by' : Imports → ℕ → Option Writer} {seq : ℕ}
    (hother : ∀ t' σ σ', ImportGuar t' σ σ' → by' σ'.2 seq = by' σ.2 seq ∨
      by' σ'.2 seq = some (.server t') ∨ Alone t' σ.2 seq)
    (hown : ∀ σ σ', ServerGuar t σ σ' → by' σ'.2 seq = by' σ.2 seq ∨
      by' σ'.2 seq = some (.server t)) :
    Lasts t (FiledBy by' t seq) := by
  rintro t' σ σ' _ _ hg (hd | ⟨hw, hu⟩)
  · rcases hg with ⟨-, hg⟩ | hg
    · exact .inl (hg.dead t hd)
    · exact .inl (hg.dead t hd)
  · rcases hg with ⟨hne, hg⟩ | hg
    · rcases hg.writers _ hw (Ne.symm hne) with hw' | hd
      · refine .inr ⟨hw', ?_⟩
        rcases hother t' σ σ' hg with he | he | ha
        · rw [he]
          exact hu.mono hg.landed
        · rw [he]
          exact unharmed_server
        · exact absurd (ha _ hw rfl).symm hne
      · exact .inl hd
    · refine .inr ⟨hg.writers _ hw, ?_⟩
      rcases hown σ σ' hg with he | he
      · rw [he]
        exact hu.mono hg.landed
      · rw [he]
        exact unharmed_server

abbrev RefsFiled (t seq : ℕ) : World × Imports → Prop := FiledBy Imports.refsBy t seq

abbrev CpFiled (t seq : ℕ) : World × Imports → Prop := FiledBy Imports.cpBy t seq

theorem lasts_refsFiled {seq : ℕ} : Lasts t (RefsFiled t seq) :=
  lasts_filedBy (fun _ _ _ hg => (hg.refs seq).imp And.right (.imp_left And.left))
    fun _ _ hg => (hg.refs seq).imp And.right And.left

theorem lasts_cpFiled {seq : ℕ} : Lasts t (CpFiled t seq) :=
  lasts_filedBy (fun _ _ _ hg => (hg.checkpoint seq).imp_right (.imp_left And.left))
    fun _ _ hg => (hg.checkpoint seq).imp_right And.left

abbrev ImportNeeds (t : ℕ) : Op → World × Imports → Prop :=
  ServerNeeds (fun m σ => Has m σ.1) (RefsFiled t) (CpFiled t)

abbrev ImportAnswer (t : ℕ) (o : Op) (r : o.Res) : World × Imports → Prop :=
  ServerAnswer (fun m σ => Has m σ.1) (RefsFiled t) (CpFiled t) o r

variable {o : Op} {c : Choice} {w : World}

theorem note_same {x : Imports} (ho : o.putsCheckpoint = true → c.outcome = .err) :
    x.note t c o = x := by
  cases o with
  | putCheckpointRefs seq snap => exact if_pos (ho rfl)
  | putCheckpoint seq cp => exact if_pos (ho rfl)
  | _ => rfl

theorem Grown.same (hc : w.commits = σ.1.commits) (hn : σ.1.next ≤ w.next) {x : Imports}
    (hx : x.dead = σ.2.dead ∧ x.landed = σ.2.landed) : Grown σ (w, x) where
  commits := .inl hc
  next := hn
  dead := by rw [hx.1]; exact fun _ h => h
  landed := by rw [hx.2]; exact fun _ h => h

theorem ImportInv.newHeld {r : o.Res} (hi : ImportInv σ) (hn : ImportNeeds t o σ)
    (hex : exec t o c σ.1 = some (r, w)) :
    ∀ h hd, w.handles h = some hd → Has hd.manifest σ.1 := by
  intro h hd hh
  rcases exec_held hex h hd hh with ⟨hd₀, hh₀, he⟩ | hg
  · rw [he]
    exact hi.held h hd₀ hh₀
  · cases o with
    | setManifest j m locked => exact Option.some.inj hg ▸ hn
    | install j m version state refs => exact Option.some.inj hg ▸ hn
    | _ => cases hg

theorem ImportInv.put_free {seq : ℕ} (hi : ImportInv σ)
    (hn : ∃ m, Has m σ.1 ∧ m.headSeq = seq ∧ m.checkpoint ≠ some ⟨seq⟩) :
    ∀ l ∈ σ.2.landed, l.seq ≠ seq := by
  obtain ⟨m, ⟨a, ha, rfl⟩, hm, hcp⟩ := hn
  intro l hl he
  refine hcp (he ▸ (hi.landed l hl).heads a ha ?_)
  rw [hm, he]

theorem Advances.checkpoint {base : Manifest} {op : ManifestOp} (h : Advances base op) :
    (∃ cp, op = .checkpoint cp) ∨ (op.apply base).checkpoint = base.checkpoint := by
  cases op with
  | create => exact h.elim
  | checkpoint cp => exact .inl ⟨cp, rfl⟩
  | _ => exact .inr rfl

theorem Advances.at_head {base : Manifest} {op : ManifestOp} (h : Advances base op)
    (hhead : (op.apply base).headSeq ≤ base.headSeq)
    (hcp : base.checkpoint = some ⟨base.headSeq⟩) :
    (op.apply base).checkpoint = some ⟨base.headSeq⟩ := by
  cases op with
  | create => exact h.elim
  | push packs seg => exact absurd h (Nat.not_lt.mpr hhead)
  | compact pack supersedes seg => exact absurd h (Nat.not_lt.mpr hhead)
  | settings doc seg => exact absurd h (Nat.not_lt.mpr hhead)
  | checkpoint cp => exact absurd (h _ hcp) (Nat.lt_irrefl _)
  | annotate => exact hcp

theorem filedBy_alive {by' : Imports → ℕ → Option Writer} {seq : ℕ} (ht : t ∉ σ.2.dead)
    (h : FiledBy by' t seq σ) : Unharmed σ.2 seq (by' σ.2 seq) :=
  (h.resolve_left ht).2

theorem ImportInv.serverCommit {base : Manifest} {op : ManifestOp} {slot : Option Slot}
    (hi : ImportInv σ) (ht : t ∉ σ.2.dead) (hne : σ.1.commits ≠ [])
    (hbase : base = σ.1.current.manifest) (hop : Advances base op)
    (hcp : ∀ cp, op = .checkpoint cp → RefsFiled t cp.seq σ ∧ CpFiled t cp.seq σ) :
    ImportInv (σ.1.commit t base op slot, σ.2) := by
  have hcur : σ.1.current ∈ σ.1.commits := by
    unfold World.current
    cases hc : σ.1.commits with
    | nil => exact (hne hc).elim
    | cons a as => exact List.mem_cons_self
  have hhead : base.headSeq = σ.1.head := by rw [hbase]; rfl
  refine hi.commit (σ := σ) rfl rfl (fun b hb => ?_) (fun _ h => h) (fun seq hseq => ?_)
    fun l hl => .inl ⟨hl, fun he => ?_⟩
  · exact ((hi.heads b hb).trans hhead.ge).trans hop.head_le
  · rcases hop.checkpoint with ⟨cp, rfl⟩ | he
    · obtain rfl : cp = ⟨seq⟩ := Option.some.inj hseq
      obtain ⟨hr, hp⟩ := hcp _ rfl
      exact ⟨filedBy_alive ht hr, filedBy_alive ht hp⟩
    · have hnamed : σ.1.NamesCheckpoint seq := ⟨σ.1.current, hcur, hbase ▸ he.symm.trans hseq⟩
      exact ⟨hi.refs seq hnamed, hi.checkpoint seq hnamed⟩
  · obtain ⟨b, hb, hbl⟩ := (hi.landed l hl).commit
    have hle := hi.heads b hb
    have happly := hop.head_le
    change (op.apply base).headSeq = l.seq at he
    have hbl' : base.headSeq = l.seq := by omega
    have hcpb : base.checkpoint = some ⟨base.headSeq⟩ := by
      rw [hbl', hbase]
      exact (hi.landed l hl).heads _ hcur (hbase ▸ hbl')
    rw [← hbl']
    exact hop.at_head (by omega) hcpb

theorem importExec_server {r : o.Res} (hex : importExec t (.inl o) c σ = some (r, σ')) :
    t ∉ σ.2.dead ∧ σ.1.commits ≠ [] ∧ ∃ w, exec t o c σ.1 = some (r, w) ∧
      σ' = (w, σ.2.note t c o) := by
  unfold importExec at hex
  split at hex
  · cases hex
  · rename_i ht
    dsimp only at hex
    split at hex
    · cases hex
    · rename_i hne
      obtain ⟨⟨r', w⟩, he, heq⟩ := Option.map_eq_some_iff.mp hex
      cases heq
      exact ⟨ht, by simpa using hne, w, he, rfl⟩

theorem serverStep {r : o.Res} (hi : ImportInv σ) (hn : ImportNeeds t o σ)
    (hok : ImportsOk t (.inl o) c σ) (hex : importExec t (.inl o) c σ = some (r, σ')) :
    ImportInv σ' ∧ ServerGuar t σ σ' := by
  obtain ⟨ht, hne, w, he, rfl⟩ := importExec_server hex
  have hheld := hi.newHeld hn he
  cases exec_objects he with
  | same hc hnext hr hp ho =>
    rw [note_same ho]
    refine ⟨hi.same hc hnext hr hheld ⟨rfl, rfl, rfl⟩ fun _ _ h => .inl h,
      .same hc hnext ⟨rfl, rfl⟩, fun seq => .inl ⟨congrFun hr seq, rfl⟩, fun _ => .inl rfl,
      fun _ h => h⟩
  | commit base op slot ho hσ =>
    subst ho hσ
    obtain ⟨hhas, hop, hcp⟩ := hn
    have hbase : base = σ.1.current.manifest := by
      by_contra hb
      exact hok .tornCas ⟨_, base, op, slot, rfl, rfl, hb⟩
    refine ⟨hi.serverCommit ht hne hbase hop hcp, ⟨.inr ⟨_, rfl, Nat.le_refl _⟩, Nat.le_succ _,
      fun _ h => h, fun _ h => h⟩, fun seq => .inl ⟨rfl, rfl⟩, fun _ => .inl rfl, fun _ h => h⟩
  | refs seq snap ho hc hσ =>
    subst ho hσ
    have hnote : σ.2.note t c (.putCheckpointRefs seq snap) = σ.2.noteRefs t seq (.server t) :=
      if_neg hc
    rw [hnote]
    obtain ⟨m, ⟨a, ha, rfl⟩, hm, hcp⟩ := hn
    refine ⟨hi.putRefs (hi.put_free ⟨_, ⟨a, ha, rfl⟩, hm, hcp⟩) fun _ => unharmed_server,
      ⟨.inl rfl, Nat.le_refl _, fun _ h => h, fun _ h => h⟩, fun q => ?_, fun _ => .inl rfl,
      fun v hv => List.mem_cons_of_mem _ hv⟩
    by_cases hq : q = seq
    · exact .inr ⟨if_pos hq, a, ha, hm.trans hq.symm⟩
    · exact .inl ⟨if_neg hq, if_neg hq⟩
  | checkpoint seq cp ho hc hσ =>
    subst ho hσ
    have hnote : σ.2.note t c (.putCheckpoint seq cp) = σ.2.noteCheckpoint t seq (.server t) :=
      if_neg hc
    rw [hnote]
    obtain ⟨m, ⟨a, ha, rfl⟩, hm, hcp⟩ := hn
    refine ⟨hi.putCheckpoint fun _ => unharmed_server,
      ⟨.inl rfl, Nat.le_refl _, fun _ h => h, fun _ h => h⟩, fun q => .inl ⟨rfl, rfl⟩, fun q => ?_,
      fun v hv => List.mem_cons_of_mem _ hv⟩
    by_cases hq : q = seq
    · exact .inr ⟨if_pos hq, a, ha, hm.trans hq.symm⟩
    · exact .inl (if_neg hq)

theorem current_has {σ : World} (hne : σ.commits ≠ []) : Has σ.current.manifest σ := by
  unfold World.current
  cases hc : σ.commits with
  | nil => exact (hne hc).elim
  | cons a as =>
    refine ⟨a, ?_, rfl⟩
    rw [hc]
    exact List.mem_cons_self

theorem serverAnswer {r : o.Res} (hi : ImportInv σ)
    (hex : importExec t (.inl o) c σ = some (r, σ')) : ImportAnswer t o r σ' := by
  obtain ⟨ht, hne, w, he, rfl⟩ := importExec_server hex
  have hcur : Has σ.1.current.manifest σ.1 := current_has hne
  cases o with
  | manifest h =>
    obtain ⟨rfl, hd, hh, rfl⟩ := read_eq he
    exact hi.held h hd hh
  | getManifest =>
    cases r with
    | error e => exact trivial
    | ok a =>
      obtain ⟨hr, rfl⟩ := Prod.mk.inj (Option.some.inj he)
      obtain rfl := Choice.get_ok hr
      exact hcur
  | getManifestIf known =>
    cases r with
    | error e => exact trivial
    | ok a =>
      obtain ⟨hr, rfl⟩ := Prod.mk.inj (Option.some.inj he)
      obtain rfl := Choice.get_ok hr
      by_cases hk : known = some σ.1.current.version
      · rw [if_pos hk]
        exact trivial
      · rw [if_neg hk]
        exact hcur
  | casLanded slot =>
    have hres : σ.1.casLanded c t slot = (r, w) := Option.some.inj he
    unfold World.casLanded at hres
    split at hres
    · dsimp only at hres
      split at hres <;> cases hres
      · exact hcur
      · exact trivial
    · cases hres
      exact trivial
  | putManifest known base op slot =>
    have hres : σ.1.putManifest c t known base op slot = (r, w) := Option.some.inj he
    unfold World.putManifest at hres
    split at hres
    · cases hres
      exact trivial
    · split at hres
      · have hhas : Has (op.apply base) (σ.1.commit t base op slot) :=
          ⟨_, List.mem_cons_self, rfl⟩
        split at hres <;> cases hres
        · exact hhas
        · exact trivial
      · cases hres
        exact trivial
  | putCheckpointRefs seq snap =>
    cases r with
    | error e => exact trivial
    | ok u =>
      have hc : c.outcome ≠ .err := fun h => by simp [exec, Choice.put, h] at he
      refine .inr ?_
      rw [show σ.2.note t c (.putCheckpointRefs seq snap) = σ.2.noteRefs t seq (.server t) from
        if_neg hc]
      refine ⟨List.mem_cons_self, ?_⟩
      rw [show (σ.2.noteRefs t seq (.server t)).refsBy seq = some (.server t) from if_pos rfl]
      exact unharmed_server
  | putCheckpoint seq cp =>
    cases r with
    | error e => exact trivial
    | ok u =>
      have hc : c.outcome ≠ .err := fun h => by simp [exec, Choice.put, h] at he
      refine .inr ?_
      rw [show σ.2.note t c (.putCheckpoint seq cp) = σ.2.noteCheckpoint t seq (.server t) from
        if_neg hc]
      refine ⟨List.mem_cons_self, ?_⟩
      rw [show (σ.2.noteCheckpoint t seq (.server t)).cpBy seq = some (.server t) from if_pos rfl]
      exact unharmed_server
  | _ => exact trivial

def importRules (t : ℕ) : ServerRules importDiscipline t where
  steady := Lasts t
  has m σ := Has m σ.1
  refsFiled := RefsFiled t
  filed := CpFiled t
  stable h t' σ σ' ht hi hi' hg := h t' σ σ' hi hi' (.inl ⟨ht, hg⟩)
  and hP hQ t' σ σ' hi hi' hg h := ⟨hP t' σ σ' hi hi' hg h.1, hQ t' σ σ' hi hi' hg h.2⟩
  const _ _ _ _ _ _ _ h := h
  steady_has _ := .of_grown fun _ _ hg => hg.commits.has
  steady_refsFiled _ := lasts_refsFiled
  steady_filed _ := lasts_cpFiled
  needs _ _ _ _ := trivial
  rule o _ hP σ c r σ' hi hp hn hok hex := by
    obtain ⟨hi', hg⟩ := serverStep hi hn hok hex
    exact ⟨hi', hg.guar, hP t σ σ' hi hi' (.inr hg) hp, serverAnswer hi hex⟩

end Servers

end Walgit
