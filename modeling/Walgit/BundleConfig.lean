import Walgit.Bundles
import Walgit.Collab

/-!
# Bundle strategies that load

`validate_bundle_strategies` of the configuration. Names are distinct, a full
strategy stands alone and keeps one bundle at least, and an incremental names
a base that leads over at most fifteen more incrementals to a full of the same
filter. Nothing is asked of the order in which the strategies are listed.
-/

namespace Walgit.Bundles

/-- A strategy with the fields that only validation and the schedule read. -/
structure StrategyConfig extends BundleStrategy where
  schedule : String
  filter : Option String
  deriving DecidableEq, Repr

inductive StrategyError
  | duplicateNames
  | scheduleFields (name schedule : String)
  | scheduleParse (name schedule error : String)
  | filterUnsupported (name filter : String)
  | fullBase (name : String)
  | fullChain (name : String)
  | fullKeep (name : String)
  | incrementalKeep (name : String)
  | needsBase (name : String)
  | baseUnknown (name base : String)
  | filterDiffers (name : String) (filter : Option String) (base : String)
      (baseFilter : Option String)
  | baseCycle (name : String)
  deriving DecidableEq, Repr

section Messages

variable (debug : String → String)

def debugOption (o : Option String) : String := o.elim "None" fun s => "Some(" ++ debug s ++ ")"

/-- The text of an error; `debug` quotes a string as the language does. -/
def StrategyError.message (e : StrategyError) : String :=
  let at_ := fun name => "bundles.strategy " ++ name ++ ": "
  match e with
  | .duplicateNames => "bundles.strategy: duplicate strategy names"
  | .scheduleFields name schedule => at_ name ++ "schedule " ++ debug schedule ++
      " must be a 6-field UTC cron (sec min hour dom mon dow) or @hourly/@daily/@weekly"
  | .scheduleParse name schedule error =>
    at_ name ++ "schedule " ++ debug schedule ++ " does not parse: " ++ error
  | .filterUnsupported name filter =>
    at_ name ++ "filter " ++ debug filter ++ " is not supported (only \"blob:none\")"
  | .fullBase name => at_ name ++ "a full strategy has no base"
  | .fullChain name => at_ name ++ "`chain` is an incremental knob"
  | .fullKeep name => at_ name ++ "keep must be >= 1 on a full strategy"
  | .incrementalKeep name => at_ name ++ "`keep` is not a knob on an incremental strategy — " ++
      "the 2 newest whose base is kept are always listed (D21, 2026-08-22); remove it"
  | .needsBase name => at_ name ++ "incremental needs base"
  | .baseUnknown name base => at_ name ++ "base " ++ base ++ " is not a strategy"
  | .filterDiffers name filter base baseFilter => at_ name ++ "filter " ++
      debugOption debug filter ++ " differs from its base " ++ base ++ "'s " ++
      debugOption debug baseFilter ++ " (a chain shares one filter)"
  | .baseCycle name => at_ name ++ "base chain has a cycle"

end Messages

section Validation

def ensure (p : Prop) [Decidable p] (e : StrategyError) : Except StrategyError Unit :=
  if p then .ok () else .error e

/-- The fields that white space separates. -/
def fieldCount (expr : String) : ℕ :=
  ((expr.toList.splitOnP Collab.isWhite).filter fun f => f ≠ []).length

variable {σ : Type} (parse : String → Except String σ) (cfg : List StrategyConfig)

def byName (name : String) : Option StrategyConfig := cfg.find? fun s => s.name = name

/-- The walk from an incremental up its bases, for `n` incrementals on the way at most. -/
def walkBases (s : StrategyConfig) : ℕ → StrategyConfig → Except StrategyError Unit
  | 0, _ => .error (.baseCycle s.name)
  | n + 1, cur =>
    match cur.base with
    | none => .error (.needsBase cur.name)
    | some base =>
      match byName cfg base with
      | none => .error (.baseUnknown cur.name base)
      | some b =>
        if b.filter ≠ s.filter then
          .error (.filterDiffers s.name s.filter b.name b.filter)
        else if b.kind = .full then .ok ()
        else walkBases s n b

def checkSchedule (s : StrategyConfig) : Except StrategyError Unit :=
  let expr := Collab.trim s.schedule
  if ¬ (expr.toList.head? = some '@' ∨ fieldCount expr = 6 ∨ fieldCount expr = 7) then
    .error (.scheduleFields s.name s.schedule)
  else
    match parse expr with
    | .ok _ => .ok ()
    | .error e => .error (.scheduleParse s.name s.schedule e)

def checkFilter (s : StrategyConfig) : Except StrategyError Unit :=
  match s.filter with
  | some f => ensure (f = "blob:none") (.filterUnsupported s.name f)
  | none => .ok ()

def checkKind (s : StrategyConfig) : Except StrategyError Unit :=
  match s.kind with
  | .full => do
    ensure (s.base = none) (.fullBase s.name)
    ensure (s.chain = false) (.fullChain s.name)
    ensure (1 ≤ s.keep) (.fullKeep s.name)
  | .incremental => do
    ensure (s.keep = 0) (.incrementalKeep s.name)
    walkBases cfg s 16 s

def checkStrategy (s : StrategyConfig) : Except StrategyError Unit := do
  checkSchedule parse s
  checkFilter s
  checkKind cfg s

/-- `validate_bundle_strategies`. -/
def validate : Except StrategyError Unit := do
  ensure (cfg.map fun s => s.name).Nodup .duplicateNames
  cfg.forM (checkStrategy parse cfg)

end Validation

section Admitted

/-- The strategies that retention and planning read. -/
def strategies (cfg : List StrategyConfig) : BundlesConfig := cfg.map fun s => s.toBundleStrategy

/-- The bases of `s` lead to a full strategy over fewer than `n` incrementals. -/
def Rooted (cfg : BundlesConfig) : ℕ → BundleStrategy → Prop
  | 0, _ => False
  | n + 1, s => ∃ b ∈ cfg, s.base = some b.name ∧ (b.kind = .full ∨ Rooted cfg n b)

/-- What validation says of the strategies. -/
structure Admitted (cfg : BundlesConfig) : Prop where
  names : (cfg.map BundleStrategy.name).Nodup
  full : ∀ s ∈ cfg, s.kind = .full → s.base = none ∧ s.chain = false ∧ 1 ≤ s.keep
  incremental : ∀ s ∈ cfg, s.kind = .incremental → s.keep = 0 ∧ Rooted cfg 16 s

variable {σ : Type} {parse : String → Except String σ} {cfg : List StrategyConfig}
  {s cur : StrategyConfig} {n : ℕ} {p : Prop} [Decidable p] {e : StrategyError}

theorem ensure_ok : ensure p e = .ok () ↔ p := by
  unfold ensure
  split_ifs with h <;> simp [h]

theorem seq_ok {x y : Except StrategyError Unit} :
    (do x; y) = .ok () ↔ x = .ok () ∧ y = .ok () := by
  cases x with
  | error e => exact ⟨nofun, fun h => nomatch h.1⟩
  | ok u => exact ⟨fun h => ⟨rfl, h⟩, fun h => h.2⟩

theorem forM_ok {f : StrategyConfig → Except StrategyError Unit} {l : List StrategyConfig} :
    l.forM f = .ok () ↔ ∀ s ∈ l, f s = .ok () := by
  induction l with
  | nil => exact ⟨fun _ => nofun, fun _ => rfl⟩
  | cons a l ih =>
    rw [List.forall_mem_cons, ← ih]
    exact seq_ok

theorem byName_some {name : String} (h : byName cfg name = some s) : s ∈ cfg ∧ s.name = name :=
  ⟨List.mem_of_find?_eq_some h, by simpa using List.find?_some h⟩

theorem mem_strategies (h : s ∈ cfg) : s.toBundleStrategy ∈ strategies cfg :=
  List.mem_map_of_mem h

theorem rooted_of_walk (h : walkBases cfg s n cur = .ok ()) :
    Rooted (strategies cfg) n cur.toBundleStrategy := by
  induction n generalizing cur with
  | zero => cases h
  | succ n ih =>
    rw [walkBases] at h
    cases hbase : cur.base with
    | none => simp [hbase] at h
    | some base =>
      cases hb : byName cfg base with
      | none => simp [hbase, hb] at h
      | some b =>
        obtain ⟨hmem, rfl⟩ := byName_some hb
        simp only [hbase, hb] at h
        refine ⟨_, mem_strategies hmem, hbase, ?_⟩
        split_ifs at h with hfilter hfull
        · exact .inl hfull
        · exact .inr (ih h)

theorem admitted_of_validate (h : validate parse cfg = .ok ()) : Admitted (strategies cfg) := by
  obtain ⟨hnames, hall⟩ := seq_ok.mp h
  rw [ensure_ok] at hnames
  rw [forM_ok] at hall
  have hkind : ∀ s ∈ cfg, checkKind cfg s = .ok () := fun s hs =>
    (seq_ok.mp (seq_ok.mp (hall s hs)).2).2
  refine ⟨by rwa [strategies, List.map_map], ?_, ?_⟩
  · intro s hs hfull
    obtain ⟨s, hmem, rfl⟩ := List.mem_map.mp hs
    have hcheck := hkind s hmem
    simp only [checkKind, hfull, seq_ok, ensure_ok] at hcheck
    exact hcheck
  · intro s hs hincremental
    obtain ⟨s, hmem, rfl⟩ := List.mem_map.mp hs
    have hcheck := hkind s hmem
    simp only [checkKind, hincremental, seq_ok, ensure_ok] at hcheck
    exact ⟨hcheck.1, rooted_of_walk hcheck.2⟩

end Admitted

end Walgit.Bundles
