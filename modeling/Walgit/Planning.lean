import Walgit.BundleConfig
import Walgit.Lib.Fallible
import Walgit.Retention
import Walgit.Schedules
import Walgit.Slots

/-!
# The slot table

`plan_with` lists the slots of every strategy from an anchor to now and says
which of them are built and which are still to be cut. The anchor of a full is
its newest bundle; that of an incremental is the newest bundle of the nearest
strategy up its chain of bases that has one, or the bundle before that. The
walks up the bases are bounded here by fuel, and end when validation has
admitted the configuration. Times are whole seconds; the time of the first
state is rounded up to one.
-/

namespace Walgit.Bundles

structure SkippedSlot where
  strategy : String
  slot : ℕ
  baseId : String
  reason : String
  deriving DecidableEq, Repr

structure BundleList where
  bundles : List BundleEntry
  skipped : List SkippedSlot
  deriving DecidableEq, Repr

/-- The statuses that `plan_with` gives. -/
inductive SlotStatus
  | built (id : String) (seq : ℕ)
  | missing
  | pending
  | blocked (why : String)
  | unavailable
  | skipped (reason : String)
  | wrongHost (why : String)
  deriving DecidableEq, Repr

structure SlotPlan where
  strategy : String
  kind : BundleKind
  slot : ℕ
  status : SlotStatus
  baseId : Option String
  deriving DecidableEq, Repr

structure PlanContext where
  firstState : Option ℤ
  canFull : Bool
  canIncremental : Bool
  wrongHostReason : Option String

/-- A schedule that does not parse, and `s - 1` at the slot of the epoch. -/
inductive PlanError
  | invalidSchedule (error : String)
  | underflow
  deriving DecidableEq, Repr

section Chains

variable (cfg : BundlesConfig) (list : List BundleEntry)

/-- The name of the base of the strategy of a name. -/
def baseName (name : String) : Option String :=
  (cfg.find? fun s => s.name = name).bind BundleStrategy.base

/-- `chain_up`, for `n` turns of its loop; without a result the loop goes on. -/
def chainUp : ℕ → String → Option (List String)
  | 0, _ => none
  | n + 1, name =>
    match baseName cfg name with
    | none => some [name]
    | some next => (chainUp n next).map (name :: ·)

/-- The loop of `base_for_slot_chain`, for `n` turns; without a result the loop goes on. -/
def slotChain (slot : ℕ) : ℕ → String → Option (Option BundleEntry)
  | 0, _ => none
  | n + 1, name =>
    match baseForSlot list name slot with
    | some b => some (some b)
    | none =>
      match baseName cfg name with
      | none => some none
      | some next => slotChain slot n next

/-- The newest bundle of the nearest strategy up the chain that has one. -/
def anchored (base : String) : Option (String × BundleEntry) :=
  ((chainUp cfg (cfg.length + 1) base).getD []).findSome? fun n =>
    (entriesOf list n).getLast?.map fun b => (n, b)

end Chains

/-- `SLOT_CLOSE_GRACE`. -/
def slotCloseGrace : ℤ := 120

def slotClosed (slot : ℕ) (now : ℤ) : Prop := slot + slotCloseGrace ≤ now

instance {slot : ℕ} {now : ℤ} : Decidable (slotClosed slot now) :=
  inferInstanceAs (Decidable (_ ≤ _))

def usizeMax : ℕ := 2 ^ 64 - 1

inductive Anchor
  | nothing
  | blocked
  | after (time : ℤ)

section Plan

variable (parse : String → Except String Schedule) (cfg : List StrategyConfig) (list : BundleList)
  (now : ℤ) (ctx : PlanContext)

/-- `parse_schedule` of a strategy. -/
def scheduleOf (s : StrategyConfig) : Except PlanError Schedule :=
  match parse (Collab.trim s.schedule) with
  | .ok sched => .ok sched
  | .error e => .error (.invalidSchedule (s.schedule ++ ": " ++ e))

/-- `chain_window`: the slots of a strategy in one period of its base. -/
def chainWindow (s : StrategyConfig) : ℕ :=
  match s.base.bind (byName cfg) with
  | none => usizeMax
  | some base =>
    match scheduleOf parse base, scheduleOf parse s with
    | .ok outer, .ok inner =>
      match nextFireAfter outer 1700000000 with
      | none => usizeMax
      | some b1 =>
        match nextFireAfter outer b1 with
        | none => usizeMax
        | some b2 => (slotsBetween inner b1 b2).length
    | _, _ => usizeMax

def anchorOf (s : StrategyConfig) : Except PlanError Anchor :=
  match s.kind with
  | .full =>
    match (entriesOf list.bundles s.name).getLast? with
    | some b => .ok (.after b.creationToken)
    | none => do
      match lastSlotAtOrBefore (← scheduleOf parse s) now with
      | none => .ok .nothing
      | some slot => if slot = 0 then .error .underflow else .ok (.after (slot - 1))
  | .incremental =>
    match anchored (strategies cfg) list.bundles (s.base.getD "") with
    | none => .ok .blocked
    | some (name, b) =>
      if s.chain then .ok (.after b.creationToken)
      else .ok (.after ((entriesOf list.bundles name).reverse[1]?.getD b).creationToken)

/-- The first of `count` slots that is wanted when it is not built. -/
def wantedFrom (s : StrategyConfig) (count : ℕ) : ℕ :=
  match s.kind with
  | .full => 0
  | .incremental =>
    if s.chain then count - max (chainWindow parse cfg s) 1 else count - incrementalsKept

def planBase (s : StrategyConfig) (slot : ℕ) : Option String :=
  match s.kind with
  | .full => none
  | .incremental =>
    (baseForIncremental (strategies cfg) list.bundles s.toBundleStrategy slot).map BundleEntry.id

def unavailable (s : StrategyConfig) (slot : ℕ) : Prop :=
  ¬ (s.kind = .full ∧ entriesOf list.bundles s.name = []) ∧ ctx.firstState.any ((slot : ℤ) < ·)

instance {s : StrategyConfig} {slot : ℕ} : Decidable (unavailable list ctx s slot) :=
  inferInstanceAs (Decidable (_ ∧ _))

def skippedFor (s : StrategyConfig) (slot : ℕ) (baseId : Option String) : Option SkippedSlot :=
  list.skipped.find? fun k =>
    k.strategy = s.name ∧ k.slot = slot ∧ k.baseId = baseId.getD ""

def statusOf (s : StrategyConfig) (slot : ℕ) (existing : Option BundleEntry)
    (baseId : Option String) : SlotStatus :=
  match existing with
  | some b => .built b.id b.seq
  | none =>
    if unavailable list ctx s slot then .unavailable
    else
      match skippedFor list s slot baseId with
      | some k => .skipped k.reason
      | none =>
        if s.kind = .incremental ∧ ¬ slotClosed slot now then .pending
        else
          match s.kind with
          | .full =>
            if ctx.canFull then .missing
            else .wrongHost (ctx.wrongHostReason.getD
              "full bundles need the base pack locally (ssd host)")
          | .incremental =>
            if baseId = none then .blocked "no base bundle at or before this slot"
            else if ctx.canIncremental then .missing
            else .wrongHost (ctx.wrongHostReason.getD "the serving copy does not fit this host")

/-- The row of the slot at place `i`; an unbuilt slot that is not wanted has none. -/
def slotRow (s : StrategyConfig) (wanted : ℕ) (slot i : ℕ) : Option SlotPlan :=
  let existing := (entriesOf list.bundles s.name).find? fun b =>
    b.creationToken = slot ∨ b.slot = slot
  if existing = none ∧ i < wanted then none
  else
    let baseId := planBase cfg list s slot
    some ⟨s.name, s.kind, slot, statusOf list now ctx s slot existing baseId, baseId⟩

def strategyRows (s : StrategyConfig) : Except PlanError (List SlotPlan) := do
  match ← anchorOf parse cfg list now s with
  | .nothing => .ok []
  | .blocked =>
    .ok [⟨s.name, s.kind, 0, .blocked ("no " ++ s.base.getD "" ++ " bundle yet"), none⟩]
  | .after time =>
    let slots := (slotsBetween (← scheduleOf parse s) time now).map Int.toNat
    .ok (slots.zipIdx.filterMap fun p =>
      slotRow cfg list now ctx s (wantedFrom parse cfg s slots.length) p.1 p.2)

/-- Rows in the order of their slots, fulls first. -/
def rowLe (a b : SlotPlan) : Prop :=
  a.slot < b.slot ∨ a.slot = b.slot ∧ (a.kind = .incremental → b.kind = .incremental)

instance : DecidableRel rowLe := fun _ _ => inferInstanceAs (Decidable (_ ∨ _))

def planWith : Except PlanError (List SlotPlan) := do
  let rows ← cfg.mapM (strategyRows parse cfg list now ctx)
  return rows.flatten.insertionSort rowLe

/-- The row is of a plan, and its bundle is to be built. -/
def Missing (r : SlotPlan) : Prop :=
  ∃ rows, planWith parse cfg list now ctx = .ok rows ∧ r ∈ rows ∧ r.status = .missing

end Plan

section Ends

variable {cfg : BundlesConfig} {list : List BundleEntry} {n m slot : ℕ} {name x : String}
  {l : List String}

theorem chainUp_mono (h : chainUp cfg n name = some l) (hle : n ≤ m) :
    chainUp cfg m name = some l := by
  induction n generalizing m name l with
  | zero => cases h
  | succ n ih =>
    obtain ⟨m, rfl⟩ : ∃ k, m = k + 1 := ⟨m - 1, by omega⟩
    rw [chainUp] at h ⊢
    cases hbase : baseName cfg name with
    | none => simpa [hbase] using h
    | some next =>
      simp only [hbase] at h ⊢
      obtain ⟨rest, hrest, rfl⟩ := Option.map_eq_some_iff.mp h
      rw [ih hrest (by omega)]
      rfl

theorem chainUp_cases (h : chainUp cfg (n + 1) name = some l) :
    l = [name] ∧ baseName cfg name = none ∨
      ∃ next rest, baseName cfg name = some next ∧ chainUp cfg n next = some rest ∧
        l = name :: rest := by
  rw [chainUp] at h
  cases hbase : baseName cfg name with
  | none => exact .inl ⟨by simpa [hbase] using h.symm, rfl⟩
  | some next =>
    simp only [hbase] at h
    obtain ⟨rest, hrest, rfl⟩ := Option.map_eq_some_iff.mp h
    exact .inr ⟨next, rest, rfl, hrest, rfl⟩

theorem chainUp_mem (h : chainUp cfg n name = some l) (hx : x ∈ l) :
    ∃ l', l'.length ≤ l.length ∧ chainUp cfg n x = some l' := by
  induction n generalizing name l with
  | zero => cases h
  | succ n ih =>
    rcases chainUp_cases h with ⟨rfl, -⟩ | ⟨next, rest, -, hrest, rfl⟩
    · obtain rfl := List.mem_singleton.mp hx
      exact ⟨_, le_rfl, h⟩
    · rcases List.mem_cons.mp hx with rfl | hx
      · exact ⟨_, le_rfl, h⟩
      · obtain ⟨l', hlen, hl'⟩ := ih hrest hx
        exact ⟨l', hlen.trans (Nat.le_succ _), chainUp_mono hl' (Nat.le_succ n)⟩

theorem chainUp_nodup (h : chainUp cfg n name = some l) : l.Nodup := by
  induction n generalizing name l with
  | zero => cases h
  | succ n ih =>
    rcases chainUp_cases h with ⟨rfl, -⟩ | ⟨next, rest, -, hrest, rfl⟩
    · exact List.nodup_singleton name
    · refine List.nodup_cons.mpr ⟨fun hmem => ?_, ih hrest⟩
      obtain ⟨l', hlen, hl'⟩ := chainUp_mem hrest hmem
      have heq := Option.some.inj ((chainUp_mono hl' (Nat.le_succ n)).symm.trans h)
      rw [heq, List.length_cons] at hlen
      omega

theorem chainUp_length (h : chainUp cfg n name = some l) :
    chainUp cfg l.length name = some l := by
  induction n generalizing name l with
  | zero => cases h
  | succ n ih =>
    rcases chainUp_cases h with ⟨rfl, hbase⟩ | ⟨next, rest, hbase, hrest, rfl⟩
    · simp [chainUp, hbase]
    · rw [List.length_cons, chainUp, hbase]
      simp [ih hrest]

theorem baseName_mem (h : baseName cfg name = some x) : name ∈ cfg.map BundleStrategy.name := by
  obtain ⟨s, hs, -⟩ := Option.bind_eq_some_iff.mp h
  have hname : s.name = name := by simpa using List.find?_some hs
  exact hname ▸ List.mem_map_of_mem (List.mem_of_find?_eq_some hs)

/-- All the names of a chain but the last are of the configuration. -/
theorem chainUp_subset (h : chainUp cfg n name = some l) :
    ∀ x ∈ l.dropLast, x ∈ cfg.map BundleStrategy.name := by
  induction n generalizing name l with
  | zero => cases h
  | succ n ih =>
    rcases chainUp_cases h with ⟨rfl, -⟩ | ⟨next, rest, hbase, hrest, rfl⟩
    · nofun
    · intro x hx
      cases rest with
      | nil => cases hx
      | cons y rest =>
        rw [List.dropLast_cons_cons, List.mem_cons] at hx
        rcases hx with rfl | hx
        · exact baseName_mem hbase
        · exact ih hrest x hx

theorem chainUp_stable (h : chainUp cfg n name = some l) :
    chainUp cfg (cfg.length + 1) name = some l := by
  refine chainUp_mono (chainUp_length h) ?_
  have hnodup : l.dropLast.Nodup := (chainUp_nodup h).sublist (List.dropLast_sublist l)
  have hlen := (List.subperm_of_subset hnodup (chainUp_subset h)).length_le
  rw [List.length_map, List.length_dropLast] at hlen
  omega

theorem baseForSlotChain_eq (h : chainUp cfg n name = some l) :
    baseForSlotChain cfg list slot n name = l.findSome? fun x => baseForSlot list x slot := by
  induction n generalizing name l with
  | zero => cases h
  | succ n ih =>
    rw [baseForSlotChain, ← baseName]
    rcases chainUp_cases h with ⟨rfl, hbase⟩ | ⟨next, rest, hbase, hrest, rfl⟩
    · cases hb : baseForSlot list name slot <;> simp [hbase, hb]
    · cases hb : baseForSlot list name slot <;> simp [hbase, hb, ih hrest]

theorem slotChain_eq (h : chainUp cfg n name = some l) :
    slotChain cfg list slot n name = some (baseForSlotChain cfg list slot n name) := by
  induction n generalizing name l with
  | zero => cases h
  | succ n ih =>
    rw [slotChain, baseForSlotChain, ← baseName]
    cases hb : baseForSlot list name slot with
    | some b => rfl
    | none =>
      rcases chainUp_cases h with ⟨rfl, hbase⟩ | ⟨next, rest, hbase, hrest, rfl⟩
      · simp [hbase]
      · simp [hbase, ih hrest]

theorem find_name (hn : (cfg.map BundleStrategy.name).Nodup) {s : BundleStrategy} (hs : s ∈ cfg) :
    (cfg.find? fun u => u.name = s.name) = some s := by
  cases hfind : cfg.find? fun u => u.name = s.name with
  | none => simpa using List.find?_eq_none.mp hfind s hs
  | some u =>
    have hname : u.name = s.name := by simpa using List.find?_some hfind
    rw [List.inj_on_of_nodup_map hn (List.mem_of_find?_eq_some hfind) hs hname]

theorem baseName_of_mem (hn : (cfg.map BundleStrategy.name).Nodup) {s : BundleStrategy}
    (hs : s ∈ cfg) : baseName cfg s.name = s.base := by
  rw [baseName, find_name hn hs, Option.bind_some]

theorem chainUp_full (h : Admitted cfg) {s : BundleStrategy} (hs : s ∈ cfg)
    (hkind : s.kind = .full) : chainUp cfg (n + 1) s.name = some [s.name] := by
  rw [chainUp, baseName_of_mem h.names hs, (h.full s hs hkind).1]

theorem chainUp_rooted (h : Admitted cfg) {s : BundleStrategy} (hs : s ∈ cfg)
    (hroot : Rooted cfg n s) : ∃ l, chainUp cfg (n + 1) s.name = some l := by
  induction n generalizing s with
  | zero => cases hroot
  | succ n ih =>
    obtain ⟨b, hb, hbase, hend⟩ := hroot
    rw [chainUp, baseName_of_mem h.names hs, hbase]
    rcases hend with hfull | hroot
    · exact ⟨[s.name, b.name], by simp [chainUp_full h hb hfull]⟩
    · obtain ⟨l, hl⟩ := ih hb hroot
      exact ⟨s.name :: l, by simp [hl]⟩

theorem chainUp_admitted (h : Admitted cfg) (name : String) :
    ∃ l, chainUp cfg 17 name = some l := by
  by_cases hname : name ∈ cfg.map BundleStrategy.name
  · obtain ⟨s, hs, rfl⟩ := List.mem_map.mp hname
    cases hkind : s.kind with
    | full => exact ⟨_, chainUp_full h hs hkind⟩
    | incremental => exact chainUp_rooted h hs (h.incremental s hs hkind).2
  · refine ⟨[name], ?_⟩
    rw [chainUp]
    cases hbase : baseName cfg name with
    | none => rfl
    | some next => exact absurd (baseName_mem hbase) hname

theorem baseForSlot_mem {b : BundleEntry} (h : baseForSlot list name slot = some b) :
    b ∈ list ∧ b.strategy = name :=
  mem_entriesOf.mp (List.mem_filter.mp (List.mem_of_getLast? h)).1

theorem baseForSlotChain_mem {b : BundleEntry}
    (h : baseForSlotChain cfg list slot n name = some b) : b ∈ list := by
  induction n generalizing name with
  | zero => cases h
  | succ n ih =>
    rw [baseForSlotChain] at h
    rcases Option.or_eq_some_iff.mp h with h | ⟨-, h⟩
    · exact (baseForSlot_mem h).1
    · obtain ⟨next, -, hnext⟩ := Option.bind_eq_some_iff.mp h
      exact ih hnext

theorem baseForIncremental_cases {s : BundleStrategy} {b : BundleEntry}
    (h : baseForIncremental cfg list s slot = some b) :
    (∃ base, s.base = some base ∧
      baseForSlotChain cfg list slot (cfg.length + 1) base = some b) ∨
    s.chain = true ∧ b ∈ list ∧ b.strategy = s.name ∧ b.creationToken < slot := by
  obtain ⟨base, hbase, hb⟩ := Option.bind_eq_some_iff.mp h
  have hown : ∀ {own : BundleEntry}, ((entriesOf list s.name).filter fun b =>
      b.creationToken < slot).getLast? = some own →
        own ∈ list ∧ own.strategy = s.name ∧ own.creationToken < slot := by
    intro own hlast
    obtain ⟨hmem, hlt⟩ := List.mem_filter.mp (List.mem_of_getLast? hlast)
    obtain ⟨hlist, hname⟩ := mem_entriesOf.mp hmem
    exact ⟨hlist, hname, by simpa using hlt⟩
  dsimp only at hb
  split_ifs at hb with hc
  · split at hb
    · next own c hlast hchain =>
      split_ifs at hb
      · obtain rfl := Option.some.inj hb
        exact .inr ⟨hc, hown hlast⟩
      · obtain rfl := Option.some.inj hb
        exact .inl ⟨base, hbase, hchain⟩
    · next own hlast _ =>
      obtain rfl := Option.some.inj hb
      exact .inr ⟨hc, hown hlast⟩
    · exact .inl ⟨base, hbase, hb⟩
  · exact .inl ⟨base, hbase, hb⟩

theorem baseForIncremental_mem {s : BundleStrategy} {b : BundleEntry}
    (h : baseForIncremental cfg list s slot = some b) : b ∈ list := by
  rcases baseForIncremental_cases h with ⟨base, -, hb⟩ | ⟨-, hb, -⟩
  · exact baseForSlotChain_mem hb
  · exact hb

theorem baseForSlotChain_strategy (h : Admitted cfg) {base : String} {b : BundleEntry}
    (hb : baseForSlotChain cfg list slot (cfg.length + 1) base = some b) :
    ∃ l, chainUp cfg (cfg.length + 1) base = some l ∧ b.strategy ∈ l := by
  obtain ⟨l, hl⟩ := chainUp_admitted h base
  have hstable := chainUp_stable hl
  rw [baseForSlotChain_eq hstable] at hb
  obtain ⟨x, hx, hslot⟩ := List.exists_of_findSome?_eq_some hb
  exact ⟨l, hstable, (baseForSlot_mem hslot).2 ▸ hx⟩

theorem baseForIncremental_foreign (h : Admitted cfg) {s : BundleStrategy} {b : BundleEntry}
    (hs : s ∈ cfg) (hc : s.chain = false) (hb : baseForIncremental cfg list s slot = some b) :
    b.strategy ≠ s.name := by
  rcases baseForIncremental_cases hb with ⟨base, hbase, hfound⟩ | ⟨hchain, -⟩
  · obtain ⟨l, hl, hmem⟩ := baseForSlotChain_strategy h hfound
    have hown : chainUp cfg (cfg.length + 2) s.name = some (s.name :: l) := by
      rw [chainUp, baseName_of_mem h.names hs, hbase]
      simp [hl]
    exact fun heq => (List.nodup_cons.mp (chainUp_nodup hown)).1 (heq ▸ hmem)
  · rw [hc] at hchain
    cases hchain

end Ends

section Rows

variable {parse : String → Except String Schedule} {cfg : List StrategyConfig} {list : BundleList}
  {now time : ℤ} {ctx : PlanContext} {s : StrategyConfig} {r : SlotPlan} {b : BundleEntry}

/-- What a row says that is still to be cut. -/
structure RowOf (cfg : List StrategyConfig) (list : BundleList) (now : ℤ) (s : StrategyConfig)
    (r : SlotPlan) : Prop where
  strategy : r.strategy = s.name
  positive : 0 < r.slot
  le_now : (r.slot : ℤ) ≤ now
  unbuilt : ∀ b ∈ list.bundles, b.strategy = s.name → b.creationToken ≠ r.slot
  baseId : r.baseId = planBase cfg list s r.slot
  based : s.kind = .incremental → r.baseId ≠ none
  newest : s.kind = .full → ∀ b ∈ list.bundles, b.strategy = s.name → b.creationToken < r.slot
  after : s.kind = .incremental → s.chain = true → ∀ b ∈ list.bundles,
    s.base = some b.strategy → b.creationToken < r.slot

theorem le_getLast {name : String} {n : BundleEntry}
    (h : (entriesOf list.bundles name).getLast? = some n) (hb : b ∈ list.bundles)
    (hname : b.strategy = name) : b.creationToken ≤ n.creationToken := by
  have hmem : b ∈ entriesOf list.bundles name := mem_entriesOf.mpr ⟨hb, hname⟩
  have hlast := List.dropLast_append_getLast? n h
  have hsorted := @entriesOf_sorted list.bundles name
  rw [← hlast] at hmem hsorted
  rcases List.mem_append.mp hmem with hmem | hmem
  · exact (List.pairwise_append.mp hsorted).2.2 b hmem n (List.mem_singleton_self n)
  · exact (List.mem_singleton.mp hmem) ▸ le_rfl

theorem anchored_base {cfg : BundlesConfig} {bundles : List BundleEntry} {name anchor : String}
    {n : BundleEntry} (h : anchored cfg bundles name = some (anchor, n))
    (hb : b ∈ bundles) (hname : b.strategy = name) :
    (entriesOf bundles name).getLast? = some n := by
  cases hchain : chainUp cfg (cfg.length + 1) name with
  | none => simp [anchored, hchain] at h
  | some l =>
    have hhead : ∃ rest, l = name :: rest := by
      rcases chainUp_cases hchain with ⟨rfl, -⟩ | ⟨-, rest, -, -, rfl⟩
      · exact ⟨[], rfl⟩
      · exact ⟨rest, rfl⟩
    obtain ⟨rest, rfl⟩ := hhead
    cases hlast : (entriesOf bundles name).getLast? with
    | none =>
      have hmem : b ∈ entriesOf bundles name := mem_entriesOf.mpr ⟨hb, hname⟩
      simp [List.getLast?_eq_none_iff.mp hlast] at hmem
    | some m =>
      simp only [anchored, hchain, Option.getD_some, List.findSome?_cons, hlast, Option.map_some,
        Option.some.injEq, Prod.mk.injEq] at h
      rw [h.2]

theorem lastSlot_nonneg {sched : Schedule} {t slot : ℤ}
    (h : lastSlotAtOrBefore sched t = some slot) : 0 ≤ slot := by
  obtain ⟨d, -, hd⟩ := List.exists_of_findSome?_eq_some h
  obtain ⟨f, -, -, -, rfl⟩ := mem_slotSet.mp (slotsFrom_subset (List.mem_of_getLast? hd))
  exact le_max_left 0 f

structure AnchorOf (list : BundleList) (s : StrategyConfig) (time : ℤ) : Prop where
  nonneg : 0 ≤ time
  full : s.kind = .full → ∀ b ∈ list.bundles, b.strategy = s.name → (b.creationToken : ℤ) ≤ time
  chained : s.kind = .incremental → s.chain = true → ∀ b ∈ list.bundles,
    s.base = some b.strategy → (b.creationToken : ℤ) ≤ time

theorem anchorOf_after (h : anchorOf parse cfg list now s = .ok (.after time)) :
    AnchorOf list s time := by
  unfold anchorOf at h
  cases hkind : s.kind with
  | full =>
    simp only [hkind] at h
    cases hlast : (entriesOf list.bundles s.name).getLast? with
    | some n =>
      simp only [hlast, Except.ok.injEq, Anchor.after.injEq] at h
      subst h
      refine ⟨by omega, fun _ b hb hname => ?_, fun hk => (by cases hkind.symm.trans hk)⟩
      exact_mod_cast le_getLast hlast hb hname
    | none =>
      simp only [hlast] at h
      have hempty : ∀ b ∈ list.bundles, b.strategy ≠ s.name := by
        intro b hb hname
        have hmem : b ∈ entriesOf list.bundles s.name := mem_entriesOf.mpr ⟨hb, hname⟩
        simp [List.getLast?_eq_none_iff.mp hlast] at hmem
      have htime : 0 ≤ time := by
        obtain ⟨sched, -, hafter⟩ := bind_eq_ok h
        cases hslot : lastSlotAtOrBefore sched now with
        | none =>
          rw [hslot] at hafter
          cases hafter
        | some slot =>
          have hnonneg := lastSlot_nonneg hslot
          simp only [hslot] at hafter
          split_ifs at hafter with hzero
          simp only [Except.ok.injEq, Anchor.after.injEq] at hafter
          omega
      exact ⟨htime, fun _ b hb hname => absurd hname (hempty b hb),
        fun hk => (by cases hkind.symm.trans hk)⟩
  | incremental =>
    simp only [hkind] at h
    cases hanchor : anchored (strategies cfg) list.bundles (s.base.getD "") with
    | none => simp [hanchor] at h
    | some p =>
      obtain ⟨anchor, n⟩ := p
      simp only [hanchor] at h
      split_ifs at h with hchain <;> simp only [Except.ok.injEq, Anchor.after.injEq] at h <;>
        subst h
      · refine ⟨by omega, fun hk => (by cases hkind.symm.trans hk), fun _ _ b hb hbase => ?_⟩
        have hname : b.strategy = s.base.getD "" := by simp [hbase]
        exact_mod_cast le_getLast (anchored_base hanchor hb hname) hb hname
      · exact ⟨by omega, fun hk => (by cases hkind.symm.trans hk),
          fun _ hc => absurd hc hchain⟩

theorem statusOf_missing {slot : ℕ} {existing : Option BundleEntry} {baseId : Option String}
    (h : statusOf list now ctx s slot existing baseId = .missing) :
    existing = none ∧ (s.kind = .incremental → baseId ≠ none) := by
  unfold statusOf at h
  cases existing with
  | some b => cases h
  | none =>
    refine ⟨rfl, fun hkind hnone => ?_⟩
    simp only [hkind, hnone, if_true] at h
    split_ifs at h <;> split at h <;> cases h

theorem slotRow_missing {wanted slot i : ℕ} (h : slotRow cfg list now ctx s wanted slot i = some r)
    (hmissing : r.status = .missing) : r.strategy = s.name ∧ r.slot = slot ∧
      r.baseId = planBase cfg list s slot ∧ (s.kind = .incremental → r.baseId ≠ none) ∧
      ∀ b ∈ list.bundles, b.strategy = s.name → b.creationToken ≠ slot := by
  simp only [slotRow] at h
  split_ifs at h
  obtain rfl := Option.some.inj h
  obtain ⟨hnone, hbase⟩ := statusOf_missing hmissing
  refine ⟨rfl, rfl, rfl, hbase, fun b hb hname htoken => ?_⟩
  have hnot := List.find?_eq_none.mp hnone b (mem_entriesOf.mpr ⟨hb, hname⟩)
  simp [htoken] at hnot

theorem strategyRows_missing {rows : List SlotPlan}
    (h : strategyRows parse cfg list now ctx s = .ok rows) (hr : r ∈ rows)
    (hmissing : r.status = .missing) : RowOf cfg list now s r := by
  unfold strategyRows at h
  obtain ⟨anchor, hanchor, hrows⟩ := bind_eq_ok h
  cases anchor with
  | nothing =>
    cases hrows
    cases hr
  | blocked =>
    cases hrows
    obtain rfl := List.mem_singleton.mp hr
    cases hmissing
  | after time =>
    obtain ⟨sched, -, hslots⟩ := bind_eq_ok hrows
    cases hslots
    obtain ⟨p, hp, hrow⟩ := List.mem_filterMap.mp hr
    obtain ⟨hstrategy, hslot, hbase, hbased, hunbuilt⟩ := slotRow_missing hrow hmissing
    obtain ⟨z, hz, hzslot⟩ := List.mem_map.mp (List.fst_mem_of_mem_zipIdx hp)
    obtain ⟨f, hf, hnow, -, rfl⟩ := mem_slotSet.mp (slotsFrom_subset hz)
    have hspec := anchorOf_after hanchor
    have hnonneg := hspec.nonneg
    rw [← hslot] at hzslot hbase hunbuilt
    have htime : time < (r.slot : ℤ) ∧ (r.slot : ℤ) ≤ now := by omega
    refine ⟨hstrategy, by omega, htime.2, hunbuilt, hbase, hbased, fun hk b hb hname => ?_,
      fun hk hc b hb hname => ?_⟩
    · have hle := hspec.full hk b hb hname
      omega
    · have hle := hspec.chained hk hc b hb hname
      omega

theorem missing_row (h : Missing parse cfg list now ctx r) : ∃ s ∈ cfg, RowOf cfg list now s r := by
  obtain ⟨rows, hplan, hr, hmissing⟩ := h
  unfold planWith at hplan
  obtain ⟨ls, hrows, hsorted⟩ := bind_eq_ok hplan
  cases hsorted
  obtain ⟨l, hl, hrl⟩ := List.mem_flatten.mp ((List.mem_insertionSort _).mp hr)
  obtain ⟨s, hs, hok⟩ := mem_of_mapM hrows hl
  exact ⟨s, hs, strategyRows_missing hok hrl hmissing⟩

end Rows

end Walgit.Bundles
