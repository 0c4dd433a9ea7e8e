import Mathlib

/-!
# The fire times of a schedule

A cron schedule is known by its iterator, which gives the next fire after an
instant. Times are whole seconds from the epoch, since every fire is one: it is
at or before an instant when it is at or before the second of that instant.
`slots_between` walks the fires of a window and stops after twenty thousand;
`due_slot` walks them from the last recorded slot and stops after 4096.
-/

namespace Walgit.Bundles

/-- A parsed schedule: its fires, and the iterator, which gives them in increasing order. -/
structure Schedule where
  fires : ℤ → Bool
  next : ℤ → Option ℤ
  next_some : ∀ {a f}, next a = some f → fires f = true ∧ a < f ∧
    ∀ g, a < g → fires g = true → f ≤ g
  next_none : ∀ {a}, next a = none → ∀ g, a < g → fires g = false

/-- `g` is the newest fire at or before `t`. -/
def Schedule.Newest (sched : Schedule) (t g : ℤ) : Prop :=
  sched.fires g = true ∧ g ≤ t ∧ ∀ f, sched.fires f = true → f ≤ t → f ≤ g

section Slots

variable (sched : Schedule)

/-- `next_fire_after`; a fire before the epoch is moved to the epoch. -/
def nextFireAfter (after : ℤ) : Option ℤ := (sched.next after).map fun f => max 0 f

/-- The loop of `slots_between`, for `n` turns. -/
def slotsFrom (upto : ℤ) : ℕ → ℤ → List ℤ
  | 0, _ => []
  | n + 1, cursor =>
    match nextFireAfter sched cursor with
    | none => []
    | some next => if upto < next then [] else next :: slotsFrom upto n next

def slotCap : ℕ := 20000

def slotsBetween (after upto : ℤ) : List ℤ := slotsFrom sched upto slotCap after

def day : ℤ := 86400

/-- The windows that are searched, in days. -/
def searchDays : List ℤ := [1, 8, 40, 400]

def lastSlotAtOrBefore (t : ℤ) : Option ℤ :=
  searchDays.findSome? fun days => (slotsBetween sched (t - days * day) t).getLast?

end Slots

section Windows

variable {sched : Schedule} {a b c t f g upto after : ℤ} {n : ℕ}

/-- The seconds after one instant and up to another. -/
def window (after upto : ℤ) : Finset ℤ :=
  (Finset.range (upto - after).toNat).image fun i : ℕ => after + 1 + i

theorem mem_window : b ∈ window after upto ↔ after < b ∧ b ≤ upto := by
  rw [window, Finset.mem_image]
  constructor
  · rintro ⟨i, hi, rfl⟩
    have hlt := Finset.mem_range.mp hi
    omega
  · rintro ⟨hlt, hle⟩
    exact ⟨(b - after - 1).toNat, Finset.mem_range.mpr (by omega), by omega⟩

/-- The slots of a window: its fires, those before the epoch moved to the epoch. -/
def slotSet (sched : Schedule) (after upto : ℤ) : Finset ℤ :=
  ((window after upto).filter fun f => sched.fires f = true).image fun f => max 0 f

theorem mem_slotSet : b ∈ slotSet sched after upto ↔
    ∃ f, after < f ∧ f ≤ upto ∧ sched.fires f = true ∧ max 0 f = b := by
  simp [slotSet, mem_window, and_assoc]

theorem slotsFrom_none (h : nextFireAfter sched a = none) : slotsFrom sched upto n a = [] := by
  cases n with
  | zero => rfl
  | succ n => simp [slotsFrom, h]

theorem nextFireAfter_some (h : nextFireAfter sched a = some b) : ∃ f, b = max 0 f ∧ a < f ∧
    sched.fires f = true ∧ ∀ g, a < g → sched.fires g = true → f ≤ g := by
  obtain ⟨f, hf, rfl⟩ := Option.map_eq_some_iff.mp h
  obtain ⟨hfires, hlt, hleast⟩ := sched.next_some hf
  exact ⟨f, rfl, hlt, hfires, hleast⟩

theorem nextFireAfter_none (h : nextFireAfter sched a = none) (hg : a < g) :
    sched.fires g = false :=
  sched.next_none (Option.map_eq_none_iff.mp h) g hg

theorem slotSet_next (h : nextFireAfter sched a = some b) (hb : b ≤ upto) :
    slotSet sched a upto = insert b (slotSet sched b upto) ∧ b ∉ slotSet sched b upto := by
  obtain ⟨f, rfl, hlt, hfires, hleast⟩ := nextFireAfter_some h
  constructor
  · ext x
    rw [Finset.mem_insert, mem_slotSet, mem_slotSet]
    constructor
    · rintro ⟨g, hg, hgu, hgf, rfl⟩
      have hle := hleast g hg hgf
      by_cases heq : max 0 g = max 0 f
      · exact .inl heq
      · exact .inr ⟨g, by omega, hgu, hgf, rfl⟩
    · rintro (rfl | ⟨g, hg, hgu, hgf, rfl⟩)
      · exact ⟨f, hlt, by omega, hfires, rfl⟩
      · exact ⟨g, by omega, hgu, hgf, rfl⟩
  · rw [mem_slotSet]
    rintro ⟨g, hg, -, -, heq⟩
    omega

theorem slotSet_none (h : nextFireAfter sched a = none) : slotSet sched a upto = ∅ := by
  refine Finset.eq_empty_of_forall_notMem fun x hx => ?_
  obtain ⟨g, hg, -, hfires, -⟩ := mem_slotSet.mp hx
  simp [nextFireAfter_none h hg] at hfires

theorem slotSet_past (hupto : 0 ≤ upto) (h : nextFireAfter sched a = some b) (hb : upto < b) :
    slotSet sched a upto = ∅ := by
  obtain ⟨f, rfl, -, -, hleast⟩ := nextFireAfter_some h
  refine Finset.eq_empty_of_forall_notMem fun x hx => ?_
  obtain ⟨g, hg, hgu, hfires, -⟩ := mem_slotSet.mp hx
  have hle := hleast g hg hfires
  omega

theorem slotsFrom_past (h : nextFireAfter sched a = some b) (hb : upto < b) :
    slotsFrom sched upto n a = [] := by
  cases n with
  | zero => rfl
  | succ n => simp [slotsFrom, h, hb]

theorem slotsFrom_next (h : nextFireAfter sched a = some b) (hb : b ≤ upto) :
    slotsFrom sched upto (n + 1) a = b :: slotsFrom sched upto n b := by
  simp [slotsFrom, h, not_lt.mpr hb]

theorem slotsFrom_empty (h : slotSet sched a upto = ∅) :
    slotsFrom sched upto n a = [] := by
  cases hnext : nextFireAfter sched a with
  | none => exact slotsFrom_none hnext
  | some b =>
    rcases lt_or_ge upto b with hb | hb
    · exact slotsFrom_past hnext hb
    · simp [(slotSet_next hnext hb).1] at h

theorem lt_of_mem_slotSet (h : b ∈ slotSet sched a upto) : a < b := by
  obtain ⟨f, hf, -, -, rfl⟩ := mem_slotSet.mp h
  omega

theorem slotsFrom_getLast (hupto : 0 ≤ upto) (hg : g ∈ slotSet sched a upto)
    (hmax : ∀ b ∈ slotSet sched a upto, b ≤ g) :
    (slotsFrom sched upto n a).getLast? = some g ↔ (slotSet sched a upto).card ≤ n := by
  induction n generalizing a with
  | zero =>
    have hpos := Finset.card_pos.mpr ⟨g, hg⟩
    simp only [slotsFrom, List.getLast?_nil]
    exact iff_of_false nofun (by omega)
  | succ n ih =>
    cases hnext : nextFireAfter sched a with
    | none => simp [slotSet_none hnext] at hg
    | some b =>
      rcases lt_or_ge upto b with hb | hb
      · simp [slotSet_past hupto hnext hb] at hg
      obtain ⟨hset, hnot⟩ := slotSet_next hnext hb
      rw [slotsFrom_next hnext hb, hset, Finset.card_insert_of_notMem hnot,
        Nat.add_le_add_iff_right]
      rw [hset, Finset.mem_insert] at hg
      rw [hset, Finset.forall_mem_insert] at hmax
      rw [List.getLast?_cons, Option.some.injEq]
      rcases Finset.eq_empty_or_nonempty (slotSet sched b upto) with hempty | ⟨x, hx⟩
      · obtain rfl : g = b := hg.resolve_right (by simp [hempty])
        simp [slotsFrom_empty hempty, hempty]
      · have hbg : b < g := (lt_of_mem_slotSet hx).trans_le (hmax.2 x hx)
        rw [← ih (hg.resolve_left hbg.ne') hmax.2]
        cases hlast : (slotsFrom sched upto n b).getLast? with
        | none => simp [hbg.ne]
        | some y => simp

theorem slotsFrom_subset (h : b ∈ slotsFrom sched upto n a) : b ∈ slotSet sched a upto := by
  induction n generalizing a with
  | zero => cases h
  | succ n ih =>
    cases hnext : nextFireAfter sched a with
    | none => simp [slotsFrom_none hnext] at h
    | some c =>
      rcases lt_or_ge upto c with hc | hc
      · simp [slotsFrom_past hnext hc] at h
      rw [slotsFrom_next hnext hc, List.mem_cons] at h
      rw [(slotSet_next hnext hc).1, Finset.mem_insert]
      exact h.imp_right ih

theorem slotsFrom_ne_nil (hupto : 0 ≤ upto) (h : (slotSet sched a upto).Nonempty) :
    slotsFrom sched upto (n + 1) a ≠ [] := by
  cases hnext : nextFireAfter sched a with
  | none => simp [slotSet_none hnext] at h
  | some b =>
    rcases lt_or_ge upto b with hb | hb
    · simp [slotSet_past hupto hnext hb] at h
    · simp [slotsFrom_next hnext hb]

end Windows

section LastSlot

variable {sched : Schedule} {t g : ℤ}

/-- The first window that reaches back beyond `g`, in days. -/
def searchWindow (t g : ℤ) : Option ℤ := searchDays.find? fun days => t - days * day < g

/-- What is asked of the search: the newest fire, where a window reaches it. -/
def LastSlotExact (sched : Schedule) (t : ℤ) : Prop :=
  ∀ g, sched.Newest t g → t - 400 * day < g → lastSlotAtOrBefore sched t = some g

/-- The newest fire is not before the epoch, and the first window that has it has no more slots
than the walk has turns. -/
def WalkReaches (sched : Schedule) (t g : ℤ) : Prop :=
  0 ≤ g ∧ ∀ days, searchWindow t g = some days →
    (slotSet sched (t - days * day) t).card ≤ slotCap

theorem findSome_skip {α β : Type} {p : α → Bool} {f : α → Option β} {l : List α} {a : α}
    (h : l.find? p = some a) (hskip : ∀ b ∈ l, p b = false → f b = none)
    (ha : (f a).isSome = true) : l.findSome? f = f a := by
  induction l with
  | nil => cases h
  | cons b l ih =>
    rw [List.find?_cons] at h
    rw [List.forall_mem_cons] at hskip
    cases hb : p b with
    | true =>
      rw [hb] at h
      obtain rfl := Option.some.inj h
      obtain ⟨c, hc⟩ := Option.isSome_iff_exists.mp ha
      rw [List.findSome?_cons, hc]
    | false =>
      rw [hb] at h
      rw [List.findSome?_cons, hskip.1 hb]
      exact ih h hskip.2

theorem lastSlot_eq (ht : 0 ≤ t) (hg : sched.Newest t g) {days : ℤ}
    (h : searchWindow t g = some days) :
    lastSlotAtOrBefore sched t = (slotsBetween sched (t - days * day) t).getLast? := by
  refine findSome_skip h (fun d hd hreach => ?_) ?_
  · have hempty : slotSet sched (t - d * day) t = ∅ := by
      refine Finset.eq_empty_of_forall_notMem fun x hx => ?_
      obtain ⟨f, hf, hft, hfires, -⟩ := mem_slotSet.mp hx
      have hle := hg.2.2 f hfires hft
      simp only [decide_eq_false_iff_not, not_lt] at hreach
      omega
    rw [slotsBetween, slotsFrom_empty hempty]
    rfl
  · have hreach : t - days * day < g := by simpa using List.find?_some h
    have hmem : max 0 g ∈ slotSet sched (t - days * day) t :=
      mem_slotSet.mpr ⟨g, hreach, hg.2.1, hg.1, rfl⟩
    exact List.getLast?_isSome.mpr (slotsFrom_ne_nil ht ⟨_, hmem⟩)

theorem exists_window (h : t - 400 * day < g) : ∃ days, searchWindow t g = some days := by
  refine Option.isSome_iff_exists.mp (List.find?_isSome.mpr ⟨400, by simp [searchDays], ?_⟩)
  simpa using h

theorem lastSlot_iff (hg : sched.Newest t g) (hreach : t - 400 * day < g) :
    lastSlotAtOrBefore sched t = some g ↔ WalkReaches sched t g := by
  obtain ⟨days, hdays⟩ := exists_window hreach
  have hwindow : t - days * day < g := by simpa using List.find?_some hdays
  by_cases hg0 : 0 ≤ g
  · have ht : 0 ≤ t := hg0.trans hg.2.1
    have hmem : g ∈ slotSet sched (t - days * day) t :=
      mem_slotSet.mpr ⟨g, hwindow, hg.2.1, hg.1, max_eq_right hg0⟩
    have hmax : ∀ b ∈ slotSet sched (t - days * day) t, b ≤ g := by
      intro b hb
      obtain ⟨f, -, hft, hfires, rfl⟩ := mem_slotSet.mp hb
      exact max_le hg0 (hg.2.2 f hfires hft)
    rw [lastSlot_eq ht hg hdays, slotsBetween, slotsFrom_getLast ht hmem hmax, WalkReaches, hdays]
    simp [hg0]
  · refine iff_of_false (fun h => hg0 ?_) fun h => hg0 h.1
    obtain ⟨d, -, hd⟩ := List.exists_of_findSome?_eq_some h
    obtain ⟨f, -, -, -, rfl⟩ := mem_slotSet.mp (slotsFrom_subset (List.mem_of_getLast? hd))
    exact le_max_left 0 f

/-- The search is exact exactly when the walk reaches the newest fire. -/
theorem lastSlot_exact_iff (sched : Schedule) (t : ℤ) : LastSlotExact sched t ↔
    ∀ g, sched.Newest t g → t - 400 * day < g → WalkReaches sched t g :=
  forall_congr' fun _ => forall_congr' fun hg => forall_congr' fun hreach =>
    lastSlot_iff hg hreach

/-- The schedule `* * * * * *`. -/
def everySecond : Schedule where
  fires _ := true
  next a := some (a + 1)
  next_some h := by
    obtain rfl := Option.some.inj h
    exact ⟨rfl, by omega, fun g hg _ => by omega⟩
  next_none h := nomatch h

theorem everySecond_getLast {a t : ℤ} {n : ℕ} (ha : 0 ≤ a) (h : a + (n + 1) ≤ t) :
    (slotsFrom everySecond t (n + 1) a).getLast? = some (a + (n + 1)) := by
  induction n generalizing a with
  | zero =>
    have hnext : nextFireAfter everySecond a = some (a + 1) := by
      simp [nextFireAfter, everySecond, max_eq_right (by omega : (0 : ℤ) ≤ a + 1)]
    rw [slotsFrom_next hnext (by omega)]
    simp [slotsFrom]
  | succ n ih =>
    have hnext : nextFireAfter everySecond a = some (a + 1) := by
      simp [nextFireAfter, everySecond, max_eq_right (by omega : (0 : ℤ) ≤ a + 1)]
    rw [slotsFrom_next hnext (by omega), List.getLast?_cons, ih (by omega) (by omega)]
    rw [Option.getD_some]
    congr 1
    omega

/-- Of the fires of the last day, the walk ends at the twenty thousandth. -/
theorem everySecond_stale : lastSlotAtOrBefore everySecond 1700000000 = some 1699933600 ∧
    everySecond.Newest 1700000000 1700000000 ∧ ¬ LastSlotExact everySecond 1700000000 := by
  have hnewest : everySecond.Newest 1700000000 1700000000 :=
    ⟨rfl, by omega, fun _ _ h => h⟩
  have hlast : lastSlotAtOrBefore everySecond 1700000000 = some 1699933600 := by
    have hwalk := everySecond_getLast (a := 1700000000 - 1 * day) (t := 1700000000) (n := 19999)
      (by decide) (by decide)
    rw [lastSlotAtOrBefore, searchDays, List.findSome?_cons]
    simp only [slotsBetween, slotCap, hwalk]
    rfl
  refine ⟨hlast, hnewest, fun h => ?_⟩
  have hexact := h _ hnewest (by decide)
  rw [hlast] at hexact
  exact absurd (Option.some.inj hexact) (by decide)

end LastSlot

end Walgit.Bundles
