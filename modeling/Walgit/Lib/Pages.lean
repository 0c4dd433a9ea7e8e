import Walgit.Lib.SortedTable

/-!
# Pages of a sorted table

A listing is read in pages: each asks for what comes after the last key of the
page before. The table may change from page to page. The keys that are read
increase, and a key that every page could list is read when the listing ends.
-/

namespace Walgit.Pages

open SortedTable

variable {α K : Type} [LinearOrder K] {key : α → K} {k a : K} {n : ℕ} {x : α} {xs : List α}
  {xss : List (List α)}

structure Page (α : Type) where
  rows : List α
  more : Bool
  deriving DecidableEq, Repr

/-- At most `n` rows, and whether there are others. -/
def firstRows (n : ℕ) (xs : List α) : Page α := ⟨xs.take n, n < xs.length⟩

variable (key) in
def pageAfter (n : ℕ) (a : K) (xs : List α) : Page α := firstRows n (xs.filter fun x => a < key x)

variable (key) in
def lastKey (a : K) (rows : List α) : K := (rows.getLast?.map key).getD a

variable (key) in
/-- Page after page, each from the table as it is then. -/
def crawl (n : ℕ) : K → List (List α) → List (Page α)
  | _, [] => []
  | a, xs :: xss =>
    pageAfter key n a xs ::
      if (pageAfter key n a xs).more then crawl n (lastKey key a (pageAfter key n a xs).rows) xss
      else []

variable (key) in
def listed (n : ℕ) (a : K) (xss : List (List α)) : List α := (crawl key n a xss).flatMap Page.rows

/-- A crawl ends with a page that has no other after it. -/
def Ended (pages : List (Page α)) : Prop := (pages.getLast?.map Page.more) = some false

@[simp] theorem crawl_nil : crawl key n a [] = [] := rfl

theorem crawl_cons : crawl key n a (xs :: xss) = pageAfter key n a xs ::
    if (pageAfter key n a xs).more then crawl key n (lastKey key a (pageAfter key n a xs).rows) xss
    else [] := rfl

theorem mem_pageAfter (h : x ∈ (pageAfter key n a xs).rows) : x ∈ xs ∧ a < key x := by
  simpa using List.mem_of_mem_take h

theorem sorted_pageAfter (h : Sorted key xs) : Sorted key (pageAfter key n a xs).rows :=
  (List.Pairwise.filter _ h).sublist (List.take_sublist _ _)

omit [LinearOrder K] in
theorem lastKey_append_singleton {rows : List α} : lastKey key a (rows ++ [x]) = key x := by
  simp [lastKey]

theorem le_lastKey {rows : List α} (hs : Sorted key rows) (h : ∀ y ∈ rows, a < key y) :
    a ≤ lastKey key a rows ∧ ∀ y ∈ rows, key y ≤ lastKey key a rows := by
  induction rows using List.reverseRecOn with
  | nil => simp [lastKey]
  | append_singleton rows z =>
    rw [lastKey_append_singleton]
    refine ⟨(h z (by simp)).le, fun y hy => ?_⟩
    rcases List.mem_append.mp hy with hy | hy
    · exact ((List.pairwise_append.mp hs).2.2 y hy z (by simp)).le
    · simp only [List.mem_singleton] at hy
      rw [hy]

theorem lastKey_pageAfter (hs : Sorted key xs) :
    a ≤ lastKey key a (pageAfter key n a xs).rows ∧
      ∀ y ∈ (pageAfter key n a xs).rows, key y ≤ lastKey key a (pageAfter key n a xs).rows :=
  le_lastKey (sorted_pageAfter hs) fun _ hy => (mem_pageAfter hy).2

theorem filter_take (hn : 0 < n) (hs : Sorted key xs) (hlen : n < xs.length)
    (hle : ∀ y ∈ xs.take n, key y ≤ lastKey key a (xs.take n)) :
    (xs.filter fun x => lastKey key a (xs.take n) < key x) = xs.drop n := by
  have hlast : ∀ x ∈ xs.drop n, lastKey key a (xs.take n) < key x := by
    have hne : xs.take n ≠ [] := by
      rw [ne_eq, List.take_eq_nil_iff]
      rintro (rfl | rfl)
      · exact lt_irrefl 0 hn
      · simp at hlen
    rw [Sorted, ← List.take_append_drop n xs, List.pairwise_append] at hs
    simp only [lastKey, List.getLast?_eq_some_getLast hne, Option.map_some, Option.getD_some]
    exact hs.2.2 _ (List.getLast_mem hne)
  have hfront : (xs.take n).filter (fun x => lastKey key a (xs.take n) < key x) = [] := by
    rw [List.filter_eq_nil_iff]
    intro x hx
    simpa using hle x hx
  have hback : (xs.drop n).filter (fun x => lastKey key a (xs.take n) < key x) = xs.drop n := by
    rw [List.filter_eq_self]
    intro x hx
    simpa using hlast x hx
  calc (xs.filter fun x => lastKey key a (xs.take n) < key x)
      = (xs.take n ++ xs.drop n).filter fun x => lastKey key a (xs.take n) < key x := by
        rw [List.take_append_drop]
    _ = xs.drop n := by rw [List.filter_append, hfront, hback, List.nil_append]

theorem filter_lastKey (hn : 0 < n) (hs : Sorted key xs) (hmore : (pageAfter key n a xs).more) :
    (xs.filter fun x => lastKey key a (pageAfter key n a xs).rows < key x) =
      (xs.filter fun x => a < key x).drop n := by
  have hle := lastKey_pageAfter (n := n) (a := a) hs
  have hsub : (xs.filter fun x => lastKey key a (pageAfter key n a xs).rows < key x) =
      (xs.filter fun x => a < key x).filter
        fun x => lastKey key a (pageAfter key n a xs).rows < key x := by
    rw [List.filter_filter]
    apply List.filter_congr
    intro x hx
    rw [Bool.eq_iff_iff]
    simpa using fun h => hle.1.trans_lt h
  rw [hsub]
  exact filter_take hn (List.Pairwise.filter _ hs) (by simpa [pageAfter, firstRows] using hmore)
    hle.2

theorem after_lastKey (hn : 0 < n) (hs : Sorted key xs) (hx : x ∈ xs) (ha : a < key x) :
    x ∈ (pageAfter key n a xs).rows ∨
      (pageAfter key n a xs).more ∧ lastKey key a (pageAfter key n a xs).rows < key x := by
  have hmem : x ∈ xs.filter fun y => a < key y := by simpa using ⟨hx, ha⟩
  have hdrop := hmem
  rw [← List.take_append_drop n (xs.filter fun y => a < key y), List.mem_append] at hdrop
  rcases hdrop with htake | hdrop
  · exact .inl htake
  · have hmore : (pageAfter key n a xs).more := by
      have hlen := List.length_pos_of_mem hdrop
      rw [List.length_drop] at hlen
      simp only [pageAfter, firstRows, decide_eq_true_eq]
      omega
    rw [← filter_lastKey hn hs hmore] at hdrop
    exact .inr ⟨hmore, by simpa using (List.mem_filter.mp hdrop).2⟩

theorem lt_of_mem_listed (hs : ∀ xs ∈ xss, Sorted key xs) (h : x ∈ listed key n a xss) :
    a < key x := by
  induction xss generalizing a with
  | nil => simp [listed] at h
  | cons xs xss ih =>
    obtain ⟨hxs, htail⟩ := List.forall_mem_cons.mp hs
    rw [listed, crawl_cons, List.flatMap_cons, List.mem_append] at h
    rcases h with h | h
    · exact (mem_pageAfter h).2
    · split_ifs at h with hmore
      · exact (lastKey_pageAfter hxs).1.trans_lt (ih htail h)
      · simp at h

theorem sorted_listed (hs : ∀ xs ∈ xss, Sorted key xs) : Sorted key (listed key n a xss) := by
  induction xss generalizing a with
  | nil => exact .nil
  | cons xs xss ih =>
    obtain ⟨hxs, htail⟩ := List.forall_mem_cons.mp hs
    rw [listed, crawl_cons, List.flatMap_cons]
    split_ifs with hmore
    · refine List.pairwise_append.mpr ⟨sorted_pageAfter hxs, ih htail, fun y hy z hz => ?_⟩
      exact ((lastKey_pageAfter hxs).2 y hy).trans_lt (lt_of_mem_listed htail hz)
    · simpa using sorted_pageAfter hxs

theorem mem_of_mem_listed (h : x ∈ listed key n a xss) : ∃ xs ∈ xss, x ∈ xs := by
  induction xss generalizing a with
  | nil => simp [listed] at h
  | cons xs xss ih =>
    rw [listed, crawl_cons, List.flatMap_cons, List.mem_append] at h
    rcases h with h | h
    · exact ⟨xs, by simp, (mem_pageAfter h).1⟩
    · split_ifs at h with hmore
      · obtain ⟨ys, hys, hx⟩ := ih h
        exact ⟨ys, by simp [hys], hx⟩
      · simp at h

theorem listed_of_mem (hn : 0 < n) (hs : ∀ xs ∈ xss, Sorted key xs)
    (hended : Ended (crawl key n a xss)) (ha : a < k) (h : ∀ xs ∈ xss, ∃ x ∈ xs, key x = k) :
    ∃ x ∈ listed key n a xss, key x = k := by
  induction xss generalizing a with
  | nil => simp [Ended] at hended
  | cons xs xss ih =>
    obtain ⟨hxs, htail⟩ := List.forall_mem_cons.mp hs
    obtain ⟨⟨x, hx, rfl⟩, hlater⟩ := List.forall_mem_cons.mp h
    rw [listed, crawl_cons, List.flatMap_cons]
    rcases after_lastKey hn hxs hx ha with hrow | ⟨hmore, hlast⟩
    · exact ⟨x, List.mem_append_left _ hrow, rfl⟩
    · have hrest : Ended (crawl key n (lastKey key a (pageAfter key n a xs).rows) xss) := by
        rw [Ended, crawl_cons, if_pos hmore, List.getLast?_cons] at hended
        cases hl : (crawl key n (lastKey key a (pageAfter key n a xs).rows) xss).getLast? with
        | none => simp [hl, hmore] at hended
        | some p => simpa [Ended, hl] using hended
      obtain ⟨y, hy, hyk⟩ := ih htail hrest hlast hlater
      rw [if_pos hmore]
      exact ⟨y, List.mem_append_right _ hy, hyk⟩

theorem length_rows (h : (pageAfter key n a xs).more) : (pageAfter key n a xs).rows.length = n := by
  simp only [pageAfter, firstRows, decide_eq_true_eq] at h ⊢
  simp [h.le]

theorem length_le {p : Page α} (h : p ∈ crawl key n a xss) : p.rows.length ≤ n := by
  induction xss generalizing a with
  | nil => simp at h
  | cons xs xss ih =>
    rw [crawl_cons, List.mem_cons] at h
    rcases h with rfl | h
    · simp [pageAfter, firstRows]
    · split_ifs at h with hm
      · exact ih h
      · simp at h

/-- Every page but the last is full. -/
theorem length_of_more {p : Page α} (h : p ∈ crawl key n a xss) (hmore : p.more) :
    p.rows.length = n := by
  induction xss generalizing a with
  | nil => simp at h
  | cons xs xss ih =>
    rw [crawl_cons, List.mem_cons] at h
    rcases h with rfl | h
    · exact length_rows hmore
    · split_ifs at h with hm
      · exact ih h
      · simp at h

theorem listed_replicate {pages : ℕ} (hn : 0 < n) (hs : Sorted key xs)
    (h : (xs.filter fun x => a < key x).length ≤ pages * n) :
    listed key n a (List.replicate pages xs) = xs.filter fun x => a < key x := by
  induction pages generalizing a with
  | zero =>
    rw [Nat.zero_mul, Nat.le_zero, List.length_eq_zero_iff] at h
    rw [h]
    rfl
  | succ pages ih =>
    rw [List.replicate_succ, listed, crawl_cons, List.flatMap_cons]
    split_ifs with hmore
    · have hrest : (xs.filter fun x => lastKey key a (pageAfter key n a xs).rows < key x).length ≤
          pages * n := by
        rw [filter_lastKey hn hs hmore, List.length_drop]
        rw [Nat.succ_mul] at h
        omega
      rw [← listed, ih hrest, filter_lastKey hn hs hmore]
      exact List.take_append_drop n _
    · simp only [pageAfter, firstRows, decide_eq_true_eq, Nat.not_lt] at hmore
      simp [pageAfter, firstRows, List.take_of_length_le hmore]

end Walgit.Pages
