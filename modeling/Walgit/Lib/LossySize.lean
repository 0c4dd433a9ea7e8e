import Mathlib.Algebra.BigOperators.Group.List.Basic
import Walgit.Lib.Utf8

/-!
# The size of a lossy reading

A sequence that begins no character is one to three bytes, and its replacement
is three. What a reading weighs is bounded by the bytes that were read, and its
size is theirs but for what the replacements add. A text that is cut anywhere
and moved on to the next boundary stays a text.
-/

namespace Walgit.Utf8

/-- The lengths of the sequences that `lossy` replaces. -/
def invalidRuns (l : List UInt8) : List ℕ :=
  if h : l = [] then []
  else
    have hpos := List.length_pos_iff.mpr h
    match l.toByteArray.utf8DecodeChar? 0 with
    | some c =>
      have : l.length - c.utf8Size < l.length := Nat.sub_lt hpos c.utf8Size_pos
      invalidRuns (l.drop c.utf8Size)
    | none =>
      have : l.length - invalidLen l < l.length := Nat.sub_lt hpos invalidLen_pos
      invalidLen l :: invalidRuns (l.drop (invalidLen l))
termination_by l.length

/-- What the replacements have more than the sequences they replace. -/
def growth (l : List UInt8) : ℕ := ((invalidRuns l).map (3 - ·)).sum

variable {c : Char} {cs : List Char} {l : List UInt8} {weight : Char → ℕ} {k n : ℕ}

section Equations

theorem invalidLen_le (h : l ≠ []) : invalidLen l ≤ 3 ∧ invalidLen l ≤ l.length := by
  unfold invalidLen
  split
  · next b c rest =>
    split_ifs with h1 h2 h3 h4 h5
    · simp
    · simp
    · cases rest with
      | nil => simp at h5
      | cons d rest => simp
    all_goals simp
  · exact ⟨by decide, List.length_pos_iff.mpr h⟩

theorem decode_encodeChar :
    (String.utf8EncodeChar c ++ l).toByteArray.utf8DecodeChar? 0 = some c := by
  rw [List.toByteArray_append]
  exact ByteArray.utf8DecodeChar?_utf8EncodeChar_append

theorem exists_of_decode (h : l.toByteArray.utf8DecodeChar? 0 = some c) :
    ∃ rest, l = String.utf8EncodeChar c ++ rest := by
  obtain ⟨b, hb⟩ := ByteArray.exists_of_utf8DecodeChar?_eq_some h
  refine ⟨b.data.toList, ?_⟩
  have hlist := congrArg (fun b : ByteArray => b.data.toList) hb
  simpa using hlist

theorem invalidRuns_char_append :
    invalidRuns (String.utf8EncodeChar c ++ l) = invalidRuns l := by
  have hne : String.utf8EncodeChar c ++ l ≠ [] :=
    List.append_ne_nil_of_left_ne_nil String.utf8EncodeChar_ne_nil l
  rw [invalidRuns, dif_neg hne]
  simp only [decode_encodeChar]
  rw [List.drop_left' (String.length_utf8EncodeChar c)]

theorem lossy_invalid (h : l ≠ []) (hbad : l.toByteArray.utf8DecodeChar? 0 = none) :
    lossy l = '\uFFFD' :: lossy (l.drop (invalidLen l)) := by
  rw [lossy, dif_neg h]
  simp only [hbad]

theorem invalidRuns_invalid (h : l ≠ []) (hbad : l.toByteArray.utf8DecodeChar? 0 = none) :
    invalidRuns l = invalidLen l :: invalidRuns (l.drop (invalidLen l)) := by
  rw [invalidRuns, dif_neg h]
  simp only [hbad]

theorem lossy_induction {P : List UInt8 → Prop} (nil : P [])
    (char : ∀ c l, P l → P (String.utf8EncodeChar c ++ l))
    (invalid : ∀ l, l ≠ [] → l.toByteArray.utf8DecodeChar? 0 = none →
      P (l.drop (invalidLen l)) → P l) (l : List UInt8) : P l := by
  induction l using lossy.induct with
  | case1 => exact nil
  | case2 l _ _ c hdecode _ ih =>
    obtain ⟨rest, rfl⟩ := exists_of_decode hdecode
    rw [List.drop_left' (String.length_utf8EncodeChar c)] at ih
    exact char c rest ih
  | case3 l hne _ hdecode _ ih => exact invalid l hne hdecode ih

end Equations

section Sizes

theorem length_encode_cons : (encode (c :: cs)).length = c.utf8Size + (encode cs).length := by
  rw [encode, List.flatMap_cons, List.length_append, String.length_utf8EncodeChar, encode]

theorem length_encode_lossy (l : List UInt8) :
    (encode (lossy l)).length = l.length + growth l := by
  induction l using lossy_induction with
  | nil =>
    rw [lossy_nil, growth, invalidRuns, dif_pos rfl]
    rfl
  | char c l ih =>
    rw [lossy_char_append, length_encode_cons, ih, growth, growth, invalidRuns_char_append,
      List.length_append, String.length_utf8EncodeChar]
    omega
  | invalid l hne hbad ih =>
    have hle := invalidLen_le hne
    have hsize : '\uFFFD'.utf8Size = 3 := by decide
    rw [lossy_invalid hne hbad, length_encode_cons, hsize, ih, growth, growth,
      invalidRuns_invalid hne hbad, List.map_cons, List.sum_cons, List.length_drop]
    omega

theorem sum_lossy_le (hchar : ∀ c, weight c ≤ k * c.utf8Size) (hbad : weight '\uFFFD' ≤ k)
    (l : List UInt8) : ((lossy l).map weight).sum ≤ k * l.length := by
  induction l using lossy_induction with
  | nil => rw [lossy_nil]; exact Nat.zero_le _
  | char c l ih =>
    rw [lossy_char_append, List.map_cons, List.sum_cons, List.length_append,
      String.length_utf8EncodeChar, Nat.mul_add]
    exact Nat.add_le_add (hchar c) ih
  | invalid l hne _ ih =>
    have hpos := @invalidLen_pos l
    have hle := invalidLen_le hne
    rw [lossy_invalid hne ‹_›, List.map_cons, List.sum_cons]
    have hrest : l.length = invalidLen l + (l.drop (invalidLen l)).length := by
      rw [List.length_drop]
      omega
    have hfirst : weight '\uFFFD' ≤ k * invalidLen l :=
      Nat.le_trans hbad (Nat.le_mul_of_pos_right k hpos)
    rw [hrest, Nat.mul_add]
    exact Nat.add_le_add hfirst ih

end Sizes

section Tails

theorem isTail_iff {b : UInt8} : isTail b = true ↔ 128 ≤ b.toNat ∧ b.toNat ≤ 191 := by
  simp only [isTail, Bool.and_eq_true, decide_eq_true_eq, UInt8.le_iff_toNat_le]
  rfl

theorem isTail_ofNat {m : ℕ} : isTail (.ofNat (m % 64 + 128)) = true := by
  have hlt := Nat.mod_lt m (show 0 < 64 by decide)
  rw [isTail_iff, UInt8.toNat_ofNat_of_lt' (by rw [UInt8.size]; omega)]
  omega

theorem isTail_ofNat_lead {m : ℕ} (h : m < 128 ∨ 192 ≤ m) (hlt : m < 248) :
    isTail (.ofNat m) = false ∧ (UInt8.ofNat m).toNat < 248 := by
  have hval : (UInt8.ofNat m).toNat = m := UInt8.toNat_ofNat_of_lt' (by rw [UInt8.size]; omega)
  rw [← Bool.not_eq_true, isTail_iff, hval]
  omega

theorem encodeChar_shape (c : Char) : ∃ b bs, String.utf8EncodeChar c = b :: bs ∧
    (isTail b = false ∧ b.toNat < 248) ∧ ∀ x ∈ bs, isTail x = true := by
  simp only [String.utf8EncodeChar]
  split_ifs with h1 h2 h3
  · exact ⟨_, _, rfl, isTail_ofNat_lead (by omega) (by omega), nofun⟩
  all_goals
    refine ⟨_, _, rfl, isTail_ofNat_lead (by omega) (by omega), ?_⟩
    simp only [List.forall_mem_cons, isTail_ofNat, true_and, List.not_mem_nil, false_imp_iff,
      implies_true]

theorem decode_none_of_le {b : UInt8} (h : 248 ≤ b.toNat) :
    (b :: l).toByteArray.utf8DecodeChar? 0 = none := by
  by_contra hsome
  obtain ⟨c, hc⟩ := Option.ne_none_iff_exists'.mp hsome
  obtain ⟨rest, hrest⟩ := exists_of_decode hc
  obtain ⟨b', bs, hchar, ⟨-, hlt⟩, -⟩ := encodeChar_shape c
  rw [hchar, List.cons_append] at hrest
  obtain ⟨rfl, -⟩ := List.cons_eq_cons.mp hrest
  omega

theorem invalidLen_of_le {b : UInt8} (h : 248 ≤ b.toNat) : invalidLen (b :: l) = 1 := by
  have hout : ∀ {low high : UInt8}, high.toNat < 248 → ¬ (low ≤ b && b ≤ high) = true := by
    intro low high hhigh hin
    rw [Bool.and_eq_true, decide_eq_true_eq, decide_eq_true_eq, UInt8.le_iff_toNat_le,
      UInt8.le_iff_toNat_le] at hin
    omega
  cases l with
  | nil => rfl
  | cons c rest => rw [invalidLen, if_neg (hout (by decide)), if_neg (hout (by decide))]

theorem growth_replicate {b : UInt8} (h : 248 ≤ b.toNat) :
    growth (List.replicate n b) = 2 * n := by
  induction n with
  | zero => rw [List.replicate_zero, growth, invalidRuns, dif_pos rfl]; rfl
  | succ n ih =>
    rw [growth] at ih ⊢
    rw [List.replicate_succ, invalidRuns_invalid (List.cons_ne_nil _ _) (decode_none_of_le h),
      invalidLen_of_le h, List.drop_one, List.tail_cons, List.map_cons, List.sum_cons, ih]
    omega

end Tails

end Walgit.Utf8
