import Mathlib

/-!
# The decimal text of numbers

The text of a natural number is its digits, and that of a negative integer has
a sign before them. A number is known from its text, and so are the name and
the number of a text that joins them at a sign.
-/

namespace Walgit.Decimal

variable {c x : Char} {n m : ℤ} {a a' d d' : List Char}

theorem isDigit_of_nat {n : ℕ} (h : c ∈ (toString n).toList) : c.isDigit = true := by
  have hc : c ∈ Nat.toDigits 10 n := by simpa using h
  exact Nat.isDigit_of_mem_toDigits (by decide) (by decide) hc

theorem toList_negSucc (n : ℕ) :
    (toString (Int.negSucc n)).toList = '-' :: (toString (n + 1)).toList := by
  simp [toString, Int.repr]

theorem digit_or_sign_of_int (h : c ∈ (toString n).toList) : c.isDigit = true ∨ c = '-' := by
  cases n with
  | ofNat n => exact .inl (isDigit_of_nat h)
  | negSucc n =>
    rw [toList_negSucc] at h
    rcases List.mem_cons.mp h with hc | h
    · exact .inr hc
    · exact .inl (isDigit_of_nat h)

theorem nat_text_inj {n m : ℕ} (h : (toString n).toList = (toString m).toList) : n = m := by
  have hdigits : Nat.toDigits 10 n = Nat.toDigits 10 m := by simpa using h
  rw [← Nat.ofDigitChars_ten_toDigits (n := n), hdigits, Nat.ofDigitChars_ten_toDigits]

theorem sign_not_mem {n : ℕ} : '-' ∉ (toString n).toList := by
  intro h
  have hd : '-'.isDigit = true := isDigit_of_nat h
  cases hd

theorem nat_text_ne {n m : ℕ} : (toString n).toList ≠ '-' :: (toString m).toList := fun h =>
  sign_not_mem (h ▸ List.mem_cons_self)

theorem int_text_inj (h : (toString n).toList = (toString m).toList) : n = m := by
  cases n with
  | ofNat n =>
    cases m with
    | ofNat m => rw [nat_text_inj h]
    | negSucc m => exact absurd (h.trans (toList_negSucc m)) nat_text_ne
  | negSucc n =>
    cases m with
    | ofNat m => exact absurd (h.symm.trans (toList_negSucc n)) nat_text_ne
    | negSucc m =>
      rw [toList_negSucc, toList_negSucc] at h
      rw [Nat.succ.inj (nat_text_inj (List.cons_eq_cons.mp h).2)]

theorem int_text_ne_nil : (toString n).toList ≠ [] := by
  cases n with
  | ofNat n =>
    intro h
    have hnat : (toString n).toList = [] := h
    simp at hnat
  | negSucc n =>
    rw [toList_negSucc]
    exact List.cons_ne_nil _ _

theorem join_inj (h : a ++ x :: d = a' ++ x :: d') (hd : x ∉ d) (hd' : x ∉ d') :
    a = a' ∧ d = d' := by
  rcases List.append_eq_append_iff.mp h with ⟨t, rfl, ht⟩ | ⟨t, rfl, ht⟩
  · cases t with
    | nil => exact ⟨by simp, (List.cons_eq_cons.mp ht).2⟩
    | cons y t => exact absurd (by simp [(List.cons_eq_cons.mp ht).2]) hd
  · cases t with
    | nil => exact ⟨by simp, (List.cons_eq_cons.mp ht).2.symm⟩
    | cons y t => exact absurd (by simp [(List.cons_eq_cons.mp ht).2]) hd'

end Walgit.Decimal
