import Mathlib

/-!
# Hexadecimal digits as bytes

Four lower-case digits write every number below `16 ^ 4` and no other text of
digits, up to case, reads back to it.
-/

namespace Walgit.Hex

/-- The lower-case digit of a number below sixteen. -/
def digit (d : ℕ) : UInt8 := if d < 10 then .ofNat (48 + d) else .ofNat (87 + d)

def value? (b : UInt8) : Option ℕ :=
  if 48 ≤ b.toNat ∧ b.toNat ≤ 57 then some (b.toNat - 48)
  else if 97 ≤ b.toNat ∧ b.toNat ≤ 102 then some (b.toNat - 97 + 10)
  else if 65 ≤ b.toNat ∧ b.toNat ≤ 70 then some (b.toNat - 65 + 10)
  else none

/-- The digits `A` to `F` in lower case, other bytes as they are. -/
def lower (b : UInt8) : UInt8 :=
  if 65 ≤ b.toNat ∧ b.toNat ≤ 70 then .ofNat (b.toNat + 32) else b

def four (n : ℕ) : List UInt8 :=
  [digit (n / 4096 % 16), digit (n / 256 % 16), digit (n / 16 % 16), digit (n % 16)]

variable {b : UInt8} {d n : ℕ}

theorem toNat_digit (h : d < 16) : (digit d).toNat = if d < 10 then 48 + d else 87 + d := by
  unfold digit
  split_ifs
  · exact UInt8.toNat_ofNat_of_lt' (by rw [UInt8.size]; omega)
  · exact UInt8.toNat_ofNat_of_lt' (by rw [UInt8.size]; omega)

theorem value?_digit (h : d < 16) : value? (digit d) = some d := by
  unfold value?
  rw [toNat_digit h]
  split_ifs <;> first | omega | (congr 1; omega)

theorem digit_value (h : value? b = some d) : d < 16 ∧ lower b = digit d := by
  unfold value? at h
  split_ifs at h with h1 h2 h3
  · obtain rfl := Option.some.inj h
    refine ⟨by omega, ?_⟩
    rw [lower, if_neg (by omega), digit, if_pos (by omega), Nat.add_sub_cancel' h1.1,
      UInt8.ofNat_toNat]
  · obtain rfl := Option.some.inj h
    refine ⟨by omega, ?_⟩
    rw [lower, if_neg (by omega), digit, if_neg (by omega),
      show 87 + (b.toNat - 97 + 10) = b.toNat by omega, UInt8.ofNat_toNat]
  · obtain rfl := Option.some.inj h
    refine ⟨by omega, ?_⟩
    rw [lower, if_pos h3, digit, if_neg (by omega),
      show 87 + (b.toNat - 65 + 10) = b.toNat + 32 by omega]

theorem lower_digit (h : d < 16) : lower (digit d) = digit d :=
  (digit_value (value?_digit h)).2

theorem value?_lower : value? (lower b) = value? b := by
  cases hv : value? b with
  | some d =>
    obtain ⟨hd, hlow⟩ := digit_value hv
    rw [hlow, value?_digit hd]
  | none =>
    unfold lower
    split_ifs with hu
    · unfold value? at hv
      rw [if_neg (by omega), if_neg (by omega), if_pos hu] at hv
      cases hv
    · exact hv

@[simp] theorem length_four : (four n).length = 4 := rfl

theorem four_value (h : n < 16 ^ 4) :
    ((n / 4096 % 16 * 16 + n / 256 % 16) * 16 + n / 16 % 16) * 16 + n % 16 = n := by
  omega

theorem four_of_digits {a b c d : ℕ} (ha : a < 16) (hb : b < 16) (hc : c < 16) (hd : d < 16) :
    four (((a * 16 + b) * 16 + c) * 16 + d) = [digit a, digit b, digit c, digit d] := by
  rw [four]
  congr 2
  · omega
  congr 2
  · omega
  congr 2
  · omega
  congr 2
  omega

theorem digitChar_toNat (h : d < 16) : d.digitChar.toNat = (digit d).toNat := by
  have hall : ∀ d < 16, d.digitChar.toNat = if d < 10 then 48 + d else 87 + d := by decide
  rw [toNat_digit h]
  exact hall d h

end Walgit.Hex
