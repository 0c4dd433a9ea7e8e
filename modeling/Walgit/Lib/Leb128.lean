import Mathlib

/-!
# Base-128 numbers

A number in groups of seven bits, the lowest first; every byte but the last has
its top bit set.
-/

namespace Walgit.Leb128

/-- The bytes are a number, padded or not. -/
inductive Reads : List UInt8 → ℕ → Prop
  | last {b : UInt8} (hlast : b.toNat < 128) : Reads [b] b.toNat
  | more {b : UInt8} {bs : List UInt8} {n : ℕ} (hmore : 128 ≤ b.toNat) (htail : Reads bs n) :
      Reads (b :: bs) (b.toNat % 128 + 128 * n)

def encode (n : ℕ) : List UInt8 :=
  if n < 128 then [.ofNat n] else .ofNat (n % 128 + 128) :: encode (n / 128)
termination_by n
decreasing_by omega

variable {bs bs' d d' : List UInt8} {b : UInt8} {n n' k : ℕ}

theorem Reads.length_pos (h : Reads bs n) : 0 < bs.length := by
  cases h <;> simp

theorem Reads.append_inj (h : Reads bs n) (h' : Reads bs' n') (heq : bs ++ d = bs' ++ d') :
    n = n' ∧ d = d' := by
  induction h generalizing bs' n' with
  | last hlast =>
    cases h' with
    | last => exact ⟨congrArg UInt8.toNat (List.cons.inj heq).1, (List.cons.inj heq).2⟩
    | more hmore =>
      obtain ⟨rfl, -⟩ := List.cons.inj heq
      omega
  | more hmore _ ih =>
    cases h' with
    | last hlast =>
      obtain ⟨rfl, -⟩ := List.cons.inj heq
      omega
    | more _ htail =>
      obtain ⟨rfl, hrest⟩ := List.cons.inj heq
      obtain ⟨rfl, rfl⟩ := ih htail hrest
      exact ⟨rfl, rfl⟩

theorem reads_encode (n : ℕ) : Reads (encode n) n := by
  induction n using Nat.strongRecOn with
  | ind n ih =>
    rw [encode]
    split
    · next hlt =>
      have hb : (UInt8.ofNat n).toNat = n := by
        rw [UInt8.toNat_ofNat']
        omega
      have h := Reads.last (b := UInt8.ofNat n) (by omega)
      rwa [hb] at h
    · next hge =>
      have hb : (UInt8.ofNat (n % 128 + 128)).toNat = n % 128 + 128 := by
        rw [UInt8.toNat_ofNat']
        omega
      have h := Reads.more (b := UInt8.ofNat (n % 128 + 128)) (by omega) (ih (n / 128) (by omega))
      have hn : (n % 128 + 128) % 128 + 128 * (n / 128) = n := by omega
      rwa [hb, hn] at h

theorem length_encode_le (h : n < 128 ^ (k + 1)) : (encode n).length ≤ k + 1 := by
  induction k generalizing n with
  | zero =>
    rw [encode, if_pos (by simpa using h)]
    rfl
  | succ k ih =>
    rw [encode]
    split
    · simp
    · have hdiv : n / 128 < 128 ^ (k + 1) := by
        rw [Nat.div_lt_iff_lt_mul (by decide)]
        rwa [pow_succ] at h
      simpa using ih hdiv

section Decoder

/-- The number at the front of the bytes, if it ends within `k` of them, and what follows it. -/
def decode : ℕ → List UInt8 → Option (ℕ × List UInt8)
  | 0, _ | _, [] => none
  | k + 1, b :: bs =>
    if b.toNat < 128 then some (b.toNat, bs)
    else (decode k bs).map fun r => (b.toNat % 128 + 128 * r.1, r.2)

theorem Reads.decode_append (h : Reads bs n) (hk : bs.length ≤ k) (d : List UInt8) :
    decode k (bs ++ d) = some (n, d) := by
  induction h generalizing k with
  | last hlast =>
    obtain ⟨k, rfl⟩ := Nat.exists_eq_add_of_le' hk
    exact if_pos hlast
  | more hmore _ ih =>
    obtain ⟨k, rfl⟩ := Nat.exists_eq_add_of_le' ((Nat.succ_pos _).trans_le hk)
    rw [List.cons_append, decode, if_neg (Nat.not_lt.mpr hmore),
      ih (Nat.le_of_succ_le_succ hk), Option.map_some]

theorem Reads.decode_cut (h : Reads bs n) (hcut : d <+: bs) (hne : d ≠ bs) :
    decode k d = none := by
  induction h generalizing d k with
  | last =>
    obtain rfl : d = [] := by
      rcases List.prefix_cons_iff.mp hcut with rfl | ⟨t, rfl, ht⟩
      · rfl
      · exact absurd (List.prefix_nil.mp ht ▸ rfl) hne
    cases k <;> rfl
  | more hmore _ ih =>
    cases k with
    | zero => rfl
    | succ k =>
      cases d with
      | nil => rfl
      | cons b d =>
        obtain ⟨rfl, hrest⟩ := List.cons_prefix_cons.mp hcut
        rw [decode, if_neg (Nat.not_lt.mpr hmore), ih hrest fun heq => hne (heq ▸ rfl),
          Option.map_none]

end Decoder

end Walgit.Leb128
