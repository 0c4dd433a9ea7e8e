import Mathlib

/-!
# Texts as bytes

The bytes of a text, and the reading of bytes that puts a replacement
character for every maximal sequence that begins no character.
-/

namespace Walgit.Utf8

def encode (cs : List Char) : List UInt8 := cs.flatMap String.utf8EncodeChar

/-- A continuation byte. -/
def isTail (b : UInt8) : Bool := 0x80 ≤ b && b ≤ 0xBF

/-- The second byte that may follow a first byte of three or four. -/
def secondOk (b c : UInt8) : Bool :=
  if b = 0xE0 then 0xA0 ≤ c && c ≤ 0xBF
  else if b = 0xED then 0x80 ≤ c && c ≤ 0x9F
  else if b = 0xF0 then 0x90 ≤ c && c ≤ 0xBF
  else if b = 0xF4 then 0x80 ≤ c && c ≤ 0x8F
  else isTail c

/-- The length of the invalid sequence that bytes without a first character start with. -/
def invalidLen : List UInt8 → ℕ
  | b :: c :: rest =>
    if 0xE0 ≤ b && b ≤ 0xEF then if secondOk b c then 2 else 1
    else if 0xF0 ≤ b && b ≤ 0xF4 then
      if secondOk b c then if rest.head?.any isTail then 3 else 2 else 1
    else 1
  | _ => 1

theorem invalidLen_pos {l : List UInt8} : 0 < invalidLen l := by
  unfold invalidLen
  split
  · split_ifs <;> decide
  · decide

/-- `String::from_utf8_lossy`. -/
def lossy (l : List UInt8) : List Char :=
  if h : l = [] then []
  else
    have hpos := List.length_pos_iff.mpr h
    match l.toByteArray.utf8DecodeChar? 0 with
    | some c =>
      have : l.length - c.utf8Size < l.length := Nat.sub_lt hpos c.utf8Size_pos
      c :: lossy (l.drop c.utf8Size)
    | none =>
      have : l.length - invalidLen l < l.length := Nat.sub_lt hpos invalidLen_pos
      '\uFFFD' :: lossy (l.drop (invalidLen l))
termination_by l.length

variable {c : Char} {cs ds : List Char} {l : List UInt8}

@[simp] theorem lossy_nil : lossy [] = [] := by
  rw [lossy, dif_pos rfl]

theorem lossy_char_append : lossy (String.utf8EncodeChar c ++ l) = c :: lossy l := by
  have hlen := String.length_utf8EncodeChar c
  have hne : String.utf8EncodeChar c ++ l ≠ [] := by
    intro h
    have hnil := congrArg List.length (List.append_eq_nil_iff.mp h).1
    have := c.utf8Size_pos
    rw [hlen, List.length_nil] at hnil
    omega
  have hdecode : (String.utf8EncodeChar c ++ l).toByteArray.utf8DecodeChar? 0 = some c := by
    rw [List.toByteArray_append]
    exact ByteArray.utf8DecodeChar?_utf8EncodeChar_append
  rw [lossy, dif_neg hne]
  simp only [hdecode]
  rw [List.drop_left' hlen]

theorem lossy_encode_append : lossy (encode cs ++ l) = cs ++ lossy l := by
  induction cs with
  | nil => rfl
  | cons c cs ih =>
    rw [encode, List.flatMap_cons, List.append_assoc, lossy_char_append, List.cons_append]
    exact congrArg _ ih

@[simp] theorem lossy_encode : lossy (encode cs) = cs := by
  have h := @lossy_encode_append cs []
  rwa [List.append_nil, lossy_nil, List.append_nil] at h

@[simp] theorem encode_append : encode (cs ++ ds) = encode cs ++ encode ds := List.flatMap_append

theorem encodeChar_ascii (h : c.toNat < 128) : String.utf8EncodeChar c = [.ofNat c.toNat] := by
  have hle : c.val.toNat ≤ 127 := Nat.le_of_lt_succ h
  simp only [String.utf8EncodeChar, if_pos hle]
  rfl

theorem le_of_mem_encodeChar {b : UInt8} (h : 128 ≤ c.toNat)
    (hb : b ∈ String.utf8EncodeChar c) : 128 ≤ b.toNat := by
  have hle : ¬ c.val.toNat ≤ 127 := Nat.not_le.mpr h
  have hbyte : ∀ {n : ℕ}, 128 ≤ n → n < 256 → 128 ≤ (UInt8.ofNat n).toNat := fun hlow hhigh => by
    rwa [UInt8.toNat_ofNat_of_lt' hhigh]
  simp only [String.utf8EncodeChar, if_neg hle] at hb
  split_ifs at hb
  · simp only [List.mem_cons, List.not_mem_nil, or_false] at hb
    rcases hb with rfl | rfl <;> exact hbyte (by omega) (by omega)
  · simp only [List.mem_cons, List.not_mem_nil, or_false] at hb
    rcases hb with rfl | rfl | rfl <;> exact hbyte (by omega) (by omega)
  · simp only [List.mem_cons, List.not_mem_nil, or_false] at hb
    rcases hb with rfl | rfl | rfl | rfl <;> exact hbyte (by omega) (by omega)

theorem mem_of_ofNat_mem_encode {n : ℕ} (hn : n < 128) (h : UInt8.ofNat n ∈ encode cs) :
    Char.ofNat n ∈ cs := by
  obtain ⟨c, hc, hb⟩ := List.mem_flatMap.mp h
  have hval : (UInt8.ofNat n).toNat = n := UInt8.toNat_ofNat_of_lt' (by rw [UInt8.size]; omega)
  by_cases hascii : c.toNat < 128
  · rw [encodeChar_ascii hascii, List.mem_singleton] at hb
    have heq := congrArg UInt8.toNat hb
    rw [hval, UInt8.toNat_ofNat_of_lt' (by rw [UInt8.size]; omega)] at heq
    rwa [heq, Char.ofNat_toNat]
  · have hle := le_of_mem_encodeChar (Nat.not_lt.mp hascii) hb
    omega

section Ascii

/-- The bytes as characters, each for itself. -/
def latin1 (bs : List UInt8) : List Char := bs.map fun b => Char.ofNat b.toNat

variable {bs : List UInt8}

theorem toNat_ofNat_byte (b : UInt8) : (Char.ofNat b.toNat).toNat = b.toNat := by
  have hvalid : b.toNat.isValidChar := .inl (Nat.lt_trans b.toNat_lt (by decide))
  rw [Char.ofNat, dif_pos hvalid]
  rfl

theorem latin1_injective : Function.Injective latin1 :=
  List.map_injective_iff.mpr fun b b' h => by
    have hnat := congrArg Char.toNat h
    rw [toNat_ofNat_byte, toNat_ofNat_byte] at hnat
    exact UInt8.toNat_inj.mp hnat

theorem latin1_append {bs' : List UInt8} : latin1 (bs ++ bs') = latin1 bs ++ latin1 bs' :=
  List.map_append

theorem latin1_encode_ascii (h : ∀ c ∈ cs, c.toNat < 128) : latin1 (encode cs) = cs := by
  induction cs with
  | nil => rfl
  | cons c cs ih =>
    rw [List.forall_mem_cons] at h
    have hbyte : (UInt8.ofNat c.toNat).toNat = c.toNat :=
      UInt8.toNat_ofNat_of_lt' (by have := h.1; rw [UInt8.size]; omega)
    rw [encode, List.flatMap_cons, ← encode, encodeChar_ascii h.1, latin1_append, ih h.2, latin1,
      List.map_singleton, hbyte, Char.ofNat_toNat, List.singleton_append]

theorem length_le_encode : cs.length ≤ (encode cs).length := by
  induction cs with
  | nil => exact Nat.le_refl 0
  | cons c cs ih =>
    have hpos := c.utf8Size_pos
    rw [encode, List.flatMap_cons, ← encode, List.length_append, String.length_utf8EncodeChar,
      List.length_cons]
    omega

theorem ascii_of_latin1_encode (h : latin1 (encode cs) = cs) : ∀ c ∈ cs, c.toNat < 128 := by
  have hlen := congrArg List.length h
  rw [latin1, List.length_map] at hlen
  clear h
  induction cs with
  | nil => exact fun c hc => absurd hc List.not_mem_nil
  | cons c cs ih =>
    have hpos := c.utf8Size_pos
    have hle := @length_le_encode cs
    rw [encode, List.flatMap_cons, ← encode, List.length_append, String.length_utf8EncodeChar,
      List.length_cons] at hlen
    have hone : c.utf8Size = 1 := by omega
    refine List.forall_mem_cons.mpr ⟨?_, ih (by omega)⟩
    exact Nat.lt_succ_of_le (Char.utf8Size_eq_one_iff.mp hone)

theorem exists_of_encode_append (hds : ∀ d ∈ ds, d.toNat < 128)
    (h : encode cs = bs ++ encode ds) : ∃ cs', cs = cs' ++ ds ∧ encode cs' = bs := by
  induction ds using List.reverseRecOn generalizing cs with
  | nil => exact ⟨cs, (List.append_nil cs).symm, by rw [h]; exact List.append_nil bs⟩
  | append_singleton ds d ih =>
    rw [List.forall_mem_append, List.forall_mem_singleton] at hds
    have hd : encode [d] = [.ofNat d.toNat] := by
      rw [encode, List.flatMap_singleton, encodeChar_ascii hds.2]
    rw [encode_append, hd, ← List.append_assoc] at h
    rcases List.eq_nil_or_concat' cs with rfl | ⟨cs', c, rfl⟩
    · have hlen := congrArg List.length h
      simp [encode] at hlen
    rw [encode_append] at h
    have hlast : UInt8.ofNat d.toNat ∈ String.utf8EncodeChar c := by
      have hget := congrArg List.getLast? h
      rw [List.getLast?_concat, encode, encode, List.flatMap_singleton,
        List.getLast?_append_of_ne_nil _ String.utf8EncodeChar_ne_nil] at hget
      exact List.mem_of_getLast? hget
    have hc : c = d := by
      have hmem : Char.ofNat d.toNat ∈ [c] := by
        refine mem_of_ofNat_mem_encode hds.2 ?_
        rw [encode, List.flatMap_singleton]
        exact hlast
      rw [Char.ofNat_toNat, List.mem_singleton] at hmem
      exact hmem.symm
    subst hc
    rw [hd] at h
    obtain ⟨cs'', hcs, hbs⟩ := ih hds.1 (List.append_cancel_right h)
    exact ⟨cs'', by rw [hcs, List.append_assoc], hbs⟩

theorem exists_of_append_encode (h : encode cs = encode ds ++ l) : ∃ cs', encode cs' = l := by
  have hcs := @lossy_encode cs
  rw [h, lossy_encode_append] at hcs
  rw [← hcs, encode_append] at h
  exact ⟨lossy l, List.append_cancel_left h⟩

theorem exists_of_encode_cons {b : UInt8} (hb : b.toNat < 128) (h : encode cs = bs ++ b :: l) :
    ∃ cs', encode cs' = bs := by
  induction cs generalizing bs with
  | nil => exact absurd h.symm (List.append_ne_nil_of_right_ne_nil _ (List.cons_ne_nil _ _))
  | cons c cs ih =>
    rw [encode, List.flatMap_cons, ← encode] at h
    rcases List.append_eq_append_iff.mp h with ⟨rest, hbs, hrest⟩ | ⟨rest, hc, hrest⟩
    · obtain ⟨cs', hcs'⟩ := ih hrest
      refine ⟨c :: cs', ?_⟩
      rw [hbs, ← hcs', encode, List.flatMap_cons]
      rfl
    · cases rest with
      | nil =>
        refine ⟨[c], ?_⟩
        rw [encode, List.flatMap_singleton, hc, List.append_nil]
      | cons b' rest =>
        obtain ⟨rfl, -⟩ := List.cons_eq_cons.mp hrest
        have hmem : b ∈ String.utf8EncodeChar c := by
          rw [hc]
          exact List.mem_append_right _ List.mem_cons_self
        have hascii : c.toNat < 128 := by
          by_contra hlarge
          have hle := le_of_mem_encodeChar (Nat.not_lt.mp hlarge) hmem
          omega
        rw [encodeChar_ascii hascii] at hc
        cases bs with
        | nil => exact ⟨[], rfl⟩
        | cons x bs => exact absurd (List.cons_eq_cons.mp hc).2.symm (by simp)

theorem encode_latin1 (h : ∀ b ∈ bs, b.toNat < 128) : encode (latin1 bs) = bs := by
  induction bs with
  | nil => rfl
  | cons b bs ih =>
    rw [List.forall_mem_cons] at h
    have hb : (Char.ofNat b.toNat).toNat < 128 := by
      rw [toNat_ofNat_byte]
      exact h.1
    rw [latin1, List.map_cons, encode, List.flatMap_cons, encodeChar_ascii hb, toNat_ofNat_byte,
      UInt8.ofNat_toNat, ← encode, ← latin1, ih h.2]
    rfl

end Ascii

end Walgit.Utf8
