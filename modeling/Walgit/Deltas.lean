import Walgit.Lib.Leb128
import Walgit.Lib.Fallible
import Walgit.Lib.Tiling

/-!
# Deltas

A delta rebuilds an object from its base: two sizes, of the base and of the
result, and instructions that copy a piece of the base or insert bytes of their
own. The sizes are base-128 numbers read into 64 bits.
-/

namespace Walgit.Remote

abbrev Bytes := List UInt8

/-- How a delta is given up: with an error of the function, or with the panic of
a vector whose capacity no allocation can have. -/
inductive DeltaStop
  | err (msg : String)
  | capacityOverflow
  deriving DecidableEq, Repr

/-- `isize::MAX`, the longest slice. -/
def isizeMax : ℕ := 2 ^ 63 - 1

section Code

/-- The loop of `varint`, over the bytes still to be read. -/
def varintFrom (shift v : ℕ) : Bytes → Except DeltaStop (ℕ × Bytes)
  | [] => .error (.err "delta header truncated")
  | b :: d =>
    let v := v ||| ((b &&& 0x7f).toNat <<< shift) % 2 ^ 64
    if b &&& 0x80 = 0 then .ok (v, d)
    else if 63 < shift + 7 then .error (.err "delta header overflow")
    else varintFrom (shift + 7) v d

def varint (d : Bytes) : Except DeltaStop (ℕ × Bytes) := varintFrom 0 0 d

def deltaResultSize (delta : Bytes) : Except DeltaStop ℕ := do
  let (_, d) ← varint delta
  let (res, _) ← varint d
  .ok res

def nb (shift : ℕ) : Bytes → Except DeltaStop (ℕ × Bytes)
  | [] => .error (.err "delta copy truncated")
  | b :: d => .ok (b.toNat <<< shift, d)

/-- The runs of `if cmd & bit != 0 { acc |= nb(shift)? }`. -/
def orFields (cmd : UInt8) : List (UInt8 × ℕ) → ℕ → Bytes → Except DeltaStop (ℕ × Bytes)
  | [], acc, d => .ok (acc, d)
  | (bit, shift) :: fields, acc, d =>
    if cmd &&& bit ≠ 0 then nb shift d >>= fun r => orFields cmd fields (acc ||| r.1) r.2
    else orFields cmd fields acc d

def ofsFields : List (UInt8 × ℕ) := [(0x01, 0), (0x02, 8), (0x04, 16), (0x08, 24)]

def sizeFields : List (UInt8 × ℕ) := [(0x10, 0), (0x20, 8), (0x40, 16)]

/-- A size of zero stands for 65536. -/
def copySize (size : ℕ) : ℕ := if size = 0 then 0x10000 else size

/-- A copy; `usize` has 64 bits, so that the conversions to it succeed. -/
def copyOp (base : Bytes) (cmd : UInt8) (d : Bytes) : Except DeltaStop (Bytes × Bytes) := do
  let (ofs, d) ← orFields cmd ofsFields 0 d
  let (size, d) ← orFields cmd sizeFields 0 d
  let stop := ofs + copySize size
  if 2 ^ 64 ≤ stop then .error (.err "delta copy overflow")
  else if base.length < stop then .error (.err "delta copy out of base bounds")
  else .ok (Tiling.slice base (ofs, stop), d)

def insertOp (n : ℕ) (d : Bytes) : Except DeltaStop (Bytes × Bytes) :=
  if d.length < n then .error (.err "delta insert truncated") else .ok (d.take n, d.drop n)

/-- One instruction: what it adds to the result, and the bytes after it. -/
def applyOp (base : Bytes) (cmd : UInt8) (d : Bytes) : Except DeltaStop (Bytes × Bytes) :=
  if cmd &&& 0x80 ≠ 0 then copyOp base cmd d
  else if cmd ≠ 0 then insertOp cmd.toNat d
  else .error (.err "delta command 0 is reserved")

end Code

section Grammar

/-- The instructions of a delta. -/
inductive Instr
  | copy (ofs size : ℕ)
  | insert (data : Bytes)
  deriving DecidableEq, Repr

/-- The argument bytes that an opcode announces bit by bit, the lowest byte
first; a byte that is left out is zero. -/
inductive Fields (cmd : UInt8) : List UInt8 → ℕ → Bytes → Prop
  | nil : Fields cmd [] 0 []
  | given {bit b : UInt8} {bits : List UInt8} {v : ℕ} {bs : Bytes} (hbit : cmd &&& bit ≠ 0)
      (htail : Fields cmd bits v bs) : Fields cmd (bit :: bits) (b.toNat + 256 * v) (b :: bs)
  | omitted {bit : UInt8} {bits : List UInt8} {v : ℕ} {bs : Bytes} (hbit : cmd &&& bit = 0)
      (htail : Fields cmd bits v bs) : Fields cmd (bit :: bits) (256 * v) bs

/-- The bytes write the instruction. -/
inductive Instr.Written : Instr → Bytes → Prop
  | copy {cmd : UInt8} {ofs size : ℕ} {bs bs' : Bytes} (hcmd : cmd &&& 0x80 ≠ 0)
      (hofs : Fields cmd [0x01, 0x02, 0x04, 0x08] ofs bs)
      (hsize : Fields cmd [0x10, 0x20, 0x40] size bs') :
      Written (.copy ofs (copySize size)) (cmd :: (bs ++ bs'))
  | insert {cmd : UInt8} {data : Bytes} (hcmd : cmd &&& 0x80 = 0) (hzero : cmd ≠ 0)
      (hlen : data.length = cmd.toNat) : Written (.insert data) (cmd :: data)

inductive Written : List Instr → Bytes → Prop
  | nil : Written [] []
  | cons {i : Instr} {is : List Instr} {bs body : Bytes} (hi : i.Written bs)
      (his : Written is body) : Written (i :: is) (bs ++ body)

def Instr.Fits : Instr → Prop
  | .copy ofs size => ofs < 2 ^ 32 ∧ 0 < size ∧ size < 2 ^ 24
  | .insert data => 0 < data.length ∧ data.length < 128

def Instr.InBase (base : Bytes) : Instr → Prop
  | .copy ofs size => ofs + size ≤ base.length
  | .insert _ => True

def Instr.result (base : Bytes) : Instr → Bytes
  | .copy ofs size => Tiling.slice base (ofs, ofs + size)
  | .insert data => data

def result (base : Bytes) (is : List Instr) : Bytes := (is.map (Instr.result base)).flatten

/-- A size header: a number in at most ten bytes. -/
def SizeHeader (h : Bytes) (n : ℕ) : Prop := Leb128.Reads h n ∧ h.length ≤ 10

/-- The delta's headers declare the sizes `n` and `m`, and `body` follows. -/
def Headers (delta : Bytes) (n m : ℕ) (body : Bytes) : Prop :=
  ∃ h₁ h₂, delta = h₁ ++ (h₂ ++ body) ∧ SizeHeader h₁ n ∧ SizeHeader h₂ m

/-- The bytes write instructions that copy from within the base and give `out`. -/
def Yields (base body out : Bytes) : Prop :=
  ∃ is, Written is body ∧ (∀ i ∈ is, i.InBase base) ∧ result base is = out

/-- The delta declares the size of the base and of a result that a vector can
hold, and its instructions give that result. -/
def Denotes (base delta out : Bytes) : Prop :=
  out.length ≤ isizeMax ∧
    ∃ body, Headers delta base.length out.length body ∧ Yields base body out

end Grammar

section Headers

variable {shift v w n acc : ℕ} {b : UInt8} {d d' h : Bytes}

theorem and_mask (b : UInt8) : (b &&& 0x7f).toNat = b.toNat % 128 := by
  rw [UInt8.toNat_and]
  exact Nat.and_two_pow_sub_one_eq_mod b.toNat 7

theorem and_top_eq_zero_iff (b : UInt8) : b &&& 0x80 = 0 ↔ b.toNat < 128 := by
  have hbits : ∀ n < 256, (n &&& 128 = 0 ↔ n < 128) := by decide +kernel
  rw [← UInt8.toNat_inj, UInt8.toNat_and]
  exact hbits b.toNat b.toNat_lt

theorem or_shift (hv : v < 2 ^ shift) (hshift : shift ≤ 64) (x : ℕ) :
    v ||| (x <<< shift) % 2 ^ 64 = (v + x * 2 ^ shift) % 2 ^ 64 := by
  have hpow : (2 : ℕ) ^ 64 = 2 ^ (64 - shift) * 2 ^ shift := by
    rw [← pow_add, Nat.sub_add_cancel hshift]
  have hx : x % 2 ^ (64 - shift) * 2 ^ shift + 2 ^ shift ≤ 2 ^ 64 := by
    rw [hpow, ← Nat.succ_mul]
    exact Nat.mul_le_mul_right _ (Nat.mod_lt _ (Nat.two_pow_pos _))
  have hmod : (x * 2 ^ shift) % 2 ^ 64 = x % 2 ^ (64 - shift) * 2 ^ shift := by
    rw [hpow, Nat.mul_mod_mul_right]
  have hv64 : v < 2 ^ 64 := hv.trans_le (Nat.pow_le_pow_right (by decide) hshift)
  calc v ||| (x <<< shift) % 2 ^ 64 = x % 2 ^ (64 - shift) * 2 ^ shift + v := by
        rw [Nat.shiftLeft_eq, hmod, Nat.or_comm, Nat.mul_comm, Nat.two_pow_add_eq_or_of_lt hv]
    _ = v % 2 ^ 64 + x * 2 ^ shift % 2 ^ 64 := by rw [Nat.mod_eq_of_lt hv64, hmod, Nat.add_comm]
    _ = (v + x * 2 ^ shift) % 2 ^ 64 := by
        rw [Nat.add_mod v, hmod, Nat.mod_eq_of_lt hv64, eq_comm, Nat.mod_eq_of_lt]
        omega

theorem varintFrom_reads (hr : Leb128.Reads h n) (hlen : shift + 7 * h.length ≤ 70)
    (hv : v < 2 ^ shift) (d : Bytes) :
    varintFrom shift v (h ++ d) = .ok ((v + n * 2 ^ shift) % 2 ^ 64, d) := by
  induction hr generalizing shift v with
  | @last b hlast =>
    have hshift : shift ≤ 63 := by
      rw [List.length_singleton] at hlen
      omega
    rw [List.singleton_append, varintFrom, if_pos ((and_top_eq_zero_iff b).mpr hlast), and_mask,
      Nat.mod_eq_of_lt hlast, or_shift hv (by omega)]
  | @more b bs n hmore htail ih =>
    have hpos := htail.length_pos
    rw [List.length_cons] at hlen
    have hstep : v + b.toNat % 128 * 2 ^ shift < 2 ^ (shift + 7) := by
      have hlow : b.toNat % 128 + 1 ≤ 128 := Nat.mod_lt _ (by decide)
      have hmul := Nat.mul_le_mul_right (2 ^ shift) hlow
      rw [Nat.add_mul, Nat.one_mul] at hmul
      rw [pow_add]
      omega
    have hfit : v + b.toNat % 128 * 2 ^ shift < 2 ^ 64 :=
      hstep.trans_le (Nat.pow_le_pow_right (by decide) (by omega))
    rw [List.cons_append, varintFrom, if_neg (by rw [and_top_eq_zero_iff]; omega),
      if_neg (by omega), and_mask, or_shift hv (by omega), Nat.mod_eq_of_lt hfit,
      ih (by omega) hstep]
    congr 3
    ring

theorem varintFrom_ok (hshift : shift ≤ 63) (hd : varintFrom shift v d = .ok (w, d')) :
    ∃ h n, Leb128.Reads h n ∧ shift + 7 * h.length ≤ 70 ∧ d = h ++ d' := by
  induction d generalizing shift v with
  | nil => cases hd
  | cons b d ih =>
    rw [varintFrom] at hd
    split at hd
    · next hlast =>
      cases hd
      exact ⟨[b], b.toNat, .last ((and_top_eq_zero_iff b).mp hlast), by simpa using hshift, rfl⟩
    · next hmore =>
      split at hd
      · cases hd
      · next hroom =>
        obtain ⟨h, n, hr, hlen, rfl⟩ := ih (by omega) hd
        rw [and_top_eq_zero_iff, not_lt] at hmore
        refine ⟨b :: h, _, .more hmore hr, ?_, rfl⟩
        rw [List.length_cons]
        omega

theorem varint_ok_iff :
    varint d = .ok (v, d') ↔ ∃ h n, SizeHeader h n ∧ d = h ++ d' ∧ v = n % 2 ^ 64 := by
  have hread : ∀ {h n}, SizeHeader h n → varint (h ++ d') = .ok (n % 2 ^ 64, d') := by
    rintro h n ⟨hr, hlen⟩
    have hfrom : varintFrom 0 0 (h ++ d') = .ok ((0 + n * 2 ^ 0) % 2 ^ 64, d') :=
      varintFrom_reads hr (by omega) Nat.one_pos d'
    rwa [pow_zero, Nat.mul_one, Nat.zero_add] at hfrom
  constructor
  · intro hd
    obtain ⟨h, n, hr, hlen, rfl⟩ := varintFrom_ok (by decide) hd
    have hh : SizeHeader h n := ⟨hr, by omega⟩
    rw [hread hh] at hd
    cases hd
    exact ⟨h, n, hh, rfl, rfl⟩
  · rintro ⟨h, n, hh, rfl, rfl⟩
    exact hread hh

end Headers

section Instructions

variable {base delta out piece d d' bs body : Bytes} {cmd : UInt8} {bits : List UInt8}
  {fields : List (UInt8 × ℕ)} {shift acc v w : ℕ} {i : Instr} {is : List Instr} {e : DeltaStop}

/-- Argument bytes at the shifts `shift`, `shift + 8` and so on. -/
def withShifts (shift : ℕ) : List UInt8 → List (UInt8 × ℕ)
  | [] => []
  | bit :: bits => (bit, shift) :: withShifts (shift + 8) bits

theorem or_byte (hacc : acc < 2 ^ shift) (b : UInt8) :
    acc ||| b.toNat <<< shift = acc + b.toNat * 2 ^ shift := by
  rw [Nat.shiftLeft_eq, Nat.or_comm, Nat.mul_comm, ← Nat.two_pow_add_eq_or_of_lt hacc,
    Nat.add_comm, Nat.mul_comm]

theorem orFields_ok_iff (hacc : acc < 2 ^ shift) :
    orFields cmd (withShifts shift bits) acc d = .ok (v, d') ↔
      ∃ w bs, Fields cmd bits w bs ∧ d = bs ++ d' ∧ v = acc + w * 2 ^ shift := by
  induction bits generalizing shift acc d with
  | nil =>
    constructor
    · intro h
      cases h
      exact ⟨0, [], .nil, rfl, by simp⟩
    · rintro ⟨w, bs, hf, rfl, rfl⟩
      cases hf
      simp [withShifts, orFields]
  | cons bit bits ih =>
    have hacc8 : acc < 2 ^ (shift + 8) :=
      hacc.trans_le (Nat.pow_le_pow_right (by decide) (by omega))
    rw [withShifts, orFields]
    by_cases hbit : cmd &&& bit = 0
    · rw [if_neg (not_not.mpr hbit), ih hacc8]
      constructor
      · rintro ⟨w, bs, hf, rfl, rfl⟩
        exact ⟨256 * w, bs, .omitted hbit hf, rfl, by rw [pow_add]; ring⟩
      · rintro ⟨w, bs, hf, rfl, rfl⟩
        cases hf with
        | given hset => exact absurd hbit hset
        | omitted _ hf => exact ⟨_, _, hf, rfl, by rw [pow_add]; ring⟩
    · rw [if_pos hbit]
      cases d with
      | nil =>
        constructor
        · intro h
          cases h
        · rintro ⟨w, bs, hf, hd, rfl⟩
          cases hf with
          | given => simp at hd
          | omitted hclear => exact absurd hclear hbit
      | cons b d =>
        have hstep : acc + b.toNat * 2 ^ shift < 2 ^ (shift + 8) := by
          have hmul := Nat.mul_le_mul_right (2 ^ shift) (Nat.succ_le_of_lt b.toNat_lt)
          rw [Nat.succ_mul] at hmul
          rw [pow_add]
          omega
        change orFields cmd _ (acc ||| b.toNat <<< shift) d = _ ↔ _
        rw [or_byte hacc, ih hstep]
        constructor
        · rintro ⟨w, bs, hf, rfl, rfl⟩
          exact ⟨b.toNat + 256 * w, b :: bs, .given hbit hf, rfl, by rw [pow_add]; ring⟩
        · rintro ⟨w, bs, hf, hd, rfl⟩
          cases hf with
          | given _ hf =>
            obtain ⟨rfl, rfl⟩ := List.cons.inj hd
            exact ⟨_, _, hf, rfl, by rw [pow_add]; ring⟩
          | omitted hclear => exact absurd hclear hbit

theorem orFields_error (h : orFields cmd fields acc d = .error e) : ∃ m, e = .err m := by
  induction fields generalizing acc d with
  | nil => cases h
  | cons f fields ih =>
    rw [orFields] at h
    split at h
    · cases d with
      | nil =>
        cases h
        exact ⟨_, rfl⟩
      | cons b d => exact ih h
    · exact ih h

theorem Fields.lt (h : Fields cmd bits v bs) : v < 256 ^ bits.length := by
  induction h with
  | nil => simp
  | @given bit b bits v bs _ _ ih =>
    have hb := b.toNat_lt
    rw [List.length_cons, pow_succ]
    omega
  | omitted _ _ ih =>
    rw [List.length_cons, pow_succ]
    omega

theorem copyOp_ok_iff :
    copyOp base cmd d = .ok (piece, d') ↔
      ∃ ofs size bs bs', Fields cmd [0x01, 0x02, 0x04, 0x08] ofs bs ∧
        Fields cmd [0x10, 0x20, 0x40] size bs' ∧ ofs + copySize size ≤ base.length ∧
        d = bs ++ (bs' ++ d') ∧ Tiling.slice base (ofs, ofs + copySize size) = piece := by
  have hfields {bits : List UInt8} {d₀ d₁ : Bytes} {n : ℕ} :
      orFields cmd (withShifts 0 bits) 0 d₀ = .ok (n, d₁) ↔
        ∃ w bs, Fields cmd bits w bs ∧ d₀ = bs ++ d₁ ∧ n = w := by
    rw [orFields_ok_iff Nat.one_pos]
    simp only [pow_zero, Nat.mul_one, Nat.zero_add]
  have hofs {d₀ d₁ : Bytes} {n : ℕ} : orFields cmd ofsFields 0 d₀ = .ok (n, d₁) ↔ _ :=
    @hfields [0x01, 0x02, 0x04, 0x08] d₀ d₁ n
  have hsize {d₀ d₁ : Bytes} {n : ℕ} : orFields cmd sizeFields 0 d₀ = .ok (n, d₁) ↔ _ :=
    @hfields [0x10, 0x20, 0x40] d₀ d₁ n
  constructor
  · intro h
    obtain ⟨⟨ofs, d₁⟩, h₁, hrest⟩ := bind_eq_ok h
    obtain ⟨⟨size, d₂⟩, h₂, hlast⟩ := bind_eq_ok hrest
    obtain ⟨ofs, bs, hf₁, rfl, rfl⟩ := hofs.mp h₁
    obtain ⟨size, bs', hf₂, rfl, rfl⟩ := hsize.mp h₂
    simp only at hlast
    split_ifs at hlast with _ hbase
    cases hlast
    exact ⟨ofs, size, bs, bs', hf₁, hf₂, not_lt.mp hbase, rfl, rfl⟩
  · rintro ⟨ofs, size, bs, bs', hf₁, hf₂, hin, rfl, rfl⟩
    have hlt₁ := hf₁.lt
    have hlt₂ := hf₂.lt
    have hend : ¬ 2 ^ 64 ≤ ofs + copySize size := by
      simp only [List.length_cons, List.length_nil] at hlt₁ hlt₂
      rw [copySize]
      split <;> omega
    simp only [copyOp, hofs.mpr ⟨ofs, bs, hf₁, rfl, rfl⟩, hsize.mpr ⟨size, bs', hf₂, rfl, rfl⟩,
      ok_bind, if_neg hend, if_neg (not_lt.mpr hin)]

theorem insertOp_ok_iff {n : ℕ} :
    insertOp n d = .ok (piece, d') ↔ piece.length = n ∧ d = piece ++ d' := by
  rw [insertOp]
  constructor
  · intro h
    split_ifs at h with hlen
    cases h
    exact ⟨List.length_take_of_le (not_lt.mp hlen), (List.take_append_drop n d).symm⟩
  · rintro ⟨rfl, rfl⟩
    rw [if_neg (by rw [List.length_append]; omega), List.take_left, List.drop_left]

/-- An instruction is read back from whatever writes it. -/
theorem applyOp_ok_iff :
    applyOp base cmd d = .ok (piece, d') ↔
      ∃ i bs, Instr.Written i (cmd :: bs) ∧ i.InBase base ∧ d = bs ++ d' ∧
        i.result base = piece := by
  rw [applyOp]
  split
  · next hcmd =>
    rw [copyOp_ok_iff]
    constructor
    · rintro ⟨ofs, size, bs, bs', hf₁, hf₂, hin, rfl, rfl⟩
      exact ⟨_, bs ++ bs', .copy hcmd hf₁ hf₂, hin, (List.append_assoc _ _ _).symm, rfl⟩
    · rintro ⟨i, bs, hw, hin, rfl, rfl⟩
      cases hw with
      | insert hclear => exact absurd hclear hcmd
      | copy _ hf₁ hf₂ => exact ⟨_, _, _, _, hf₁, hf₂, hin, List.append_assoc _ _ _, rfl⟩
  · next hcmd =>
    rw [not_not] at hcmd
    split
    · next hzero =>
      rw [insertOp_ok_iff]
      constructor
      · rintro ⟨hlen, rfl⟩
        exact ⟨_, piece, .insert hcmd hzero hlen, trivial, rfl, rfl⟩
      · rintro ⟨i, bs, hw, -, rfl, rfl⟩
        cases hw with
        | copy hset => exact absurd hcmd hset
        | insert _ _ hlen => exact ⟨hlen, rfl⟩
    · next hzero =>
      constructor
      · intro h
        cases h
      · rintro ⟨i, bs, hw, -⟩
        cases hw with
        | copy hset => exact absurd hcmd hset
        | insert _ hne => exact absurd hne hzero

theorem applyOp_error (h : applyOp base cmd d = .error e) : ∃ m, e = .err m := by
  rw [applyOp] at h
  split_ifs at h
  · rcases bind_eq_error h with h | ⟨⟨ofs, d₁⟩, -, h⟩
    · exact orFields_error h
    rcases bind_eq_error h with h | ⟨⟨size, d₂⟩, -, h⟩
    · exact orFields_error h
    simp only at h
    split_ifs at h
    all_goals
      cases h
      exact ⟨_, rfl⟩
  · rw [insertOp] at h
    split_ifs at h
    cases h
    exact ⟨_, rfl⟩
  · cases h
    exact ⟨_, rfl⟩

end Instructions

section Loop

variable {base delta out d d' body : Bytes} {i : Instr} {is : List Instr} {e : DeltaStop} {n : ℕ}

/-- The loop of `apply_delta` over the bytes after the size headers. -/
def applyOps (base : Bytes) : Bytes → Bytes → Except DeltaStop Bytes
  | [], out => .ok out
  | cmd :: d, out =>
    match _ : applyOp base cmd d with
    | .error e => .error e
    | .ok (piece, d') => applyOps base d' (out ++ piece)
termination_by d => d.length
decreasing_by
  obtain ⟨i, bs, -, -, rfl, -⟩ := applyOp_ok_iff.mp ‹_›
  rw [List.length_cons, List.length_append]
  omega

def applyDelta (base delta : Bytes) : Except DeltaStop Bytes := do
  let (baseSize, d) ← varint delta
  if baseSize ≠ base.length then .error (.err "delta base size mismatch")
  else do
    let (resSize, d) ← varint d
    -- `Vec::with_capacity` panics above `isize::MAX`
    if isizeMax < resSize then .error .capacityOverflow
    else do
      let out ← applyOps base d []
      if out.length ≠ resSize then .error (.err "delta result size mismatch") else .ok out

theorem Instr.Written.ne_nil {bs : Bytes} (h : i.Written bs) : bs ≠ [] := by
  cases h <;> simp

theorem Instr.Written.result_ne_nil {bs : Bytes} (h : i.Written bs) (hin : i.InBase base) :
    i.result base ≠ [] := by
  cases h with
  | @copy cmd ofs size bs bs' hcmd hofs hsize =>
    rw [← List.length_pos_iff]
    have hpos : 0 < copySize size := by
      rw [copySize]
      split <;> omega
    have hle : ofs + copySize size ≤ base.length := hin
    simp only [Instr.result, Tiling.slice, List.length_take, List.length_drop]
    omega
  | @insert cmd data hcmd hzero hlen =>
    rintro rfl
    have hne : cmd.toNat ≠ 0 := fun h0 => hzero (UInt8.toNat_inj.mp h0)
    exact hne hlen.symm

theorem applyOps_cons (cmd : UInt8) (d out : Bytes) :
    applyOps base (cmd :: d) out =
      applyOp base cmd d >>= fun r => applyOps base r.2 (out ++ r.1) := by
  rw [applyOps]
  split
  · next h =>
    rw [h]
    rfl
  · next h =>
    rw [h]
    rfl

theorem applyOps_append (his : Written is body) (hin : ∀ i ∈ is, i.InBase base) (d out : Bytes) :
    applyOps base (body ++ d) out = applyOps base d (out ++ result base is) := by
  induction his generalizing out with
  | nil => simp [result]
  | @cons i is bs body hi his ih =>
    obtain ⟨cmd, bs, rfl⟩ := List.exists_cons_of_ne_nil hi.ne_nil
    have hop : applyOp base cmd (bs ++ (body ++ d)) = .ok (i.result base, body ++ d) :=
      applyOp_ok_iff.mpr ⟨i, bs, hi, hin i List.mem_cons_self, rfl, rfl⟩
    rw [List.append_assoc, List.cons_append, applyOps_cons, hop, ok_bind,
      ih (fun j hj => hin j (List.mem_cons_of_mem _ hj))]
    simp [result]

theorem applyOps_ok (h : applyOps base d out = .ok d') :
    ∃ is, Written is d ∧ (∀ i ∈ is, i.InBase base) ∧ d' = out ++ result base is := by
  induction d, out using applyOps.induct base with
  | case1 out =>
    rw [applyOps] at h
    cases h
    exact ⟨[], .nil, by simp, by simp [result]⟩
  | case2 out cmd d e hop =>
    rw [applyOps_cons, hop] at h
    cases h
  | case3 out cmd d piece rest hop ih =>
    rw [applyOps_cons, hop] at h
    obtain ⟨is, hw, hin, rfl⟩ := ih h
    obtain ⟨i, bs, hi, hib, rfl, rfl⟩ := applyOp_ok_iff.mp hop
    exact ⟨i :: is, .cons hi hw, List.forall_mem_cons.mpr ⟨hib, hin⟩, by simp [result]⟩

theorem applyOps_error (h : applyOps base d out = .error e) : ∃ m, e = .err m := by
  induction d, out using applyOps.induct base with
  | case1 out =>
    rw [applyOps] at h
    cases h
  | case2 out cmd d e hop =>
    rw [applyOps_cons, hop] at h
    cases h
    exact applyOp_error hop
  | case3 out cmd d piece rest hop ih =>
    rw [applyOps_cons, hop] at h
    exact ih h

theorem applyOps_ok_iff : applyOps base d [] = .ok out ↔ Yields base d out := by
  constructor
  · intro h
    obtain ⟨is, hw, hin, rfl⟩ := applyOps_ok h
    exact ⟨is, hw, hin, rfl⟩
  · rintro ⟨is, hw, hin, rfl⟩
    have h := applyOps_append hw hin [] []
    rw [List.append_nil, List.nil_append, applyOps] at h
    exact h

theorem Yields.length_lt (h : Yields base (d ++ d') body) (h' : Yields base d out) (hne : d' ≠ []) :
    out.length < body.length := by
  obtain ⟨is, hw, hin, rfl⟩ := h'
  have hall := applyOps_ok_iff.mpr h
  rw [applyOps_append hw hin, List.nil_append] at hall
  obtain ⟨is', hw', hin', rfl⟩ := applyOps_ok hall
  cases hw' with
  | nil => exact absurd rfl hne
  | cons hi _ =>
    have hpos := List.length_pos_iff.mpr (hi.result_ne_nil (hin' _ List.mem_cons_self))
    simp only [result, List.length_append, List.map_cons, List.flatten_cons]
    omega

end Loop

section Whole

variable {base delta out d d' body body' : Bytes} {n m n' m' : ℕ} {e : DeltaStop}

theorem varintFrom_error {shift v : ℕ} (h : varintFrom shift v d = .error e) :
    ∃ m, e = .err m := by
  induction d generalizing shift v with
  | nil =>
    cases h
    exact ⟨_, rfl⟩
  | cons b d ih =>
    rw [varintFrom] at h
    split_ifs at h
    · cases h
      exact ⟨_, rfl⟩
    · exact ih h

theorem Headers.unique (h : Headers delta n m body) (h' : Headers delta n' m' body') :
    n = n' ∧ m = m' ∧ body = body' := by
  obtain ⟨h₁, h₂, rfl, hn, hm⟩ := h
  obtain ⟨h₁', h₂', heq, hn', hm'⟩ := h'
  obtain ⟨rfl, hrest⟩ := hn.1.append_inj hn'.1 heq
  obtain ⟨rfl, hbody⟩ := hm.1.append_inj hm'.1 hrest
  exact ⟨rfl, rfl, hbody⟩

theorem Headers.append (h : Headers delta n m body) (d : Bytes) :
    Headers (delta ++ d) n m (body ++ d) := by
  obtain ⟨h₁, h₂, rfl, hn, hm⟩ := h
  exact ⟨h₁, h₂, by simp, hn, hm⟩

theorem Headers.applyDelta (h : Headers delta n m body) :
    applyDelta base delta =
      if n % 2 ^ 64 ≠ base.length then .error (.err "delta base size mismatch")
      else if isizeMax < m % 2 ^ 64 then .error .capacityOverflow
      else applyOps base body [] >>= fun out =>
        if out.length ≠ m % 2 ^ 64 then .error (.err "delta result size mismatch")
        else .ok out := by
  obtain ⟨h₁, h₂, rfl, hn, hm⟩ := h
  have hv₁ : varint (h₁ ++ (h₂ ++ body)) = .ok (n % 2 ^ 64, h₂ ++ body) :=
    varint_ok_iff.mpr ⟨h₁, n, hn, rfl, rfl⟩
  have hv₂ : varint (h₂ ++ body) = .ok (m % 2 ^ 64, body) := varint_ok_iff.mpr ⟨h₂, m, hm, rfl, rfl⟩
  rw [Remote.applyDelta, hv₁, ok_bind]
  simp only [hv₂, ok_bind]

theorem deltaResultSize_of_headers (h : Headers delta n m body) :
    deltaResultSize delta = .ok (m % 2 ^ 64) := by
  obtain ⟨h₁, h₂, rfl, hn, hm⟩ := h
  have hv₁ : varint (h₁ ++ (h₂ ++ body)) = .ok (n % 2 ^ 64, h₂ ++ body) :=
    varint_ok_iff.mpr ⟨h₁, n, hn, rfl, rfl⟩
  have hv₂ : varint (h₂ ++ body) = .ok (m % 2 ^ 64, body) := varint_ok_iff.mpr ⟨h₂, m, hm, rfl, rfl⟩
  rw [deltaResultSize, hv₁, ok_bind]
  simp only [hv₂, ok_bind]

/-- Without both headers nothing comes out but an error, and the base is compared first. -/
theorem applyDelta_headers (h : ∀ m, applyDelta base delta ≠ .error (.err m)) :
    ∃ n m body, Headers delta n m body := by
  rcases hv₁ : varint delta with e | ⟨v₁, d₁⟩
  · obtain ⟨m, rfl⟩ := varintFrom_error hv₁
    exact absurd (by rw [applyDelta, hv₁]; rfl) (h m)
  rcases hv₂ : varint d₁ with e | ⟨v₂, d₂⟩
  · obtain ⟨m, rfl⟩ := varintFrom_error hv₂
    by_cases hbase : v₁ ≠ base.length
    · refine absurd ?_ (h "delta base size mismatch")
      rw [applyDelta, hv₁, ok_bind]
      simp only [if_pos hbase]
    · refine absurd ?_ (h m)
      rw [applyDelta, hv₁, ok_bind]
      simp only [if_neg hbase, hv₂]
      rfl
  obtain ⟨h₁, n, hn, rfl, -⟩ := varint_ok_iff.mp hv₁
  obtain ⟨h₂, m, hm, rfl, -⟩ := varint_ok_iff.mp hv₂
  exact ⟨n, m, d₂, h₁, h₂, rfl, hn, hm⟩

theorem applyDelta_ok_iff :
    applyDelta base delta = .ok out ↔
      ∃ n m body, Headers delta n m body ∧ n % 2 ^ 64 = base.length ∧ m % 2 ^ 64 = out.length ∧
        out.length ≤ isizeMax ∧ Yields base body out := by
  constructor
  · intro h
    obtain ⟨n, m, body, hh⟩ : ∃ n m body, Headers delta n m body :=
      applyDelta_headers (fun msg herr => by
        rw [h] at herr
        cases herr)
    rw [hh.applyDelta] at h
    split_ifs at h with hn hm
    obtain ⟨out', hops, hlast⟩ := bind_eq_ok h
    split_ifs at hlast with hlen
    cases hlast
    rw [not_not] at hn hlen
    exact ⟨n, m, body, hh, hn, hlen.symm, by omega, applyOps_ok_iff.mp hops⟩
  · rintro ⟨n, m, body, hh, hn, hm, hlen, hy⟩
    rw [hh.applyDelta, if_neg (not_not.mpr hn), if_neg (by omega), applyOps_ok_iff.mpr hy, ok_bind,
      if_neg (not_not.mpr hm.symm)]

theorem applyDelta_overflow_iff :
    applyDelta base delta = .error .capacityOverflow ↔
      ∃ n m body, Headers delta n m body ∧ n % 2 ^ 64 = base.length ∧ isizeMax < m % 2 ^ 64 := by
  constructor
  · intro h
    obtain ⟨n, m, body, hh⟩ : ∃ n m body, Headers delta n m body :=
      applyDelta_headers (fun msg herr => by
        rw [h] at herr
        cases herr)
    rw [hh.applyDelta] at h
    split_ifs at h with hn hm
    · cases h
    · rw [not_not] at hn
      exact ⟨n, m, body, hh, hn, hm⟩
    · rcases bind_eq_error h with h | ⟨out, -, h⟩
      · obtain ⟨msg, hmsg⟩ := applyOps_error h
        cases hmsg
      · split_ifs at h
        cases h
  · rintro ⟨n, m, body, hh, hn, hm⟩
    rw [hh.applyDelta, if_neg (not_not.mpr hn), if_pos hm]

end Whole

section Exactness

variable {base delta out p : Bytes}

/-- Delta application is exact on these inputs: what the delta denotes comes
out, a delta that denotes nothing and every delta that is cut short is an error,
and the size read beforehand is that of the result. -/
structure Exact (base delta : Bytes) : Prop where
  applied : ∀ out, Denotes base delta out → applyDelta base delta = .ok out
  refused : (∀ out, ¬ Denotes base delta out) → ∃ msg, applyDelta base delta = .error (.err msg)
  truncated : ∀ out p, Denotes base delta out → p <+: delta → p ≠ delta →
    ∃ msg, applyDelta base p = .error (.err msg)
  sized : ∀ out, applyDelta base delta = .ok out → deltaResultSize delta = .ok out.length

/-- The declared sizes agree only modulo 2⁶⁴: the base's does, and the result's
either leaves no vector to hold it or is that of the bytes the instructions
give, while one of the two is 2⁶⁴ or more. -/
def SizeWraps (base delta : Bytes) : Prop :=
  ∃ n m body, Headers delta n m body ∧ n % 2 ^ 64 = base.length ∧
    (isizeMax < m % 2 ^ 64 ∨
      (2 ^ 64 ≤ n ∨ 2 ^ 64 ≤ m) ∧ ∃ out, Yields base body out ∧ out.length = m % 2 ^ 64)

theorem applyDelta_of_denotes (hbase : base.length ≤ isizeMax) (h : Denotes base delta out) :
    applyDelta base delta = .ok out := by
  obtain ⟨hlen, body, hh, hy⟩ := h
  have hmod {k : ℕ} (hk : k ≤ isizeMax) : k % 2 ^ 64 = k :=
    Nat.mod_eq_of_lt (hk.trans_lt (by decide))
  exact applyDelta_ok_iff.mpr ⟨_, _, body, hh, hmod hbase, hmod hlen, hlen, hy⟩

theorem applyDelta_of_prefix (h : Denotes base delta out) (hp : p <+: delta) (hne : p ≠ delta) :
    ∃ msg, applyDelta base p = .error (.err msg) := by
  obtain ⟨hlen, body, hh, hy⟩ := h
  obtain ⟨q, rfl⟩ := hp
  have hq : q ≠ [] := by
    rintro rfl
    exact hne (List.append_nil p).symm
  have hmod : out.length % 2 ^ 64 = out.length := Nat.mod_eq_of_lt (hlen.trans_lt (by decide))
  rcases happ : applyDelta base p with (msg | _) | out'
  · exact ⟨msg, rfl⟩
  · obtain ⟨n, m, body', hh', -, hm⟩ := applyDelta_overflow_iff.mp happ
    obtain ⟨-, rfl, -⟩ := (hh'.append q).unique hh
    omega
  · obtain ⟨n, m, body', hh', -, hm, -, hy'⟩ := applyDelta_ok_iff.mp happ
    obtain ⟨-, rfl, rfl⟩ := (hh'.append q).unique hh
    have hlt := hy.length_lt hy' hq
    omega

theorem not_exact_of_wraps (h : SizeWraps base delta) : ¬ Exact base delta := by
  obtain ⟨n, m, body, hh, hn, hwrong⟩ := h
  intro hexact
  have hno : ¬ ∃ out, Denotes base delta out := by
    rintro ⟨out, hlen, body', hh', -⟩
    obtain ⟨rfl, rfl, -⟩ := hh.unique hh'
    have hmax : isizeMax < 2 ^ 64 := by decide
    rcases hwrong with hm | ⟨hbig, -⟩
    · have hle := Nat.mod_le out.length (2 ^ 64)
      omega
    · omega
  obtain ⟨msg, herr⟩ := hexact.refused (fun out hd => hno ⟨out, hd⟩)
  by_cases hm : isizeMax < m % 2 ^ 64
  · rw [applyDelta_overflow_iff.mpr ⟨n, m, body, hh, hn, hm⟩] at herr
    cases herr
  · obtain ⟨-, out, hy, hlen⟩ := hwrong.resolve_left hm
    rw [applyDelta_ok_iff.mpr ⟨n, m, body, hh, hn, hlen.symm, by omega, hy⟩] at herr
    cases herr

theorem exact_of_not_wraps (hbase : base.length ≤ isizeMax) (h : ¬ SizeWraps base delta) :
    Exact base delta := by
  refine ⟨fun out hd => applyDelta_of_denotes hbase hd, fun hno => ?_,
    fun out p hd hp hne => applyDelta_of_prefix hd hp hne, fun out happ => ?_⟩
  · rcases happ : applyDelta base delta with (msg | _) | out
    · exact ⟨msg, rfl⟩
    · obtain ⟨n, m, body, hh, hn, hm⟩ := applyDelta_overflow_iff.mp happ
      exact absurd ⟨n, m, body, hh, hn, .inl hm⟩ h
    · obtain ⟨n, m, body, hh, hn, hm, hlen, hy⟩ := applyDelta_ok_iff.mp happ
      have hsmall : ¬ (2 ^ 64 ≤ n ∨ 2 ^ 64 ≤ m) := fun hbig =>
        h ⟨n, m, body, hh, hn, .inr ⟨hbig, out, hy, hm.symm⟩⟩
      rw [not_or, not_le, not_le] at hsmall
      rw [Nat.mod_eq_of_lt hsmall.1] at hn
      rw [Nat.mod_eq_of_lt hsmall.2] at hm
      subst hn hm
      exact absurd ⟨hlen, body, hh, hy⟩ (hno out)
  · obtain ⟨n, m, body, hh, -, hm, -⟩ := applyDelta_ok_iff.mp happ
    rw [deltaResultSize_of_headers hh, hm]

/-- Exactly the sizes that agree modulo 2⁶⁴ only are taken for right. -/
theorem applyDelta_exact_iff (base delta : Bytes) (hbase : base.length ≤ isizeMax) :
    Exact base delta ↔ ¬ SizeWraps base delta :=
  ⟨fun hexact hwraps => not_exact_of_wraps hwraps hexact, exact_of_not_wraps hbase⟩

theorem applyDelta_exact_iff_copy_insert :
    Exact [97, 98] [2, 3, 0x90, 2, 1, 99] ∧ ¬ SizeWraps [97, 98] [2, 3, 0x90, 2, 1, 99] := by
  have hsmall {b : UInt8} (hb : b.toNat < 128) : SizeHeader [b] b.toNat :=
    ⟨.last hb, by simp⟩
  have hheaders : Headers [2, 3, 0x90, 2, 1, 99] 2 3 [0x90, 2, 1, 99] :=
    ⟨[2], [3], rfl, hsmall (by decide), hsmall (by decide)⟩
  have hsizes : ¬ SizeWraps [97, 98] [2, 3, 0x90, 2, 1, 99] := by
    rintro ⟨n, m, body, hh, -, hwrong⟩
    obtain ⟨rfl, rfl, -⟩ := hh.unique hheaders
    rcases hwrong with hm | ⟨hbig, -⟩
    · revert hm
      decide
    · omega
  exact ⟨(applyDelta_exact_iff _ _ (by decide)).mpr hsizes, hsizes⟩

/-- The size 2⁶⁴ in ten bytes. -/
def wrappedSize : Bytes := List.replicate 9 0x80 ++ [0x02]

/-- The size 2⁶³ in ten bytes. -/
def hugeSize : Bytes := List.replicate 9 0x80 ++ [0x01]

theorem sizeHeader_ten {b : UInt8} (hb : b.toNat < 128) :
    SizeHeader (List.replicate 9 0x80 ++ [b]) (2 ^ 63 * b.toNat) := by
  have hzero {bs : Bytes} {n : ℕ} (h : Leb128.Reads bs n) :
      Leb128.Reads (0x80 :: bs) (128 * n) := by
    have hmore := Leb128.Reads.more (b := 0x80) (by decide) h
    rwa [show (0x80 : UInt8).toNat % 128 = 0 from rfl, Nat.zero_add] at hmore
  have hten := hzero (hzero (hzero (hzero (hzero (hzero (hzero (hzero (hzero (.last hb)))))))))
  have hval : 2 ^ 63 * b.toNat =
      128 * (128 * (128 * (128 * (128 * (128 * (128 * (128 * (128 * b.toNat)))))))) := by
    ring
  exact ⟨hval ▸ hten, by simp⟩

/-- A delta for a base of 2⁶⁴ bytes applies to the empty one, and a declared
result of 2⁶³ bytes is a panic and not an error. -/
theorem wrapped_size_applied :
    applyDelta [] (wrappedSize ++ [0x00]) = .ok [] ∧ ¬ Exact [] (wrappedSize ++ [0x00]) ∧
      applyDelta [] (0x00 :: hugeSize) = .error .capacityOverflow ∧
      ¬ Exact [] (0x00 :: hugeSize) := by
  have hzero : SizeHeader [0x00] 0 := ⟨.last (b := 0x00) (by decide), by simp⟩
  have hwrapped : Headers (wrappedSize ++ [0x00]) (2 ^ 64) 0 [] :=
    ⟨wrappedSize, [0x00], rfl, sizeHeader_ten (b := 0x02) (by decide), hzero⟩
  have hhuge : Headers (0x00 :: hugeSize) 0 (2 ^ 63) [] :=
    ⟨[0x00], hugeSize, by simp, hzero, sizeHeader_ten (b := 0x01) (by decide)⟩
  have hnil : Yields [] [] [] := ⟨[], .nil, by simp, rfl⟩
  refine ⟨applyDelta_ok_iff.mpr ⟨_, _, _, hwrapped, rfl, rfl, by decide, hnil⟩,
    not_exact_of_wraps ⟨_, _, _, hwrapped, rfl, .inr ⟨.inl le_rfl, [], hnil, rfl⟩⟩,
    applyDelta_overflow_iff.mpr ⟨_, _, _, hhuge, rfl, by decide⟩,
    not_exact_of_wraps ⟨_, _, _, hhuge, rfl, .inl (by decide)⟩⟩

end Exactness

end Walgit.Remote
