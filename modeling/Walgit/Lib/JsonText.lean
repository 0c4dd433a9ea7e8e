import Mathlib

/-!
# Scanning JSON text

The text of a compact JSON value is read one character at a time, with the
nesting depth, whether a string is open, and the number of commas met at
depth one. The text of a value inside an object or array leaves the scan as it
was, so a whole object's commas count its fields, whatever the values are.
-/

namespace Walgit.JsonText

inductive Mode
  | plain | quoted | escaped
  deriving DecidableEq, Repr

structure Scan where
  depth : ℕ
  mode : Mode
  commas : ℕ
  deriving DecidableEq, Repr

def Scan.init : Scan := ⟨0, .plain, 0⟩

def Scan.stepPlain (s : Scan) (c : Char) : Scan :=
  if c = '"' then { s with mode := .quoted }
  else if c = '[' ∨ c = '\x7b' then { s with depth := s.depth + 1 }
  else if c = ']' ∨ c = '\x7d' then { s with depth := s.depth - 1 }
  else if c = ',' ∧ s.depth = 1 then { s with commas := s.commas + 1 }
  else s

def Scan.step (s : Scan) (c : Char) : Scan :=
  match s.mode with
  | .plain => s.stepPlain c
  | .quoted =>
    if c = '"' then { s with mode := .plain }
    else if c = '\\' then { s with mode := .escaped }
    else s
  | .escaped => { s with mode := .quoted }

def scan (s : Scan) (text : List Char) : Scan := text.foldl Scan.step s

/-- The characters of a number or a literal. -/
def plainChar (c : Char) : Bool := c ∉ ['"', '[', '\x7b', ']', '\x7d', ',']

def hexDigits (n : ℕ) : List Char :=
  [Nat.digitChar (n / 4096 % 16), Nat.digitChar (n / 256 % 16), Nat.digitChar (n / 16 % 16),
    Nat.digitChar (n % 16)]

def unicodeEscape (n : ℕ) : List Char := '\\' :: 'u' :: hexDigits n

/-- A character inside a string; what has no short form is written as it is from space on. -/
def escape (c : Char) : List Char :=
  if c = '"' then ['\\', '"']
  else if c = '\\' then ['\\', '\\']
  else if c.toNat = 8 then ['\\', 'b']
  else if c.toNat = 9 then ['\\', 't']
  else if c.toNat = 10 then ['\\', 'n']
  else if c.toNat = 12 then ['\\', 'f']
  else if c.toNat = 13 then ['\\', 'r']
  else if c.toNat < 32 then unicodeEscape c.toNat
  else [c]

def quoteWith (body : List Char) : List Char := '"' :: (body ++ ['"'])

def quote (cs : List Char) : List Char := quoteWith (cs.flatMap escape)

def bracket (opening closing : Char) (parts : List (List Char)) : List Char :=
  opening :: (List.intercalate [','] parts ++ [closing])

/-- Text that leaves a scan inside an object or array as it was. -/
def Neutral (text : List Char) : Prop :=
  ∀ s : Scan, s.mode = .plain → 1 ≤ s.depth → scan s text = s

/-- Text that leaves a scan inside a string as it was. -/
def Inert (text : List Char) : Prop := ∀ s : Scan, s.mode = .quoted → scan s text = s

variable {s : Scan} {text text' : List Char}

theorem scan_append : scan s (text ++ text') = scan (scan s text) text' := List.foldl_append

@[simp] theorem scan_nil : scan s [] = s := rfl

@[simp] theorem scan_cons {c : Char} : scan s (c :: text) = scan (s.step c) text := rfl

theorem Neutral.append (h : Neutral text) (h' : Neutral text') : Neutral (text ++ text') := by
  intro s hm hd
  rw [scan_append, h s hm hd, h' s hm hd]

theorem Inert.append (h : Inert text) (h' : Inert text') : Inert (text ++ text') := by
  intro s hm
  rw [scan_append, h s hm, h' s hm]

theorem inert_nil : Inert [] := fun _ _ => rfl

theorem neutral_of_plain (h : ∀ c ∈ text, plainChar c = true) : Neutral text := by
  intro s hm hd
  induction text with
  | nil => rfl
  | cons c cs ih =>
    have hc := h c List.mem_cons_self
    simp only [plainChar, List.mem_cons, List.not_mem_nil, or_false, not_or,
      decide_eq_true_eq] at hc
    have hstep : s.step c = s := by simp [Scan.step, Scan.stepPlain, hm, hc]
    rw [scan_cons, hstep]
    exact ih fun x hx => h x (List.mem_cons_of_mem c hx)

theorem inert_char {c : Char} (hq : c ≠ '"') (hb : c ≠ '\\') : Inert [c] := by
  intro s hm
  simp [Scan.step, hm, hq, hb]

theorem inert_escaped (c : Char) : Inert ['\\', c] := by
  intro s hm
  obtain ⟨depth, mode, commas⟩ := s
  obtain rfl : mode = .quoted := hm
  simp [Scan.step]

theorem digitChar_ne {n : ℕ} (h : n < 16) : Nat.digitChar n ≠ '"' ∧ Nat.digitChar n ≠ '\\' := by
  interval_cases n <;> decide

theorem inert_hexDigits (n : ℕ) : Inert (hexDigits n) := by
  have digit : ∀ m, Inert [Nat.digitChar (m % 16)] := fun m =>
    have hd := digitChar_ne (Nat.mod_lt m (by decide : 16 > 0))
    inert_char hd.1 hd.2
  exact (((digit _).append (digit _)).append (digit _)).append (digit n)

theorem inert_unicodeEscape (n : ℕ) : Inert (unicodeEscape n) :=
  (inert_escaped 'u').append (inert_hexDigits n)

theorem inert_escape (c : Char) : Inert (escape c) := by
  unfold escape
  split_ifs with hq hb
  · exact inert_escaped _
  · exact inert_escaped _
  · exact inert_escaped _
  · exact inert_escaped _
  · exact inert_escaped _
  · exact inert_escaped _
  · exact inert_escaped _
  · exact inert_unicodeEscape _
  · exact inert_char hq hb

theorem inert_flatMap {α : Type} {f : α → List Char} {xs : List α} (h : ∀ x ∈ xs, Inert (f x)) :
    Inert (xs.flatMap f) := by
  induction xs with
  | nil => exact inert_nil
  | cons x xs ih =>
    rw [List.flatMap_cons]
    exact (h x List.mem_cons_self).append (ih fun y hy => h y (List.mem_cons_of_mem x hy))

theorem neutral_quoteWith {body : List Char} (h : Inert body) : Neutral (quoteWith body) := by
  intro s hm _
  obtain ⟨depth, mode, commas⟩ := s
  obtain rfl : mode = .plain := hm
  have hopen : Scan.step ⟨depth, .plain, commas⟩ '"' = ⟨depth, .quoted, commas⟩ := by
    simp [Scan.step, Scan.stepPlain]
  rw [quoteWith, scan_cons, hopen, scan_append, h _ rfl]
  simp [Scan.step]

theorem neutral_quote (cs : List Char) : Neutral (quote cs) :=
  neutral_quoteWith (inert_flatMap fun c _ => inert_escape c)

theorem scan_intercalate {parts : List (List Char)} (h : ∀ p ∈ parts, Neutral p) {d n : ℕ} :
    scan ⟨d + 1, .plain, n⟩ (List.intercalate [','] parts) =
      ⟨d + 1, .plain, if d = 0 then n + (parts.length - 1) else n⟩ := by
  induction parts generalizing n with
  | nil => simp [List.intercalate]
  | cons p ps ih =>
    have hp := h p List.mem_cons_self
    have hps := fun q hq => h q (List.mem_cons_of_mem p hq)
    cases ps with
    | nil =>
      have hone : List.intercalate [','] [p] = p := by simp [List.intercalate]
      rw [hone, hp _ rfl (by simp)]
      simp
    | cons q qs =>
      have hcons : List.intercalate [','] (p :: q :: qs) =
          p ++ (',' :: List.intercalate [','] (q :: qs)) := by
        simp [List.intercalate, List.intersperse_cons_cons]
      have hcomma : Scan.step ⟨d + 1, .plain, n⟩ ',' =
          ⟨d + 1, .plain, if d = 0 then n + 1 else n⟩ := by
        by_cases hd : d = 0 <;> simp [Scan.step, Scan.stepPlain, hd]
      rw [hcons, scan_append, hp _ rfl (by simp), scan_cons, hcomma, ih hps]
      by_cases hd : d = 0
      · simp only [hd, if_true, List.length_cons]
        congr 1
        omega
      · simp [hd]

def Brackets (opening closing : Char) : Prop :=
  (opening = '[' ∧ closing = ']') ∨ (opening = '\x7b' ∧ closing = '\x7d')

theorem scan_bracket {opening closing : Char} (hb : Brackets opening closing)
    {parts : List (List Char)} (h : ∀ p ∈ parts, Neutral p) {d n : ℕ} :
    scan ⟨d, .plain, n⟩ (bracket opening closing parts) =
      ⟨d, .plain, if d = 0 then n + (parts.length - 1) else n⟩ := by
  have hopen : Scan.step ⟨d, .plain, n⟩ opening = ⟨d + 1, .plain, n⟩ := by
    obtain ⟨rfl, -⟩ | ⟨rfl, -⟩ := hb <;> simp [Scan.step, Scan.stepPlain]
  have hclose : ∀ m, Scan.step ⟨d + 1, .plain, m⟩ closing = ⟨d, .plain, m⟩ := by
    intro m
    obtain ⟨-, rfl⟩ | ⟨-, rfl⟩ := hb <;> simp [Scan.step, Scan.stepPlain]
  rw [bracket, scan_cons, hopen, scan_append, scan_intercalate h, scan_cons, hclose, scan_nil]

theorem neutral_bracket {opening closing : Char} (hb : Brackets opening closing)
    {parts : List (List Char)} (h : ∀ p ∈ parts, Neutral p) :
    Neutral (bracket opening closing parts) := by
  intro s hm hd
  obtain ⟨depth, mode, commas⟩ := s
  obtain rfl : mode = .plain := hm
  have hne : depth ≠ 0 := Nat.one_le_iff_ne_zero.mp hd
  rw [scan_bracket hb h, if_neg hne]

end Walgit.JsonText
