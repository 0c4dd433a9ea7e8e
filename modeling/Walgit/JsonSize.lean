import Mathlib.Data.String.Basic
import Walgit.Canonical
import Walgit.Ci

/-!
# The size of compact JSON

The cap on a body is checked by a walk that subtracts what each value adds to
the text and stops once the budget is exceeded. What it subtracts in all is the
length in bytes of the text that `serde_json` writes.
-/

namespace Walgit.Json

open JsonText

mutual

/-- `serde_json::to_string`: without blanks, the fields of an object as they are held. -/
def compact : Json → List Char
  | .null => "null".toList
  | .bool b => if b then "true".toList else "false".toList
  | .int n => (toString n).toList
  | .float text => text.toList
  | .string s => quote s.toList
  | .array items => bracket '[' ']' (compactItems items)
  | .object fields => bracket '\x7b' '\x7d' (compactFields fields)

def compactItems : List Json → List (List Char)
  | [] => []
  | v :: vs => compact v :: compactItems vs

def compactFields : List (String × Json) → List (List Char)
  | [] => []
  | (k, v) :: fs => Collab.field (quote k.toList) (compact v) :: compactFields fs

end

def byteLen (text : List Char) : ℕ := (String.ofList text).utf8ByteSize

section Texts

variable {c opening closing : Char} {text text' : List Char} {parts : List (List Char)}

theorem byteLen_nil : byteLen [] = 0 := rfl

theorem byteLen_cons : byteLen (c :: text) = byteLen text + c.utf8Size := by
  simp [byteLen, String.utf8ByteSize_ofList, Nat.add_comm]

theorem byteLen_append : byteLen (text ++ text') = byteLen text + byteLen text' := by
  simp [byteLen, String.utf8ByteSize_ofList]

theorem byteLen_of_ascii (h : ∀ c ∈ text, c.utf8Size = 1) : byteLen text = text.length := by
  induction text with
  | nil => rfl
  | cons c text ih =>
    rw [List.forall_mem_cons] at h
    rw [byteLen_cons, ih h.2, h.1, List.length_cons]

theorem digitChar_size {n : ℕ} (h : n < 16) : (Nat.digitChar n).utf8Size = 1 := by
  interval_cases n <;> decide

theorem byteLen_unicodeEscape (n : ℕ) : byteLen (unicodeEscape n) = 6 := by
  have digit : ∀ m, (Nat.digitChar (m % 16)).utf8Size = 1 := fun m =>
    digitChar_size (Nat.mod_lt m (by decide))
  rw [byteLen_of_ascii]
  · rfl
  · simp only [unicodeEscape, hexDigits, List.forall_mem_cons, digit]
    exact ⟨by decide, by decide, trivial, trivial, trivial, trivial, List.forall_mem_nil _⟩

theorem byteLen_escape : byteLen (escape c) = escapedLen c := by
  have short : ∀ e : Char, e.utf8Size = 1 → byteLen ['\\', e] = 2 := by
    intro e he
    have hslash : '\\'.utf8Size = 1 := by decide
    rw [byteLen_cons, byteLen_cons, byteLen_nil, he, hslash]
  by_cases hshort : c = '"' ∨ c = '\\' ∨ c.toNat ∈ [8, 9, 10, 12, 13]
  · rw [escapedLen, if_pos hshort]
    unfold escape
    split_ifs with h1 h2 h3 h4 h5 h6 h7
    · exact short _ (by decide)
    · exact short _ (by decide)
    · exact short _ (by decide)
    · exact short _ (by decide)
    · exact short _ (by decide)
    · exact short _ (by decide)
    · exact short _ (by decide)
    · simp_all
    · simp_all
  · simp only [not_or, List.mem_cons, List.not_mem_nil, not_false_eq_true, and_true] at hshort
    obtain ⟨h1, h2, h3, h4, h5, h6, h7⟩ := hshort
    simp only [escape, escapedLen, h1, h2, h3, h4, h5, h6, h7, if_false, List.mem_cons, or_false,
      List.not_mem_nil]
    split_ifs
    · exact byteLen_unicodeEscape _
    · rw [byteLen_cons, byteLen_nil, Nat.zero_add]

theorem byteLen_quote (s : String) : byteLen (quote s.toList) = stringCost s := by
  have hbody : ∀ cs : List Char, byteLen (cs.flatMap escape) = (cs.map escapedLen).sum := by
    intro cs
    induction cs with
    | nil => rfl
    | cons c cs ih => rw [List.flatMap_cons, byteLen_append, byteLen_escape, ih, List.map_cons,
        List.sum_cons]
  rw [quote, quoteWith, byteLen_cons, byteLen_append, hbody, stringCost, byteLen_cons, byteLen_nil]
  have hquote : '"'.utf8Size = 1 := by decide
  omega

theorem byteLen_intercalate :
    byteLen (List.intercalate [','] parts) = (parts.length - 1) + (parts.map byteLen).sum := by
  have hcommas : ∀ ps : List (List Char),
      byteLen (ps.flatMap (',' :: ·)) = ps.length + (ps.map byteLen).sum := by
    intro ps
    induction ps with
    | nil => rfl
    | cons p ps ih =>
      have hcomma : ','.utf8Size = 1 := by decide
      rw [List.flatMap_cons, byteLen_append, byteLen_cons, ih, List.map_cons, List.sum_cons,
        List.length_cons]
      omega
  cases parts with
  | nil => rfl
  | cons p ps =>
    rw [intercalate_cons, byteLen_append, hcommas, List.map_cons, List.sum_cons, List.length_cons]
    omega

theorem byteLen_bracket (hb : Brackets opening closing) :
    byteLen (bracket opening closing parts) =
      2 + (parts.length - 1) + (parts.map byteLen).sum := by
  have hsize : opening.utf8Size = 1 ∧ closing.utf8Size = 1 := by
    rcases hb with ⟨rfl, rfl⟩ | ⟨rfl, rfl⟩ <;> decide
  rw [bracket, byteLen_cons, byteLen_append, byteLen_intercalate, byteLen_cons, byteLen_nil]
  omega

end Texts

section Walks

variable {r a b : ℕ}

theorem spend_spend : (spend r a).bind (fun r => spend r b) = spend r (a + b) := by
  unfold spend
  split_ifs <;> simp <;> omega

theorem length_compactItems (vs : List Json) : (compactItems vs).length = vs.length := by
  induction vs with
  | nil => rfl
  | cons v vs ih => rw [compactItems, List.length_cons, ih, List.length_cons]

theorem length_compactFields (fs : List (String × Json)) :
    (compactFields fs).length = fs.length := by
  induction fs with
  | nil => rfl
  | cons f fs ih => rw [compactFields, List.length_cons, ih, List.length_cons]

/-- The bytes of the keys, and of the values, of an object. -/
def keysLen (fs : List (String × Json)) : ℕ := (fs.map fun f => stringCost f.1).sum

def valuesLen (fs : List (String × Json)) : ℕ := (fs.map fun f => byteLen (compact f.2)).sum

theorem byteLen_compactFields (fs : List (String × Json)) :
    ((compactFields fs).map byteLen).sum = fs.length + valuesLen fs + keysLen fs := by
  induction fs with
  | nil => rfl
  | cons f fs ih =>
    have hcolon : ':'.utf8Size = 1 := by decide
    simp only [compactFields, List.map_cons, List.sum_cons, ih, Collab.field, byteLen_append,
      byteLen_cons, byteLen_quote, valuesLen, keysLen, List.length_cons]
    omega

theorem walkKeys_eq (fs : List (String × Json)) : walkKeys r fs = spend r (keysLen fs) := by
  induction fs generalizing r with
  | nil => simp [walkKeys, keysLen, spend]
  | cons f fs ih =>
    simp only [walkKeys, ih]
    rw [spend_spend, keysLen, keysLen, List.map_cons, List.sum_cons]

theorem numberChar_ascii {c : Char} (h : numberChar c = true) : c.utf8Size = 1 := by
  rw [Char.utf8Size_eq_one_iff]
  rw [numberChar, Bool.or_eq_true, decide_eq_true_eq] at h
  rcases h with h | h
  · simp only [Char.isDigit, Bool.and_eq_true, decide_eq_true_eq] at h
    exact UInt32.le_trans h.2 (by decide)
  · simp only [List.mem_cons, List.not_mem_nil, or_false] at h
    rcases h with rfl | rfl | rfl | rfl | rfl <;> decide

theorem byteLen_number {text : List Char} (h : ∀ c ∈ text, numberChar c = true) :
    byteLen text = text.length :=
  byteLen_of_ascii fun c hc => numberChar_ascii (h c hc)

mutual

theorem walk_eq : ∀ v, Valid v → ∀ r, walk r v = spend r (byteLen (compact v))
  | .null, _, r => rfl
  | .bool b, _, r => by cases b <;> rfl
  | .int n, _, r => by
    rw [walk, compact, byteLen_number fun _ => Collab.numberChar_of_int]
    rfl
  | .float text, hv, r => by
    rw [walk, compact, byteLen_number hv.chars]
    rfl
  | .string s, _, r => by
    rw [walk, compact, byteLen_quote]
    rfl
  | .array items, hv, r => by
    rw [walk, compact, byteLen_bracket Collab.brackets_array, length_compactItems]
    simp only [walkItems_eq items hv]
    exact spend_spend
  | .object fields, hv, r => by
    rw [walk, compact, byteLen_bracket Collab.brackets_object, length_compactFields,
      byteLen_compactFields]
    simp only [walkFields_eq fields hv.2, walkKeys_eq, spend_spend]
    rw [cost]
    congr 1
    omega

theorem walkItems_eq : ∀ vs, ValidItems vs → ∀ r,
    walkItems r vs = spend r ((compactItems vs).map byteLen).sum
  | [], _, r => by simp [walkItems, compactItems, spend]
  | v :: vs, h, r => by
    rw [walkItems, walk_eq v h.1]
    simp only [walkItems_eq vs h.2]
    rw [spend_spend, compactItems, List.map_cons, List.sum_cons]

theorem walkFields_eq : ∀ fs, ValidFields fs → ∀ r, walkFields r fs = spend r (valuesLen fs)
  | [], _, r => by simp [walkFields, valuesLen, spend]
  | (k, v) :: fs, h, r => by
    rw [walkFields, walk_eq v h.1]
    simp only [walkFields_eq fs h.2]
    rw [spend_spend, valuesLen, valuesLen, List.map_cons, List.sum_cons]

end

/-- A value fits a budget exactly when its compact text has at most that many bytes. -/
theorem fits_iff_byteLen (v : Json) (hv : Valid v) (budget : ℕ) :
    fits v budget = true ↔ byteLen (compact v) ≤ budget := by
  rw [fits, walk_eq v hv, spend]
  split_ifs with h <;> simp [h]

/-- Keys and strings that need escapes, a character of three bytes, and empty containers. -/
def tricky : Json :=
  .object [("a\n", .string "q\"中"), ("b", .array [.int (-1), .bool true, .array [], .float "3.5"])]

/-- The walk meets the length of the text to the byte. -/
theorem tricky_fits : fits tricky 37 = true ∧ fits tricky 36 = false := by
  have hfloat : FloatText "3.5" := ⟨List.all_eq_true.mp (by decide), .inl (by decide)⟩
  have hv : Valid tricky :=
    ⟨by decide, trivial, ⟨trivial, trivial, trivial, hfloat, trivial⟩, trivial⟩
  have hlen : byteLen (compact tricky) = 37 := by decide
  refine ⟨(fits_iff_byteLen tricky hv 37).mpr (by rw [hlen]), ?_⟩
  rw [← Bool.not_eq_true, fits_iff_byteLen tricky hv, hlen]
  decide

end Walks

end Walgit.Json
