import Walgit.Lib.JsonText

/-!
# JSON text has one reading

Two compact texts, each followed by the end, a comma or a closing bracket, that
are equal are texts of the same parts followed by the same rest. For quoted
strings and bracketed lists this is so whatever follows; a number ends where
the characters of numbers do.
-/

namespace Walgit.JsonText

/-- The end of the text, or what can stand after a value in an array or an object. -/
def Ends (text : List Char) : Prop := ∀ c ∈ text.head?, c = ',' ∨ c = ']' ∨ c = '\x7d'

theorem ends_nil : Ends [] := nofun

theorem ends_cons {c : Char} {text : List Char} (h : c = ',' ∨ c = ']' ∨ c = '\x7d') :
    Ends (c :: text) := fun _ hd => by cases hd; exact h

section Runs

variable {p : Char → Bool} {t t' r r' : List Char}

theorem run_append_inj (ht : ∀ c ∈ t, p c = true) (ht' : ∀ c ∈ t', p c = true)
    (hr : ∀ c ∈ r.head?, p c = false) (hr' : ∀ c ∈ r'.head?, p c = false)
    (h : t ++ r = t' ++ r') : t = t' ∧ r = r' := by
  have htake : ∀ {u v : List Char}, (∀ c ∈ u, p c = true) → (∀ c ∈ v.head?, p c = false) →
      (u ++ v).takeWhile p = u := by
    intro u v hu hv
    rw [List.takeWhile_append_of_pos hu]
    cases v with
    | nil => simp
    | cons c v => simp [hv c rfl]
  have heq : t = t' := by rw [← htake ht hr, h, htake ht' hr']
  subst heq
  exact ⟨rfl, List.append_cancel_left h⟩

end Runs

section Strings

variable {c d : Char} {cs ds r s : List Char}

def hexValue (c : Char) : ℕ := if c.isDigit then c.toNat - 48 else c.toNat - 87

/-- The character that a short escape stands for. -/
def shortValue (c : Char) : Char :=
  if c = 'b' then Char.ofNat 8
  else if c = 't' then Char.ofNat 9
  else if c = 'n' then Char.ofNat 10
  else if c = 'f' then Char.ofNat 12
  else if c = 'r' then Char.ofNat 13
  else c

/-- One character read back from inside a string. -/
def unescape : List Char → Option (Char × List Char)
  | [] => none
  | c :: text =>
    if c = '\\' then
      match text with
      | 'u' :: _ :: _ :: x :: y :: rest => some (Char.ofNat (16 * hexValue x + hexValue y), rest)
      | e :: rest => some (shortValue e, rest)
      | [] => none
    else some (c, text)

theorem hexValue_digitChar {n : ℕ} (h : n < 16) : hexValue (Nat.digitChar n) = n := by
  interval_cases n <;> rfl

theorem unescape_short {e : Char} (he : e ≠ 'u') :
    unescape (['\\', e] ++ r) = some (shortValue e, r) := by
  simp [unescape, he]

theorem unescape_unicode {n : ℕ} (h : n < 256) :
    unescape (unicodeEscape n ++ r) = some (Char.ofNat n, r) := by
  have hn : 16 * (n / 16 % 16) + n % 16 = n := by omega
  have hhigh : hexValue (Nat.digitChar (n / 16 % 16)) = n / 16 % 16 :=
    hexValue_digitChar (by omega)
  have hlow : hexValue (Nat.digitChar (n % 16)) = n % 16 := hexValue_digitChar (by omega)
  simp [unescape, unicodeEscape, hexDigits, hhigh, hlow, hn]

theorem unescape_escape : unescape (escape c ++ r) = some (c, r) := by
  have hchar : ∀ n, c.toNat = n → Char.ofNat n = c := by
    rintro n rfl
    exact Char.ofNat_toNat c
  unfold escape
  split_ifs with hq hb h8 h9 h10 h12 h13 h32
  · rw [unescape_short (by decide), hq]
    rfl
  · rw [unescape_short (by decide), hb]
    rfl
  · rw [unescape_short (by decide), ← hchar 8 h8]
    rfl
  · rw [unescape_short (by decide), ← hchar 9 h9]
    rfl
  · rw [unescape_short (by decide), ← hchar 10 h10]
    rfl
  · rw [unescape_short (by decide), ← hchar 12 h12]
    rfl
  · rw [unescape_short (by decide), ← hchar 13 h13]
    rfl
  · rw [unescape_unicode (by omega), hchar _ rfl]
  · simp [unescape, hb]

theorem escape_append_inj (h : escape c ++ r = escape d ++ s) : c = d ∧ r = s := by
  have heq := congrArg unescape h
  rw [unescape_escape, unescape_escape] at heq
  exact Prod.mk.inj (Option.some.inj heq)

theorem escape_append_ne : escape c ++ r ≠ '"' :: s := by
  intro h
  have hhead := congrArg List.head? h
  unfold escape at hhead
  split_ifs at hhead with hq <;> simp [unicodeEscape] at hhead
  exact hq hhead

theorem flatMap_escape_inj (h : cs.flatMap escape ++ '"' :: r = ds.flatMap escape ++ '"' :: s) :
    cs = ds ∧ r = s := by
  induction cs generalizing ds with
  | nil =>
    cases ds with
    | nil => exact ⟨rfl, (List.cons_eq_cons.mp h).2⟩
    | cons d ds =>
      rw [List.flatMap_cons, List.append_assoc] at h
      exact absurd h.symm escape_append_ne
  | cons c cs ih =>
    cases ds with
    | nil =>
      rw [List.flatMap_cons, List.append_assoc] at h
      exact absurd h escape_append_ne
    | cons d ds =>
      rw [List.flatMap_cons, List.flatMap_cons, List.append_assoc, List.append_assoc] at h
      obtain ⟨rfl, hrest⟩ := escape_append_inj h
      obtain ⟨rfl, rfl⟩ := ih hrest
      exact ⟨rfl, rfl⟩

/-- A quoted string ends at its closing quote, whatever follows. -/
theorem quote_append_inj (h : quote cs ++ r = quote ds ++ s) : cs = ds ∧ r = s := by
  simp only [quote, quoteWith, List.cons_append, List.append_assoc, List.cons.injEq,
    true_and] at h
  exact flatMap_escape_inj h

end Strings

section Lists

variable {α β : Type} {f : α → List Char} {g : β → List Char} {R : α → β → Prop} {xs : List α}
  {ys : List β} {r s : List Char} {opening closing : Char}

/-- A text that no comma and no closing bracket begins. -/
def Starts (text : List Char) : Prop := ∃ c rest, text = c :: rest ∧ c ≠ ']' ∧ c ≠ '\x7d'

/-- The texts of `f` and `g` are read back, where they stand in a list, as related values. -/
def ReadsBack (f : α → List Char) (g : β → List Char) (R : α → β → Prop) (x : α) (y : β) : Prop :=
  ∀ r s, Ends r → Ends s → f x ++ r = g y ++ s → R x y ∧ r = s

theorem ends_rest {close : Char} (hc : close = ']' ∨ close = '\x7d') :
    Ends ((xs.map f).flatMap (',' :: ·) ++ close :: r) := by
  cases xs with
  | nil => exact ends_cons (.inr hc)
  | cons x xs => exact ends_cons (.inl rfl)

theorem intercalate_cons {x : List Char} {ps : List (List Char)} :
    List.intercalate [','] (x :: ps) = x ++ ps.flatMap (',' :: ·) := by
  induction ps generalizing x with
  | nil => simp [List.intercalate]
  | cons y ps ih =>
    have hcons : List.intercalate [','] (x :: y :: ps) =
        x ++ (',' :: List.intercalate [','] (y :: ps)) := by
      simp [List.intercalate, List.intersperse_cons_cons]
    rw [hcons, ih, List.flatMap_cons, List.cons_append]

theorem commas_inj {close : Char} (hc : close = ']' ∨ close = '\x7d')
    (hread : ∀ x ∈ xs, ∀ y ∈ ys, ReadsBack f g R x y)
    (h : (xs.map f).flatMap (',' :: ·) ++ close :: r =
      (ys.map g).flatMap (',' :: ·) ++ close :: s) : List.Forall₂ R xs ys ∧ r = s := by
  have hne : close ≠ ',' := by rcases hc with rfl | rfl <;> decide
  induction xs generalizing ys with
  | nil =>
    cases ys with
    | nil => exact ⟨.nil, (List.cons_eq_cons.mp h).2⟩
    | cons y ys => exact absurd (List.cons_eq_cons.mp h).1 hne
  | cons x xs ih =>
    cases ys with
    | nil => exact absurd (List.cons_eq_cons.mp h).1.symm hne
    | cons y ys =>
      simp only [List.map_cons, List.flatMap_cons, List.cons_append, List.append_assoc,
        List.cons.injEq, true_and] at h
      obtain ⟨hxy, hrest⟩ := hread x List.mem_cons_self y List.mem_cons_self _ _ (ends_rest hc)
        (ends_rest hc) h
      obtain ⟨hall, hrs⟩ := ih (fun x hx y hy => hread x (List.mem_cons_of_mem _ hx) y
        (List.mem_cons_of_mem _ hy)) hrest
      exact ⟨.cons hxy hall, hrs⟩

/-- A bracketed list ends at its closing bracket, whatever follows. -/
theorem bracket_append_inj (hb : Brackets opening closing) (hf : ∀ x ∈ xs, Starts (f x))
    (hg : ∀ y ∈ ys, Starts (g y)) (hread : ∀ x ∈ xs, ∀ y ∈ ys, ReadsBack f g R x y)
    (h : bracket opening closing (xs.map f) ++ r = bracket opening closing (ys.map g) ++ s) :
    List.Forall₂ R xs ys ∧ r = s := by
  have hc : closing = ']' ∨ closing = '\x7d' := hb.imp And.right And.right
  have hstart : ∀ {t u : List Char}, Starts t → t ++ u ≠ closing :: s ∧ t ++ u ≠ closing :: r := by
    rintro t u ⟨c, rest, rfl, h1, h2⟩
    have hne : c ≠ closing := by rcases hc with rfl | rfl <;> assumption
    exact ⟨fun h => hne (List.cons_eq_cons.mp h).1, fun h => hne (List.cons_eq_cons.mp h).1⟩
  simp only [bracket, List.cons_append, List.append_assoc, List.cons.injEq, true_and,
    List.nil_append] at h
  cases xs with
  | nil =>
    cases ys with
    | nil => exact ⟨.nil, (List.cons_eq_cons.mp h).2⟩
    | cons y ys =>
      rw [List.map_cons, intercalate_cons, List.append_assoc] at h
      exact absurd h.symm (hstart (hg y List.mem_cons_self)).2
  | cons x xs =>
    cases ys with
    | nil =>
      rw [List.map_cons, intercalate_cons, List.append_assoc] at h
      exact absurd h (hstart (hf x List.mem_cons_self)).1
    | cons y ys =>
      rw [List.map_cons, List.map_cons, intercalate_cons, intercalate_cons, List.append_assoc,
        List.append_assoc] at h
      obtain ⟨hxy, hrest⟩ := hread x List.mem_cons_self y List.mem_cons_self _ _ (ends_rest hc)
        (ends_rest hc) h
      obtain ⟨hall, hrs⟩ := commas_inj hc (fun x hx y hy => hread x (List.mem_cons_of_mem _ hx) y
        (List.mem_cons_of_mem _ hy)) hrest
      exact ⟨.cons hxy hall, hrs⟩

end Lists

end Walgit.JsonText
