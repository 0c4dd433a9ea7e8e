import Mathlib.Computability.Language
import Walgit.Policy

/-!
# The language of a glob

A pattern is a sequence of tokens and matches the product of their languages:
`?` one byte and `*` any run of bytes other than a slash, `**` any bytes, `**/`
any number of whole components, each with its slash. The matcher drops the slash
after `**`, so that it reads `**/` as `**`.
-/

namespace Walgit.Policy

open Computability

inductive Token
  | lit (c : UInt8)
  | any
  | star
  | globstar
  | dirs
  deriving DecidableEq, Repr

def tokens : List UInt8 → List Token
  | [] => []
  | 42 :: 42 :: 47 :: rest => .dirs :: tokens rest
  | 42 :: 42 :: rest => .globstar :: tokens rest
  | 42 :: rest => .star :: tokens rest
  | 63 :: rest => .any :: tokens rest
  | c :: rest => .lit c :: tokens rest

/-- The runs of bytes within one component. -/
def component : Language UInt8 := { w | 47 ∉ w }

def Token.language : Token → Language UInt8
  | .lit c => {[c]}
  | .any => { w | ∃ c, c ≠ 47 ∧ w = [c] }
  | .star => component
  | .globstar => ⊤
  | .dirs => (component * {[47]})∗

def language (ts : List Token) : Language UInt8 := (ts.map Token.language).prod

def doublestar (pat : List UInt8) : Language UInt8 := language (tokens pat)

def Token.dropSlash : Token → Token
  | .dirs => .globstar
  | t => t

/-- The language of the pattern with every `**/` read as `**`. -/
def crossing (pat : List UInt8) : Language UInt8 := language ((tokens pat).map Token.dropSlash)

section Matcher

variable {pat rest text : List UInt8} {ts : List Token}

theorem language_cons {t : Token} : language (t :: ts) = t.language * language ts := rfl

theorem mem_globstar : text ∈ language (.globstar :: ts) ↔ ∃ s ∈ text.tails, s ∈ language ts := by
  rw [language_cons, Language.mem_mul]
  constructor
  · rintro ⟨a, -, b, hb, rfl⟩
    exact ⟨b, (List.mem_tails _ _).mpr (List.suffix_append a b), hb⟩
  · rintro ⟨s, hs, hmem⟩
    obtain ⟨a, rfl⟩ := (List.mem_tails _ _).mp hs
    exact ⟨a, trivial, s, hmem, rfl⟩

theorem mem_starRests {s : List UInt8} : s ∈ starRests text ↔ ∃ a ∈ component, a ++ s = text := by
  induction text with
  | nil =>
    constructor
    · intro h
      exact ⟨[], List.not_mem_nil, by simpa [starRests] using h⟩
    · rintro ⟨a, -, h⟩
      simp [starRests, (List.append_eq_nil_iff.mp h).2]
  | cons c cs ih =>
    rw [starRests, List.mem_cons]
    constructor
    · rintro (rfl | h)
      · exact ⟨[], List.not_mem_nil, rfl⟩
      · split at h
        · cases h
        · next hc =>
          obtain ⟨a, ha, rfl⟩ := ih.mp h
          refine ⟨c :: a, fun hmem => ?_, rfl⟩
          rcases List.mem_cons.mp hmem with h47 | h47
          · exact hc h47.symm
          · exact ha h47
    · rintro ⟨a, ha, h⟩
      cases a with
      | nil => exact .inl h
      | cons x xs =>
        obtain ⟨rfl, rfl⟩ := List.cons_eq_cons.mp h
        have hx : x ≠ 47 := fun hx => ha (hx ▸ List.mem_cons_self)
        rw [if_neg hx]
        exact .inr (ih.mpr ⟨xs, fun hmem => ha (List.mem_cons_of_mem x hmem), rfl⟩)

theorem mem_star : text ∈ language (.star :: ts) ↔ ∃ s ∈ starRests text, s ∈ language ts := by
  rw [language_cons, Language.mem_mul]
  constructor
  · rintro ⟨a, ha, b, hb, h⟩
    exact ⟨b, mem_starRests.mpr ⟨a, ha, h⟩, hb⟩
  · rintro ⟨s, hs, hmem⟩
    obtain ⟨a, ha, h⟩ := mem_starRests.mp hs
    exact ⟨a, ha, s, hmem, h⟩

theorem mem_any {c : UInt8} : c :: text ∈ language (.any :: ts) ↔ c ≠ 47 ∧ text ∈ language ts := by
  rw [language_cons, Language.mem_mul]
  constructor
  · rintro ⟨_, ⟨d, hd, rfl⟩, b, hb, h⟩
    obtain ⟨rfl, rfl⟩ := List.cons_eq_cons.mp h
    exact ⟨hd, hb⟩
  · rintro ⟨hc, h⟩
    exact ⟨[c], ⟨c, hc, rfl⟩, text, h, rfl⟩

theorem nil_mem_any : [] ∉ language (.any :: ts) := by
  rw [language_cons, Language.mem_mul]
  rintro ⟨_, ⟨d, -, rfl⟩, b, -, h⟩
  cases h

theorem nil_mem_lit {d : UInt8} : [] ∉ language (.lit d :: ts) := by
  rw [language_cons, Language.mem_mul]
  rintro ⟨_, rfl, b, -, h⟩
  cases h

theorem mem_lit {c d : UInt8} :
    c :: text ∈ language (.lit d :: ts) ↔ c = d ∧ text ∈ language ts := by
  rw [language_cons, Language.mem_mul]
  constructor
  · rintro ⟨_, rfl, b, hb, h⟩
    obtain ⟨rfl, rfl⟩ := List.cons_eq_cons.mp h
    exact ⟨rfl, hb⟩
  · rintro ⟨rfl, h⟩
    exact ⟨[c], rfl, text, h, rfl⟩

theorem globBytes_dirs :
    globBytes (42 :: 42 :: 47 :: rest) text = text.tails.any (globBytes rest) := by
  cases rest with
  | nil =>
    symm
    simp [globBytes]
  | cons c rest => rw [globBytes]; simp

theorem globBytes_globstar (hne : ∀ r, rest ≠ 47 :: r) :
    globBytes (42 :: 42 :: rest) text = text.tails.any (globBytes rest) := by
  cases rest with
  | nil =>
    symm
    simp [globBytes]
  | cons c rest =>
    rw [globBytes]
    · simp
    · exact fun h => hne [] h
    · exact hne

theorem globBytes_star (hne : ∀ r, rest ≠ 42 :: r) :
    globBytes (42 :: rest) text = (starRests text).any (globBytes rest) := by
  rw [globBytes]
  · exact hne []
  · exact hne [47]
  · exact fun r => hne (47 :: r)
  · exact hne

theorem globBytes_cons {p c : UInt8} (hp : p ≠ 42) :
    globBytes (p :: rest) (c :: text) =
      ((if p = 63 then c != 47 else c == p) && globBytes rest text) := by
  rw [globBytes] <;> simp [hp]

theorem globBytes_iff (pat text : List UInt8) :
    globBytes pat text = true ↔ text ∈ crossing pat := by
  unfold crossing
  induction pat using tokens.induct generalizing text with
  | case1 => simp [globBytes, tokens, language, List.isEmpty_iff]
  | case2 rest ih =>
    rw [tokens, globBytes_dirs]
    change _ ↔ text ∈ language (.globstar :: (tokens rest).map Token.dropSlash)
    simp only [mem_globstar, List.any_eq_true, ih]
  | case3 rest hne ih =>
    rw [tokens.eq_3 rest hne, globBytes_globstar hne]
    change _ ↔ text ∈ language (.globstar :: (tokens rest).map Token.dropSlash)
    simp only [mem_globstar, List.any_eq_true, ih]
  | case4 rest hne hne' ih =>
    rw [tokens.eq_4 rest hne hne', globBytes_star hne']
    change _ ↔ text ∈ language (.star :: (tokens rest).map Token.dropSlash)
    simp only [mem_star, List.any_eq_true, ih]
  | case5 rest ih =>
    rw [tokens]
    change _ ↔ text ∈ language (.any :: (tokens rest).map Token.dropSlash)
    cases text with
    | nil => simp [globBytes_cons_nil, nil_mem_any]
    | cons c text => simp [globBytes_cons, mem_any, ih]
  | case6 c rest h1 h2 h3 h4 ih =>
    have hdrop : (Token.lit c).dropSlash = .lit c := rfl
    rw [tokens.eq_6 c rest h1 h2 h3 h4, List.map_cons, hdrop]
    cases text with
    | nil => simp [globBytes_cons_nil h3, nil_mem_lit]
    | cons d text => simp [globBytes_cons h3, mem_lit, if_neg h4, ih]

end Matcher

section Agreement

variable {pat text : List UInt8}

theorem language_dropSlash (t : Token) : t.language ≤ t.dropSlash.language := by
  cases t with
  | dirs => exact fun _ _ => trivial
  | _ => exact le_rfl

theorem doublestar_le_crossing : doublestar pat ≤ crossing pat := by
  unfold doublestar crossing
  induction tokens pat with
  | nil => exact le_rfl
  | cons t ts ih =>
    intro w hw
    obtain ⟨a, ha, b, hb, rfl⟩ := Language.mem_mul.mp hw
    exact Language.mem_mul.mpr ⟨a, language_dropSlash t ha, b, ih hb, rfl⟩

theorem crossing_of_no_dirs (h : .dirs ∉ tokens pat) : crossing pat = doublestar pat := by
  unfold doublestar crossing
  congr 1
  refine (List.map_congr_left fun t ht => ?_).trans (List.map_id _)
  cases t with
  | dirs => exact absurd ht h
  | _ => rfl

theorem globBytes_literal (h : ∀ c ∈ pat, c ≠ 42 ∧ c ≠ 63) :
    globBytes pat text = true ↔ text = pat := by
  induction pat generalizing text with
  | nil => simp [globBytes]
  | cons p pat ih =>
    obtain ⟨hstar, hany⟩ := h p List.mem_cons_self
    cases text with
    | nil => simp [globBytes_cons_nil hstar]
    | cons c text =>
      simp [globBytes_cons hstar, hany, ih fun c hc => h c (List.mem_cons_of_mem p hc)]

theorem bytesOf_inj {s t : String} (h : bytesOf s = bytesOf t) : s = t := by
  have hs (s : String) : (bytesOf s).toByteArray = s.toByteArray := String.utf8Encode_toList
  exact String.toByteArray_inj.mp (by rw [← hs s, ← hs t, h])

theorem globMatch_eq (pat text : String) :
    globMatch pat text = globBytes (bytesOf pat) (bytesOf text) := by
  unfold globMatch
  split
  · next hp =>
    subst hp
    have hhead : ∀ c ∈ bytesOf "HEAD", c ≠ 42 ∧ c ≠ 63 := by
      have hbytes : bytesOf "HEAD" = [72, 69, 65, 68] := by decide
      simp [hbytes]
    rw [Bool.eq_iff_iff, globBytes_literal hhead, beq_iff_eq]
    exact ⟨fun h => h ▸ rfl, bytesOf_inj⟩
  · rfl

/-- The matcher has the doublestar language on a text unless the pattern matches it only when some
`**/` takes a run that is neither empty nor ends with a slash. -/
theorem glob_doublestar_iff (pat text : List UInt8) :
    ((globBytes pat text = true ↔ text ∈ doublestar pat) ↔
      (text ∈ crossing pat → text ∈ doublestar pat)) ∧
    (∀ pat text : String, (globMatch pat text = true ↔ bytesOf text ∈ doublestar (bytesOf pat)) ↔
      (bytesOf text ∈ crossing (bytesOf pat) → bytesOf text ∈ doublestar (bytesOf pat))) ∧
    (.dirs ∉ tokens pat → crossing pat = doublestar pat) := by
  have hbytes (pat text : List UInt8) : (globBytes pat text = true ↔ text ∈ doublestar pat) ↔
      (text ∈ crossing pat → text ∈ doublestar pat) := by
    rw [globBytes_iff]
    exact ⟨Iff.mp, fun h => ⟨h, fun hd => doublestar_le_crossing hd⟩⟩
  refine ⟨hbytes pat text, fun pat text => ?_, crossing_of_no_dirs⟩
  rw [globMatch_eq]
  exact hbytes _ _

theorem eq_nil_or_ends {w : List UInt8} (h : w ∈ Token.dirs.language) :
    w = [] ∨ ∃ u, w = u ++ [47] := by
  obtain ⟨L, rfl, hL⟩ := Language.mem_kstar.mp h
  rcases List.eq_nil_or_concat L with rfl | ⟨L, last, rfl⟩
  · exact .inl rfl
  · obtain ⟨a, -, b, hb, hlast⟩ := Language.mem_mul.mp (hL last (by simp))
    obtain rfl : b = [47] := hb
    exact .inr ⟨L.flatten ++ a, by simp [← hlast]⟩

theorem glob_splits_component : globMatch "a/**/b" "a/xb" = true ∧
    bytesOf "a/xb" ∉ doublestar (bytesOf "a/**/b") := by
  refine ⟨by decide, fun h => ?_⟩
  have hbytes : bytesOf "a/xb" = [97, 47, 120, 98] := by decide
  have htokens : tokens (bytesOf "a/**/b") = [.lit 97, .lit 47, .dirs, .lit 98] := by decide
  rw [doublestar, htokens, hbytes, mem_lit, mem_lit, language_cons, Language.mem_mul] at h
  obtain ⟨-, -, w, hw, b, hb, heq⟩ := h
  -- what `**/` takes is what the last literal leaves: the byte 120
  have hlast : b ∈ ({[98]} : Language UInt8) := by simpa [language, Token.language] using hb
  obtain rfl : b = [98] := hlast
  have hx : w = [120] := List.append_inj_left' (heq : w ++ [98] = [120] ++ [98]) rfl
  rcases eq_nil_or_ends hw with rfl | ⟨u, hu⟩
  · cases hx
  · have := List.append_inj_right' (hu.symm.trans hx : u ++ [47] = [] ++ [120]) rfl
    cases this

end Agreement

end Walgit.Policy
