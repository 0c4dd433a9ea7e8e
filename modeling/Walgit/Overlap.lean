import Mathlib.Data.List.DropRight
import Walgit.Rules

/-!
# Overlapping protect rules

A policy in which two protect rules stand in the way of one update, with bypass
lists that have no principal in common, is to be refused when it is loaded. The
check compares the patterns of two rules: each with the other's text, less its
trailing stars and slashes. So it has two patterns for overlapping when one lies
over the other, each letter on the same letter and each wildcard on a stretch
that may have wildcards, too. It does not see that two patterns share a name when
each has a letter where the other has a wildcard, nor that a force-push is an update.
-/

namespace Walgit.Policy

section Check

/-- A pattern less its trailing stars, and then its trailing slashes. -/
def stem (p : String) : String :=
  String.ofList ((p.toList.rdropWhile (· == '*')).rdropWhile (· == '/'))

def hasDoublestar (p : String) : Bool := p.toList.tails.any ("**".toList.isPrefixOf ·)

def globMayOverlap (a b : String) : Bool :=
  a == b || globMatch a (stem b) || globMatch b (stem a) || hasDoublestar a || hasDoublestar b

/-- The patterns that do not start with `^`. -/
def inclusions (patterns : List String) : List String :=
  patterns.filter fun p => (stripPrefix? "^" p).isNone

def refPatternsMayOverlap (a b : List String) : Bool :=
  a.isEmpty || b.isEmpty || (inclusions a).isEmpty || (inclusions b).isEmpty ||
    (inclusions a).any fun x => (inclusions b).any fun y => globMayOverlap x y

/-- `is_disjoint` of two sets. -/
def disjoint {α : Type} [DecidableEq α] (a b : List α) : Bool := a.all fun x => x ∉ b

/-- The body of the inner loop: whether the two rules are an error. -/
def lockout (a b : Rule) : Bool :=
  match a.protect, b.protect with
  | some pa, some pb =>
    refPatternsMayOverlap a.scope.refs b.scope.refs &&
      !disjoint (restrictSet pa) (restrictSet pb) &&
      !(pa.bypass.isEmpty || pb.bypass.isEmpty) && disjoint pa.bypass pb.bypass
  | _, _ => false

/-- The first pair, in the order of the two loops. -/
def firstPair {α : Type} (test : α → α → Bool) : List α → Option (α × α)
  | [] => none
  | a :: rest => ((rest.find? (test a)).map fun b => (a, b)).or (firstPair test rest)

def RepoPolicy.protects (p : RepoPolicy) : List Rule := p.rules.filter fun r => r.protect.isSome

/-- The names are ones that `valid_name` has passed, and print between quotes as they are. -/
def checkOverlapBypass (p : RepoPolicy) : Except String Unit :=
  match firstPair lockout p.protects with
  | some (a, b) => .error ("protect rules \"" ++ a.name ++ "\" and \"" ++ b.name ++
      "\" overlap with disjoint bypass lists")
  | none => .ok ()

end Check

section Spec

/-- Both lists match one name. -/
def SameRef (a b : List String) : Prop :=
  ∃ name, patternListMatches a name = true ∧ patternListMatches b name = true

/-- The first pattern laid on the second: a letter on the same letter, a question mark on one byte
and a star on any bytes, wildcards or not, of one component. -/
inductive Covers : List UInt8 → List UInt8 → Prop
  | nil : Covers [] []
  | letter {c : UInt8} {p t : List UInt8} : c ≠ 42 → c ≠ 63 → Covers p t →
      Covers (c :: p) (c :: t)
  | any {c : UInt8} {p t : List UInt8} : c ≠ 47 → Covers p t → Covers (63 :: p) (c :: t)
  | star {run p t : List UInt8} : 47 ∉ run → Covers p t → Covers (42 :: p) (run ++ t)

/-- The pattern ends in slashes and then stars, after `core`. -/
structure EndsAfter (core pattern : List Char) : Prop where
  ends : ∃ i j, pattern = (core ++ List.replicate i '/') ++ List.replicate j '*' ∧
    (core ++ List.replicate i '/').getLast? ≠ some '*'
  last : core.getLast? ≠ some '/'

/-- One pattern covers the other, less the slashes and stars it ends in. -/
def Over (x y : String) : Prop :=
  ∃ core, EndsAfter core y.toList ∧ Covers (bytesOf x) (bytesOf (String.ofList core))

def TwoStars (x : String) : Prop := "**".toList <:+: x.toList

/-- Patterns that are one, patterns of which one crosses slashes, and patterns of which one lies
over the other. -/
def Related (x y : String) : Prop := x = y ∨ TwoStars x ∨ TwoStars y ∨ Over x y ∨ Over y x

/-- The patterns of a list that do not exclude. -/
def Includes (patterns : List String) (p : String) : Prop := p ∈ patterns ∧ ∀ rest, p ≠ "^" ++ rest

/-- A list includes nothing, or an inclusion of one is related to one of the other. -/
def RelatedLists (a b : List String) : Prop :=
  (∀ p, ¬ Includes a p) ∨ (∀ p, ¬ Includes b p) ∨
    ∃ x y, Includes a x ∧ Includes b y ∧ Related x y

/-- Both rules restrict one operation, a forced update being an update too. -/
def SameOp (pa pb : ProtectEffect) : Prop :=
  ∃ op force, restrictHit (restrictSet pa) op force = true ∧
    restrictHit (restrictSet pb) op force = true

/-- Both rules have bypass lists, which name no principal in common. -/
def ApartBypass (pa pb : ProtectEffect) : Prop :=
  pa.bypass ≠ [] ∧ pb.bypass ≠ [] ∧ ∀ x ∈ pa.bypass, x ∉ pb.bypass

/-- An update that both rules are in the way of can pass neither. -/
def Deadlock (a b : Rule) : Prop :=
  ∃ pa pb, a.protect = some pa ∧ b.protect = some pb ∧ SameRef a.scope.refs b.scope.refs ∧
    SameOp pa pb ∧ ApartBypass pa pb

/-- The rules restrict one operation by one name for it, and their patterns are related. -/
def InSight (a b : Rule) : Prop :=
  ∃ pa pb, a.protect = some pa ∧ b.protect = some pb ∧
    RelatedLists a.scope.refs b.scope.refs ∧ (∃ op, Names pa op ∧ Names pb op) ∧ ApartBypass pa pb

/-- Two protect rules, the earlier one first, are in the relation. -/
def RepoPolicy.HasPair (p : RepoPolicy) (R : Rule → Rule → Prop) : Prop :=
  ∃ a b, [a, b].Sublist p.protects ∧ R a b

/-- No wildcard but a last star. -/
def TrailingStar (p : String) : Prop :=
  ∃ l : List Char, (∀ c ∈ l, c ≠ '*' ∧ c ≠ '?') ∧ (p.toList = l ∨ p.toList = l ++ ['*'])

end Spec

section Stems

variable {l core : List Char} {x y : String}

theorem rdropWhile_replicate {c : Char} {j : ℕ} (h : l.getLast? ≠ some c) :
    (l ++ List.replicate j c).rdropWhile (· == c) = l := by
  induction j with
  | zero =>
    rw [List.replicate_zero, List.append_nil]
    refine List.rdropWhile_eq_self_iff.mpr fun hne hl => h ?_
    rw [List.getLast?_eq_some_getLast hne, eq_of_beq hl]
  | succ j ih =>
    rw [List.replicate_succ', ← List.append_assoc,
      List.rdropWhile_concat_pos (· == c) _ c (beq_self_eq_true c), ih]

theorem rdropWhile_spec (l : List Char) (c : Char) :
    ∃ j, l = l.rdropWhile (· == c) ++ List.replicate j c ∧
      (l.rdropWhile (· == c)).getLast? ≠ some c := by
  refine ⟨(l.rtakeWhile (· == c)).length, ?_, fun hlast => ?_⟩
  · have hall : l.rtakeWhile (· == c) = List.replicate (l.rtakeWhile (· == c)).length c :=
      List.eq_replicate_iff.mpr ⟨rfl, fun d hd =>
        eq_of_beq (List.mem_rtakeWhile_imp (p := (· == c)) hd)⟩
    rw [← hall, List.rdropWhile_append_rtakeWhile]
  · have hne : l.rdropWhile (· == c) ≠ [] := fun hnil => by simp [hnil] at hlast
    rw [List.getLast?_eq_some_getLast hne] at hlast
    exact List.rdropWhile_last_not (· == c) l hne (beq_iff_eq.mpr (Option.some.inj hlast))

theorem endsAfter_iff : EndsAfter core x.toList ↔ stem x = String.ofList core := by
  constructor
  · rintro ⟨⟨i, j, hx, hstar⟩, hslash⟩
    rw [stem, hx, rdropWhile_replicate hstar, rdropWhile_replicate hslash]
  · intro h
    obtain ⟨j, hj, hstar⟩ := rdropWhile_spec x.toList '*'
    obtain ⟨i, hi, hslash⟩ := rdropWhile_spec (x.toList.rdropWhile (· == '*')) '/'
    obtain rfl : core = (x.toList.rdropWhile (· == '*')).rdropWhile (· == '/') :=
      (String.ofList_injective h).symm
    refine ⟨⟨i, j, ?_, ?_⟩, hslash⟩
    · rw [← hi, ← hj]
    · rwa [← hi]

theorem over_iff : Over x y ↔ Covers (bytesOf x) (bytesOf (stem y)) := by
  constructor
  · rintro ⟨core, hcore, hc⟩
    rwa [endsAfter_iff.mp hcore]
  · intro h
    refine ⟨(stem y).toList, endsAfter_iff.mpr String.ofList_toList.symm, ?_⟩
    rwa [String.ofList_toList]

end Stems

section Layers

variable {l : List Char} {p t xs ys : List UInt8}

theorem ascii_byte {c : Char} {b : UInt8} (h : b ∈ String.utf8EncodeChar c) (hb : b.toNat < 128) :
    c.toNat = b.toNat := by
  have hbyte (n : ℕ) : (UInt8.ofNat n).toNat = n % 256 := UInt8.toNat_ofNat'
  have hval : c.toNat = c.val.toNat := rfl
  dsimp only [String.utf8EncodeChar] at h
  split_ifs at h with h1 h2 h3
  · obtain rfl := List.mem_singleton.mp h
    rw [hbyte]
    omega
  all_goals
    simp only [List.mem_cons, List.not_mem_nil, or_false] at h
    rcases h with rfl | rfl | rfl | rfl <;> rw [hbyte] at hb <;> omega

theorem literal_bytes (h : ∀ c ∈ l, c ≠ '*' ∧ c ≠ '?') :
    ∀ b ∈ l.flatMap String.utf8EncodeChar, b ≠ 42 ∧ b ≠ 63 := by
  intro b hb
  obtain ⟨c, hc, hbc⟩ := List.mem_flatMap.mp hb
  refine ⟨?_, ?_⟩
  · rintro rfl
    exact (h c hc).1 (Char.toNat_inj.mp (ascii_byte hbc (by decide)))
  · rintro rfl
    exact (h c hc).2 (Char.toNat_inj.mp (ascii_byte hbc (by decide)))

theorem doublestar_of_append (hxs : 42 ∉ xs) (h : [42, 42] <:+: xs ++ ys) : [42, 42] <:+: ys := by
  induction xs with
  | nil => exact h
  | cons x xs ih =>
    rw [List.mem_cons, not_or] at hxs
    rw [List.cons_append, List.infix_cons_iff] at h
    rcases h with hpre | h
    · exact absurd (List.cons_prefix_cons.mp hpre).1 hxs.1
    · exact ih hxs.2 h

theorem star_of_byte {c : Char} (h : 42 ∈ String.utf8EncodeChar c) : c = '*' :=
  Char.toNat_inj.mp (ascii_byte h (by decide))

theorem doublestar_bytes :
    [42, 42] <:+: l.flatMap String.utf8EncodeChar ↔ "**".toList <:+: l := by
  have hstar : String.utf8EncodeChar '*' = [42] := by decide
  constructor
  · intro h
    induction l with
    | nil => exact absurd (List.infix_nil.mp h) (List.cons_ne_nil _ _)
    | cons c l ih =>
      rw [List.flatMap_cons] at h
      by_cases hc : 42 ∈ String.utf8EncodeChar c
      · obtain rfl := star_of_byte hc
        rw [hstar, List.singleton_append, List.infix_cons_iff] at h
        rcases h with hpre | h
        · cases l with
          | nil => exact absurd (List.prefix_nil.mp (List.cons_prefix_cons.mp hpre).2) nofun
          | cons d l =>
            -- the second byte begins the next character
            have hne : String.utf8EncodeChar d ≠ [] := List.ne_nil_of_length_pos (by
              rw [String.length_utf8EncodeChar]
              exact d.utf8Size_pos)
            obtain ⟨b, rest, hd⟩ := List.exists_cons_of_ne_nil hne
            rw [List.flatMap_cons, hd] at hpre
            have hb := (List.cons_prefix_cons.mp (List.cons_prefix_cons.mp hpre).2).1
            obtain rfl : d = '*' := star_of_byte (by rw [hd, ← hb]; exact List.mem_cons_self)
            exact ⟨[], l, rfl⟩
        · exact List.infix_cons (ih h)
      · exact List.infix_cons (ih (doublestar_of_append hc h))
  · rintro ⟨u, v, rfl⟩
    refine ⟨u.flatMap String.utf8EncodeChar, v.flatMap String.utf8EncodeChar, ?_⟩
    rw [List.flatMap_append, List.flatMap_append]
    rfl

theorem hasDoublestar_iff {x : String} : hasDoublestar x = true ↔ TwoStars x := by
  simp only [hasDoublestar, List.any_eq_true, List.mem_tails, List.isPrefixOf_iff_prefix, TwoStars,
    List.infix_iff_prefix_suffix, and_comm]

theorem covers_nil : Covers [] t ↔ t = [] :=
  ⟨fun h => by cases h; rfl, fun h => h ▸ .nil⟩

theorem covers_star :
    Covers (42 :: p) t ↔ ∃ run ∈ component, ∃ rest, run ++ rest = t ∧ Covers p rest := by
  constructor
  · intro h
    cases h with
    | letter hstar => exact absurd rfl hstar
    | star hrun h => exact ⟨_, hrun, _, rfl, h⟩
  · rintro ⟨run, hrun, rest, rfl, h⟩
    exact .star hrun h

theorem covers_any : Covers (63 :: p) t ↔ ∃ c rest, c :: rest = t ∧ c ≠ 47 ∧ Covers p rest := by
  constructor
  · intro h
    cases h with
    | letter _ hany => exact absurd rfl hany
    | any hc h => exact ⟨_, _, rfl, hc, h⟩
  · rintro ⟨c, rest, rfl, hc, h⟩
    exact .any hc h

theorem covers_letter {c : UInt8} (hstar : c ≠ 42) (hany : c ≠ 63) :
    Covers (c :: p) t ↔ ∃ rest, c :: rest = t ∧ Covers p rest := by
  constructor
  · intro h
    cases h with
    | letter _ _ h => exact ⟨_, rfl, h⟩
    | any => exact absurd rfl hany
    | star => exact absurd rfl hstar
  · rintro ⟨rest, rfl, h⟩
    exact .letter hstar hany h

theorem globBytes_covers (h : ¬ [42, 42] <:+: p) : globBytes p t = true ↔ Covers p t := by
  induction p using tokens.induct generalizing t with
  | case1 =>
    rw [covers_nil]
    exact List.isEmpty_iff
  | case2 rest => exact absurd ⟨[], 47 :: rest, rfl⟩ h
  | case3 rest => exact absurd ⟨[], rest, rfl⟩ h
  | case4 rest hne hne' ih =>
    have ih {t : List UInt8} := ih (t := t) fun hin => h (List.infix_cons hin)
    rw [globBytes_star hne', List.any_eq_true, covers_star]
    simp only [mem_starRests, ih]
    constructor
    · rintro ⟨s, ⟨run, hrun, hs⟩, hc⟩
      exact ⟨run, hrun, s, hs, hc⟩
    · rintro ⟨run, hrun, s, hs, hc⟩
      exact ⟨s, ⟨run, hrun, hs⟩, hc⟩
  | case5 rest ih =>
    have ih {t : List UInt8} := ih (t := t) fun hin => h (List.infix_cons hin)
    rw [covers_any]
    cases t with
    | nil => simp [globBytes_cons_nil]
    | cons c t => simp [globBytes_cons, ih]
  | case6 c rest h1 h2 h3 h4 ih =>
    have ih {t : List UInt8} := ih (t := t) fun hin => h (List.infix_cons hin)
    rw [covers_letter h3 h4]
    cases t with
    | nil => simp [globBytes_cons_nil h3]
    | cons d t => simp [globBytes_cons h3, if_neg h4, ih, eq_comm (a := d)]

end Layers

section Patterns

variable {x y : String} {a b : List String}

theorem globMatch_stem (hx : ¬ TwoStars x) : globMatch x (stem y) = true ↔ Over x y := by
  rw [globMatch_eq, over_iff]
  exact globBytes_covers fun h => hx (doublestar_bytes.mp h)

theorem globMayOverlap_iff : globMayOverlap x y = true ↔ Related x y := by
  simp only [globMayOverlap, Related, Bool.or_eq_true, beq_iff_eq, hasDoublestar_iff]
  by_cases hx : TwoStars x
  · simp [hx]
  by_cases hy : TwoStars y
  · simp [hy]
  rw [globMatch_stem hx, globMatch_stem hy]
  simp [hx, hy, or_assoc]

theorem mem_inclusions {p : String} : p ∈ inclusions a ↔ Includes a p := by
  simp [inclusions, Includes, Option.isNone_iff_eq_none, stripPrefix?_eq_none]

theorem inclusions_isEmpty : (inclusions a).isEmpty = true ↔ ∀ p, ¬ Includes a p := by
  rw [List.isEmpty_iff, List.eq_nil_iff_forall_not_mem]
  exact forall_congr' fun p => not_congr mem_inclusions

theorem refPatternsMayOverlap_iff : refPatternsMayOverlap a b = true ↔ RelatedLists a b := by
  have hempty (l : List String) : l.isEmpty = true → ∀ p, ¬ Includes l p := by
    intro h p hp
    exact List.not_mem_nil (List.isEmpty_iff.mp h ▸ hp.1)
  simp only [refPatternsMayOverlap, RelatedLists, Bool.or_eq_true, inclusions_isEmpty,
    List.any_eq_true, mem_inclusions, globMayOverlap_iff]
  constructor
  · rintro ((((ha | hb) | ha) | hb) | ⟨x, hx, y, hy, hr⟩)
    · exact .inl (hempty a ha)
    · exact .inr (.inl (hempty b hb))
    · exact .inl ha
    · exact .inr (.inl hb)
    · exact .inr (.inr ⟨x, y, hx, hy, hr⟩)
  · rintro (ha | hb | ⟨x, y, hx, hy, hr⟩)
    · exact .inl (.inl (.inr ha))
    · exact .inl (.inr hb)
    · exact .inr ⟨x, hx, y, hy, hr⟩

theorem exists_inclusion {name : String} (h : patternListMatches a name = true)
    (hne : ¬ ∀ p, ¬ Includes a p) : ∃ x, Includes a x ∧ globMatch x name = true := by
  simp only [patternListMatches, listMatches, Bool.and_eq_true, Bool.or_eq_true] at h
  rcases h.1 with hnil | hany
  · exact absurd (inclusions_isEmpty.mp hnil) hne
  · obtain ⟨x, hx, hmatch⟩ := List.any_eq_true.mp hany
    exact ⟨x, mem_inclusions.mp hx, hmatch⟩

end Patterns

section TrailingStars

variable {l m : List Char} {x y name : String} {lit pat text : List UInt8}

theorem bytesOf_ofList : bytesOf (String.ofList l) = l.flatMap String.utf8EncodeChar := by
  simp [bytesOf]

theorem globBytes_append (h : ∀ b ∈ lit, b ≠ 42 ∧ b ≠ 63) : globBytes (lit ++ pat) text = true ↔
    ∃ rest, text = lit ++ rest ∧ globBytes pat rest = true := by
  induction lit generalizing text with
  | nil => simp
  | cons b lit ih =>
    obtain ⟨hstar, hany⟩ := h b List.mem_cons_self
    have hlit := fun c hc => h c (List.mem_cons_of_mem b hc)
    cases text with
    | nil => simp [globBytes_cons_nil hstar]
    | cons c text =>
      rw [List.cons_append, globBytes_cons hstar, if_neg hany, Bool.and_eq_true, ih hlit]
      constructor
      · rintro ⟨hc, rest, rfl, hrest⟩
        rw [eq_of_beq hc]
        exact ⟨rest, rfl, hrest⟩
      · rintro ⟨rest, heq, hrest⟩
        obtain ⟨rfl, rfl⟩ := List.cons_eq_cons.mp heq
        exact ⟨beq_self_eq_true c, rest, rfl, hrest⟩

theorem globBytes_lastStar : globBytes [42] text = true ↔ 47 ∉ text := by
  have hstar : globBytes [42] text = (starRests text).any (globBytes []) := globBytes_star nofun
  rw [hstar, List.any_eq_true]
  constructor
  · rintro ⟨s, hs, hnil⟩
    obtain ⟨a, ha, rfl⟩ := mem_starRests.mp hs
    obtain rfl : s = [] := List.isEmpty_iff.mp hnil
    rwa [List.append_nil]
  · intro h
    exact ⟨[], mem_starRests.mpr ⟨text, h, List.append_nil text⟩, rfl⟩

/-- A pattern of literal characters and a last star matches what it is a prefix of, up to the
next slash. -/
theorem globMatch_star (h : ∀ c ∈ l, c ≠ '*' ∧ c ≠ '?') (hx : x.toList = l ++ ['*']) :
    globMatch x name = true ↔
      ∃ rest, bytesOf name = l.flatMap String.utf8EncodeChar ++ rest ∧ 47 ∉ rest := by
  have hbytes : bytesOf x = l.flatMap String.utf8EncodeChar ++ [42] := by
    rw [bytesOf, hx, List.flatMap_append]
    rfl
  rw [globMatch_eq, hbytes, globBytes_append (literal_bytes h)]
  simp only [globBytes_lastStar]

theorem stem_eq (hstar : x.toList.rdropWhile (· == '*') = l) (hslash : l.getLast? ≠ some '/') :
    stem x = String.ofList l := by
  have hlast : l.rdropWhile (· == '/') = l := by
    refine List.rdropWhile_eq_self_iff.mpr fun hne hl => hslash ?_
    rw [List.getLast?_eq_some_getLast hne, eq_of_beq hl]
  rw [stem, hstar, hlast]

theorem stem_literal (h : ∀ c ∈ x.toList, c ≠ '*' ∧ c ≠ '?')
    (hslash : x.toList.getLast? ≠ some '/') : stem x = x := by
  have hstar : x.toList.rdropWhile (· == '*') = x.toList := by
    refine List.rdropWhile_eq_self_iff.mpr fun hne hl => ?_
    exact (h _ (List.getLast_mem hne)).1 (eq_of_beq hl)
  rw [stem_eq hstar hslash, String.ofList_toList]

theorem stem_star (h : ∀ c ∈ l, c ≠ '*' ∧ c ≠ '?') (hx : x.toList = l ++ ['*'])
    (hslash : l.getLast? ≠ some '/') : stem x = String.ofList l := by
  refine stem_eq ?_ hslash
  rw [hx, List.rdropWhile_concat_pos (· == '*') l '*' rfl]
  refine List.rdropWhile_eq_self_iff.mpr fun hne hl => ?_
  exact (h _ (List.getLast_mem hne)).1 (eq_of_beq hl)

theorem stem_matches (h : globMatch x (stem y) = true) : globMayOverlap x y = true := by
  simp [globMayOverlap, h]

theorem globMayOverlap_symm : globMayOverlap x y = globMayOverlap y x := by
  rw [Bool.eq_iff_iff]
  simp only [globMayOverlap, Bool.or_eq_true, beq_iff_eq, eq_comm (a := x)]
  tauto

theorem overlap_literal (h : ∀ c ∈ x.toList, c ≠ '*' ∧ c ≠ '?')
    (hx : globMatch x name = true) (hy : globMatch y name = true)
    (hslash : name.toList.getLast? ≠ some '/') : globMayOverlap y x = true := by
  have hlit : ∀ b ∈ bytesOf x, b ≠ 42 ∧ b ≠ 63 := literal_bytes h
  rw [globMatch_eq, globBytes_literal hlit] at hx
  obtain rfl := bytesOf_inj hx
  exact stem_matches (by rwa [stem_literal h hslash])

/-- Of two literal texts with a last star, matched by one name, the longer is a match of the
shorter, or they are one pattern. -/
theorem overlap_star (hl : ∀ c ∈ l, c ≠ '*' ∧ c ≠ '?') (hm : ∀ c ∈ m, c ≠ '*' ∧ c ≠ '?')
    (hx : x.toList = l ++ ['*']) (hy : y.toList = m ++ ['*']) {w : List UInt8}
    (hw : m.flatMap String.utf8EncodeChar = l.flatMap String.utf8EncodeChar ++ w)
    (hslash : 47 ∉ w) : globMayOverlap x y = true := by
  by_cases hlast : m.getLast? = some '/'
  · -- the slash is not in the rest, so there is no rest
    obtain ⟨m', rfl⟩ := List.getLast?_eq_some_iff.mp hlast
    rcases List.eq_nil_or_concat w with rfl | ⟨v, b, rfl⟩
    · have hbytes : bytesOf x = bytesOf y := by
        rw [bytesOf, bytesOf, hx, hy, List.flatMap_append, List.flatMap_append, hw,
          List.append_nil]
      simp [globMayOverlap, bytesOf_inj hbytes]
    · have hb : b = 47 := by
        have hslashByte : String.utf8EncodeChar '/' = [47] := by decide
        rw [List.flatMap_append, List.flatMap_singleton, hslashByte, List.concat_eq_append,
          ← List.append_assoc] at hw
        exact (List.singleton_inj.mp (List.append_inj_right' hw rfl)).symm
      exact absurd (by simp [hb]) hslash
  · refine stem_matches ?_
    rw [stem_star hm hy hlast]
    exact (globMatch_star hl hx).mpr ⟨w, by rw [bytesOf_ofList, hw], hslash⟩

theorem overlap_trailing (hx : TrailingStar x) (hy : TrailingStar y)
    (hmx : globMatch x name = true) (hmy : globMatch y name = true)
    (hslash : name.toList.getLast? ≠ some '/') : globMayOverlap x y = true := by
  obtain ⟨l, hl, rfl | hx⟩ := hx
  · exact globMayOverlap_symm.trans (overlap_literal hl hmx hmy hslash)
  obtain ⟨m, hm, rfl | hy⟩ := hy
  · exact overlap_literal hm hmy hmx hslash
  obtain ⟨r, hr, hrs⟩ := (globMatch_star hl hx).mp hmx
  obtain ⟨r', hr', hrs'⟩ := (globMatch_star hm hy).mp hmy
  rcases List.append_eq_append_iff.mp (hr.symm.trans hr') with ⟨w, hw, hrw⟩ | ⟨w, hw, hrw⟩
  · exact overlap_star hl hm hx hy hw fun h => hrs (hrw ▸ List.mem_append_left r' h)
  · exact globMayOverlap_symm.trans (overlap_star hm hl hy hx hw
      fun h => hrs' (hrw ▸ List.mem_append_left r h))

end TrailingStars

section Rules

variable {a b : Rule} {policy : RepoPolicy}

theorem disjoint_iff {α : Type} [DecidableEq α] {xs ys : List α} :
    disjoint xs ys = true ↔ ∀ x ∈ xs, x ∉ ys := by
  simp [disjoint]

theorem shares_iff {pa pb : ProtectEffect} :
    disjoint (restrictSet pa) (restrictSet pb) = false ↔ ∃ op, Names pa op ∧ Names pb op := by
  rw [← Bool.not_eq_true, disjoint_iff]
  simp [mem_restrictSet]

theorem lockout_iff : lockout a b = true ↔ InSight a b := by
  unfold lockout InSight ApartBypass
  cases a.protect with
  | none => simp
  | some pa =>
    cases b.protect with
    | none => simp
    | some pb =>
      simp only [Bool.and_eq_true, Bool.not_eq_true', shares_iff, Bool.or_eq_false_iff,
        refPatternsMayOverlap_iff, disjoint_iff, List.isEmpty_eq_false_iff, Option.some.injEq,
        and_assoc, ne_eq]
      simp only [exists_and_left, exists_eq_left']

theorem firstPair_eq_none {α : Type} {test : α → α → Bool} {l : List α} :
    firstPair test l = none ↔ l.Pairwise fun x y => test x y = false := by
  induction l with
  | nil => simp [firstPair]
  | cons x l ih =>
    rw [firstPair, Option.or_eq_none_iff, Option.map_eq_none_iff, ih, List.pairwise_cons,
      List.find?_eq_none]
    simp only [Bool.not_eq_true]

theorem checkOverlapBypass_error :
    (∃ msg, checkOverlapBypass policy = .error msg) ↔ policy.HasPair InSight := by
  have hnone : firstPair lockout policy.protects = none ↔ ¬ policy.HasPair InSight := by
    rw [firstPair_eq_none, List.pairwise_iff_forall_sublist]
    simp [RepoPolicy.HasPair, ← lockout_iff]
  unfold checkOverlapBypass
  cases hpair : firstPair lockout policy.protects with
  | none => simpa using hnone.mp hpair
  | some pair =>
    have : policy.HasPair InSight := not_not.mp fun h => by simp [hnone.mpr h] at hpair
    simpa using this

/-- The overlap test has two lists for overlapping exactly where an inclusion of one is related to
one of the other, and the check refuses a policy exactly where two of its rules are in sight: so
the test sees a shared name, and the check a deadlock, exactly in that case. Patterns without a
wildcard but a last star are related as soon as they match the name of a ref. -/
theorem overlap_conservative_iff (a b : List String) (policy : RepoPolicy) :
    (refPatternsMayOverlap a b = true ↔ RelatedLists a b) ∧
    ((∃ msg, checkOverlapBypass policy = .error msg) ↔ policy.HasPair InSight) ∧
    ((SameRef a b → refPatternsMayOverlap a b = true) ↔ (SameRef a b → RelatedLists a b)) ∧
    ((policy.HasPair Deadlock → ∃ msg, checkOverlapBypass policy = .error msg) ↔
      (policy.HasPair Deadlock → policy.HasPair InSight)) ∧
    ((∀ p, Includes a p ∨ Includes b p → TrailingStar p) → ∀ name,
      name.toList.getLast? ≠ some '/' → patternListMatches a name = true →
      patternListMatches b name = true → refPatternsMayOverlap a b = true) := by
  refine ⟨refPatternsMayOverlap_iff, checkOverlapBypass_error, ?_, ?_,
    fun htrailing name hslash ha hb => ?_⟩
  · rw [refPatternsMayOverlap_iff]
  · rw [checkOverlapBypass_error]
  · rw [refPatternsMayOverlap_iff]
    by_contra hno
    obtain ⟨hna, hnb, hall⟩ := not_or.mp hno |>.imp_right not_or.mp
    obtain ⟨x, hx, hmx⟩ := exists_inclusion ha hna
    obtain ⟨y, hy, hmy⟩ := exists_inclusion hb hnb
    have htx := htrailing x (.inl hx)
    have hty := htrailing y (.inr hy)
    exact hall ⟨x, y, hx, hy, globMayOverlap_iff.mp (overlap_trailing htx hty hmx hmy hslash)⟩

/-- Two rules for one branch, by two patterns, each with the other's star where it has text. -/
def crossingPolicy : RepoPolicy :=
  ⟨[], [⟨"trunk", ⟨["refs/*/main"], []⟩, some ⟨none, ["ann"]⟩⟩,
    ⟨"heads", ⟨["refs/heads/*"], []⟩, some ⟨none, ["bob"]⟩⟩]⟩

theorem crossing_rules_load : crossingPolicy.HasPair Deadlock ∧
    checkOverlapBypass crossingPolicy = .ok () ∧
    SameRef ["refs/*/main"] ["refs/heads/*"] ∧
    refPatternsMayOverlap ["refs/*/main"] ["refs/heads/*"] = false := by
  have hname : SameRef ["refs/*/main"] ["refs/heads/*"] :=
    ⟨"refs/heads/main", by decide, by decide⟩
  refine ⟨⟨_, _, List.Sublist.refl _, _, _, rfl, rfl, hname, ⟨.delete, false, by decide, by decide⟩,
    nofun, nofun, by decide⟩, rfl, hname, by decide⟩

end Rules

end Walgit.Policy
