import Mathlib.Data.List.Forall2
import Mathlib.Data.Prod.Lex
import Walgit.RefSelection

/-!
# Two matchers of ref globs

The CI runner walks the pattern and the name together and goes back to the last
star when they part. The import filter cuts the pattern at its stars and looks
for the pieces from the left. Both decide the language of the pattern.
-/

namespace Walgit.Ci

open Bundles Computability

section Language

/-- A character of a pattern other than a star: `?` stands for any character. -/
def Fits (c nc : Char) : Prop := c = '?' ∨ c = nc

instance (c nc : Char) : Decidable (Fits c nc) := inferInstanceAs (Decidable (_ ∨ _))

def oneChar (c : Char) : Language Char := { w | ∃ nc, Fits c nc ∧ w = [nc] }

/-- A star stands for any characters, `?` for one, others for themselves. -/
def refGlob (pattern : List Char) : Language Char :=
  (pattern.map fun c => if c = '*' then (⊤ : Language Char) else oneChar c).prod

variable {p lits text w : List Char} {c nc : Char}

theorem mem_refGlob_nil : w ∈ refGlob [] ↔ w = [] := Language.mem_one w

theorem mem_refGlob_star : w ∈ refGlob ('*' :: p) ↔ ∃ v, v <:+ w ∧ v ∈ refGlob p := by
  rw [refGlob, List.map_cons, List.prod_cons, if_pos rfl, Language.mem_mul]
  constructor
  · rintro ⟨u, -, v, hv, rfl⟩
    exact ⟨v, List.suffix_append u v, hv⟩
  · rintro ⟨v, ⟨u, rfl⟩, hv⟩
    exact ⟨u, trivial, v, hv, rfl⟩

theorem mem_refGlob_literal (hc : c ≠ '*') :
    w ∈ refGlob (c :: p) ↔ ∃ nc v, w = nc :: v ∧ Fits c nc ∧ v ∈ refGlob p := by
  rw [refGlob, List.map_cons, List.prod_cons, if_neg hc, Language.mem_mul]
  constructor
  · rintro ⟨u, ⟨nc, hfits, rfl⟩, v, hv, rfl⟩
    exact ⟨nc, v, rfl, hfits, hv⟩
  · rintro ⟨nc, v, rfl, hfits, hv⟩
    exact ⟨[nc], ⟨nc, hfits, rfl⟩, v, hv, rfl⟩

theorem mem_refGlob_append (hlits : '*' ∉ lits) (h : w ∈ refGlob (lits ++ p)) :
    w.drop lits.length ∈ refGlob p ∧ lits.length ≤ w.length := by
  induction lits generalizing w with
  | nil => exact ⟨h, Nat.zero_le _⟩
  | cons c lits ih =>
    rw [List.mem_cons, not_or] at hlits
    rw [List.cons_append, mem_refGlob_literal (Ne.symm hlits.1)] at h
    obtain ⟨nc, v, rfl, -, hv⟩ := h
    obtain ⟨hdrop, hlen⟩ := ih hlits.2 hv
    exact ⟨hdrop, Nat.succ_le_succ hlen⟩

theorem refGlob_eq_starGlob (h : '?' ∉ p) : refGlob p = starGlob p := by
  rw [refGlob, starGlob]
  congr 1
  apply List.map_congr_left
  intro c hc
  split
  · rfl
  · ext w
    have hne : c ≠ '?' := ne_of_mem_of_not_mem hc h
    constructor
    · rintro ⟨nc, hq | rfl, rfl⟩
      · exact absurd hq hne
      · rfl
    · rintro rfl
      exact ⟨c, .inr rfl, rfl⟩

end Language

section CiMatcher

/-- Where the loop stands: the pattern and the name from `pi` and `ni` on, and
what the last star left: the pattern after it and the name from `mark` on. -/
structure Cursor where
  pat : List Char
  text : List Char
  back : Option (List Char × List Char)
  since : ∀ b ∈ back, ∃ lits read, b.1 = lits ++ pat ∧ b.2 = read ++ text ∧
    List.Forall₂ Fits lits read

namespace Cursor

variable {s : Cursor} {c nc : Char} {p t : List Char} {b : List Char × List Char}

def literal (s : Cursor) (hp : s.pat = c :: p) (ht : s.text = nc :: t) (hfits : Fits c nc) :
    Cursor where
  pat := p
  text := t
  back := s.back
  since b hb := by
    obtain ⟨lits, read, h₁, h₂, hread⟩ := s.since b hb
    refine ⟨lits ++ [c], read ++ [nc], ?_, ?_, List.rel_append hread (.cons hfits .nil)⟩
    · rw [h₁, hp, List.append_assoc, List.singleton_append]
    · rw [h₂, ht, List.append_assoc, List.singleton_append]

def star (p t : List Char) : Cursor where
  pat := p
  text := t
  back := some (p, t)
  since b hb := by
    cases hb
    exact ⟨[], [], rfl, rfl, .nil⟩

def retreat (b : List Char × List Char) : Cursor := star b.1 b.2.tail

def rank (s : Cursor) : ℕ × ℕ × ℕ :=
  match s.back with
  | none => (s.pat.length + 1, 0, s.text.length)
  | some b => (b.1.length, b.2.length, s.text.length)

theorem literal_lt (hp : s.pat = c :: p) (ht : s.text = nc :: t) (hfits : Fits c nc) :
    WellFoundedRelation.rel (s.literal hp ht hfits).rank s.rank := by
  rw [rank, rank, hp, ht]
  change WellFoundedRelation.rel (match s.back with | none => _ | some b => _) _
  cases s.back with
  | none => exact .left _ _ (Nat.lt_succ_self (p.length + 1))
  | some b => exact .right _ (.right _ (Nat.lt_succ_self t.length))

theorem star_lt (hp : s.pat = c :: p) (t : List Char) :
    WellFoundedRelation.rel (star p t).rank s.rank := by
  rw [rank, rank, hp]
  rcases hb : s.back with _ | b
  · exact .left _ _ (Nat.lt_add_of_pos_right (Nat.zero_lt_two))
  · obtain ⟨lits, read, h₁, -, -⟩ := s.since b hb
    have hlt : p.length < b.1.length := by
      rw [h₁, hp, List.length_append, List.length_cons]
      omega
    exact .left _ _ hlt

theorem retreat_lt (hb : s.back = some b) (ht : s.text ≠ []) :
    WellFoundedRelation.rel (retreat b).rank s.rank := by
  rw [rank, rank, hb]
  obtain ⟨lits, read, -, h₂, -⟩ := s.since b hb
  have hlt : b.2.tail.length < b.2.length := by
    have hpos := List.length_pos_iff.mpr ht
    rw [List.length_tail, h₂, List.length_append]
    omega
  exact .right _ (.left _ _ hlt)

end Cursor

/-- The loop of the CI runner's `glob_match`, and the stars it skips at the end. -/
def globLoop (s : Cursor) : Bool :=
  match ht : s.text with
  | [] => s.pat.dropWhile (· = '*') = []
  | nc :: t =>
    match hp : s.pat with
    | c :: p =>
      if hfits : Fits c nc then globLoop (s.literal hp ht hfits)
      else if c = '*' then globLoop (.star p (nc :: t))
      else match _ : s.back with
        | some b => globLoop (.retreat b)
        | none => false
    | [] => match _ : s.back with
      | some b => globLoop (.retreat b)
      | none => false
termination_by s.rank
decreasing_by
  · exact Cursor.literal_lt hp ht hfits
  · exact Cursor.star_lt hp _
  · exact Cursor.retreat_lt ‹_› (ht ▸ List.cons_ne_nil nc t)
  · exact Cursor.retreat_lt ‹_› (ht ▸ List.cons_ne_nil nc t)

/-- `glob_match` of the CI runner. -/
def globMatch (pattern name : String) : Bool :=
  globLoop ⟨pattern.toList, name.toList, none, nofun⟩

variable {s : Cursor} {p t m : List Char} {b : List Char × List Char}

/-- The last star can still take more than it has: what is then left of the name. -/
def Later (b : List Char × List Char) : Prop :=
  ∃ m, m <:+ b.2 ∧ m.length < b.2.length ∧ m ∈ refGlob b.1

/-- What the last star can still take, a star reached now can take as well: the
characters between them take one character of the name each. -/
theorem Cursor.of_later (hb : b ∈ s.back) (hstar : '*' ∉ b.2) (h : Later b) :
    ∃ v, v <:+ s.text ∧ v.length < s.text.length ∧ v ∈ refGlob s.pat := by
  obtain ⟨lits, read, h₁, h₂, hread⟩ := s.since b hb
  obtain ⟨m, hsuffix, hlt, hm⟩ := h
  have hlits : '*' ∉ lits := by
    intro hmem
    rw [h₂, List.mem_append, not_or] at hstar
    obtain ⟨i, hi, hget⟩ := List.getElem_of_mem hmem
    have hfits := hread.get hi (hread.length_eq ▸ hi)
    rcases hfits with hq | heq
    · rw [List.get_eq_getElem, hget] at hq
      revert hq
      decide
    · rw [List.get_eq_getElem, hget] at heq
      exact hstar.1 (heq ▸ List.get_mem _ _)
  rw [h₁] at hm
  obtain ⟨hdrop, hle⟩ := mem_refGlob_append hlits hm
  have hlen : (m.drop lits.length).length < s.text.length := by
    have heq := hread.length_eq
    rw [h₂, List.length_append] at hlt
    rw [List.length_drop]
    omega
  have hsuffix' : m.drop lits.length <:+ read ++ s.text :=
    (List.drop_suffix _ m).trans (h₂ ▸ hsuffix)
  exact ⟨_, List.suffix_of_suffix_length_le hsuffix' (List.suffix_append _ _) hlen.le, hlen, hdrop⟩

theorem mem_refGlob_star_iff_later : t ∈ refGlob ('*' :: p) ↔ t ∈ refGlob p ∨ Later (p, t) := by
  rw [mem_refGlob_star]
  constructor
  · rintro ⟨v, hv, hmem⟩
    rcases hv.length_le.eq_or_lt with heq | hlt
    · rw [hv.eq_of_length heq] at hmem
      exact .inl hmem
    · exact .inr ⟨v, hv, hlt, hmem⟩
  · rintro (hmem | ⟨v, hv, -, hmem⟩)
    · exact ⟨t, List.suffix_refl t, hmem⟩
    · exact ⟨v, hv, hmem⟩

theorem later_iff_retreat (hne : b.2 ≠ []) :
    Later b ↔ b.2.tail ∈ refGlob b.1 ∨ Later (b.1, b.2.tail) := by
  rw [← mem_refGlob_star_iff_later, mem_refGlob_star, Later]
  obtain ⟨c, t, ht⟩ := List.exists_cons_of_ne_nil hne
  rw [ht, List.tail_cons]
  refine exists_congr fun m => ?_
  rw [← and_assoc]
  refine and_congr_left fun _ => ⟨?_, fun hm => ⟨hm.trans (List.suffix_cons c t), ?_⟩⟩
  · rintro ⟨hsuffix, hlt⟩
    exact List.suffix_of_suffix_length_le hsuffix (List.suffix_cons c t) (Nat.le_of_lt_succ hlt)
  · exact Nat.lt_succ_of_le hm.length_le

theorem nil_mem_refGlob_iff : [] ∈ refGlob p ↔ p.dropWhile (· = '*') = [] := by
  induction p with
  | nil => exact iff_of_true (mem_refGlob_nil.mpr rfl) rfl
  | cons c p ih =>
    by_cases hc : c = '*'
    · subst hc
      rw [mem_refGlob_star, List.dropWhile_cons_of_pos (by simp), ← ih]
      simp
    · rw [mem_refGlob_literal hc, List.dropWhile_cons_of_neg (by simpa using hc)]
      simp

/-- What is left to the loop: the rest of the pattern here, or the last star again. -/
def Cursor.Accepts (s : Cursor) : Prop := s.text ∈ refGlob s.pat ∨ ∃ b ∈ s.back, Later b

theorem Cursor.accepts_star_iff (s : Cursor) (hpat : s.pat = '*' :: p)
    (hstar : ∀ b ∈ s.back, '*' ∉ b.2) : s.Accepts ↔ (star p s.text).Accepts := by
  have hnew : (star p s.text).Accepts ↔ s.text ∈ refGlob s.pat := by
    rw [hpat, mem_refGlob_star_iff_later, Accepts]
    simp [star]
  rw [hnew, Accepts]
  refine or_iff_left_of_imp ?_
  rintro ⟨b, hb, hlater⟩
  obtain ⟨v, hsuffix, -, hv⟩ := s.of_later hb (hstar b hb) hlater
  rw [hpat, mem_refGlob_star] at hv ⊢
  obtain ⟨w, hw, hmem⟩ := hv
  exact ⟨w, hw.trans hsuffix, hmem⟩

theorem Cursor.accepts_retreat_iff (s : Cursor) (hhere : s.text ∉ refGlob s.pat)
    (hb : s.back = some b) (htext : s.text ≠ []) : s.Accepts ↔ (retreat b).Accepts := by
  have hne : b.2 ≠ [] := by
    obtain ⟨lits, read, -, h₂, -⟩ := s.since b hb
    rw [h₂]
    exact List.append_ne_nil_of_right_ne_nil read htext
  rw [Accepts, or_iff_right hhere, hb]
  simpa [Accepts, retreat, star] using later_iff_retreat hne

theorem Cursor.literal_mismatch {nc c : Char} (ht : s.text = nc :: t) (hp : s.pat = c :: p)
    (hfits : ¬ Fits c nc) (hc : c ≠ '*') : s.text ∉ refGlob s.pat := by
  rw [ht, hp, mem_refGlob_literal hc]
  rintro ⟨nc', v, heq, hfits', -⟩
  obtain ⟨rfl, -⟩ := List.cons.inj heq
  exact hfits hfits'

theorem Cursor.pattern_spent {nc : Char} (ht : s.text = nc :: t) (hp : s.pat = []) :
    s.text ∉ refGlob s.pat := by
  rw [ht, hp, mem_refGlob_nil]
  exact List.cons_ne_nil nc t

theorem globLoop_iff (s : Cursor) (htext : '*' ∉ s.text) (hstar : ∀ b ∈ s.back, '*' ∉ b.2) :
    globLoop s = true ↔ s.Accepts := by
  have hretreat {b : List Char × List Char} (hb : '*' ∉ b.2) :
      '*' ∉ (Cursor.retreat b).text ∧ ∀ b' ∈ (Cursor.retreat b).back, '*' ∉ b'.2 := by
    have htail : '*' ∉ b.2.tail := fun h => hb (List.mem_of_mem_tail h)
    refine ⟨htail, ?_⟩
    rintro b' ⟨⟩
    exact htail
  fun_induction globLoop s with
  | case1 s ht =>
    have hlater : ¬ ∃ b ∈ s.back, Later b := by
      rintro ⟨b, hb, h⟩
      obtain ⟨v, -, hlt, -⟩ := s.of_later hb (hstar b hb) h
      rw [ht] at hlt
      exact Nat.not_lt_zero _ hlt
    rw [Cursor.Accepts, or_iff_left hlater, ht, nil_mem_refGlob_iff, decide_eq_true_iff]
  | case2 s nc t ht c p hp hfits ih =>
    rw [ht, List.mem_cons, not_or] at htext
    have hc : c ≠ '*' := by
      rintro rfl
      exact hfits.elim (by decide) htext.1
    have hhere : t ∈ refGlob p ↔ s.text ∈ refGlob s.pat := by
      rw [ht, hp, mem_refGlob_literal hc]
      constructor
      · exact fun h => ⟨nc, t, rfl, hfits, h⟩
      · rintro ⟨nc', v, heq, -, hv⟩
        rwa [(List.cons.inj heq).2]
    exact (ih htext.2 hstar).trans (or_congr_left hhere)
  | case3 s nc t ht p hp hfits ih =>
    rw [s.accepts_star_iff hp hstar, ht]
    rw [ht] at htext
    refine ih htext ?_
    rintro b ⟨⟩
    exact htext
  | case4 s nc t ht c p hp hfits hc b hb ih =>
    have hhere := Cursor.literal_mismatch ht hp hfits hc
    rw [s.accepts_retreat_iff hhere hb (ht ▸ List.cons_ne_nil nc t)]
    obtain ⟨h₁, h₂⟩ := hretreat (hstar b hb)
    exact ih h₁ h₂
  | case5 s nc t ht c p hp hfits hc hb =>
    have hhere := Cursor.literal_mismatch ht hp hfits hc
    simp [Cursor.Accepts, hhere, hb]
  | case6 s nc t ht hp b hb ih =>
    have hhere := Cursor.pattern_spent ht hp
    rw [s.accepts_retreat_iff hhere hb (ht ▸ List.cons_ne_nil nc t)]
    obtain ⟨h₁, h₂⟩ := hretreat (hstar b hb)
    exact ih h₁ h₂
  | case7 s nc t ht hp hb =>
    have hhere := Cursor.pattern_spent ht hp
    simp [Cursor.Accepts, hhere, hb]

theorem globMatch_iff (pattern name : String) (hname : '*' ∉ name.toList) :
    globMatch pattern name = true ↔ name.toList ∈ refGlob pattern.toList := by
  rw [globMatch, globLoop_iff _ hname (by rintro b ⟨⟩), Cursor.Accepts]
  simp

end CiMatcher

section ImportMatcher

variable {p t part : List Char} {parts : List (List Char)}

/-- `str::split('*')`: the first part, and those that follow a star. -/
def splitStar : List Char → List Char × List (List Char)
  | [] => ([], [])
  | c :: p =>
    let (part, parts) := splitStar p
    if c = '*' then ([], part :: parts) else (c :: part, parts)

/-- `str::find`, as what follows the first place where `part` stands. -/
def afterFirst (part : List Char) : List Char → Option (List Char)
  | [] => if part = [] then some [] else none
  | c :: t => if part <+: c :: t then some ((c :: t).drop part.length) else afterFirst part t

/-- The parts after the first: the last must end the text, the others are found
one after another. -/
def globParts : List (List Char) → List Char → Bool
  | [], _ => true
  | [part], t => part <:+ t
  | part :: parts, t =>
    if part = [] then globParts parts t
    else match afterFirst part t with
      | some t => globParts parts t
      | none => false

/-- `glob_match` of the import filter. -/
def filterMatch (pattern s : String) : Bool :=
  match splitStar pattern.toList with
  | (_, []) => pattern = s
  | (part, parts) => part <+: s.toList ∧ globParts parts (s.toList.drop part.length)

theorem splitStar_parts (p : List Char) :
    p = (splitStar p).1 ++ (splitStar p).2.flatMap ('*' :: ·) ∧ '*' ∉ (splitStar p).1 ∧
      ∀ part ∈ (splitStar p).2, '*' ∉ part := by
  induction p with
  | nil => simp [splitStar]
  | cons c p ih =>
    obtain ⟨hp, hfirst, hrest⟩ := ih
    by_cases hc : c = '*'
    · simp only [splitStar, if_pos hc]
      refine ⟨?_, List.not_mem_nil, List.forall_mem_cons.mpr ⟨hfirst, hrest⟩⟩
      rw [hc, List.nil_append, List.flatMap_cons, List.cons_append, ← hp]
    · simp only [splitStar, if_neg hc]
      refine ⟨?_, ?_, hrest⟩
      · rw [List.cons_append, ← hp]
      · rw [List.mem_cons, not_or]
        exact ⟨Ne.symm hc, hfirst⟩

theorem mem_starGlob_append (hpart : '*' ∉ part) :
    t ∈ starGlob (part ++ p) ↔ ∃ v, part ++ v = t ∧ v ∈ starGlob p := by
  rw [starGlob_append, Language.mem_mul]
  constructor
  · rintro ⟨u, hu, v, hv, rfl⟩
    rw [(mem_starGlob_of_no_star hpart).mp hu]
    exact ⟨v, rfl, hv⟩
  · rintro ⟨v, rfl, hv⟩
    exact ⟨part, mem_starGlob_self, v, hv, rfl⟩

theorem suffix_of_afterFirst {w : List Char} (h : afterFirst part t = some w) :
    part ++ w <:+ t := by
  induction t with
  | nil =>
    rw [afterFirst] at h
    split at h
    · next hpart =>
      cases h
      rw [hpart, List.append_nil]
    · cases h
  | cons c t ih =>
    rw [afterFirst] at h
    split at h
    · next hpre =>
      cases h
      obtain ⟨w, hw⟩ := hpre
      rw [← hw, List.drop_left]
    · exact (ih h).trans (List.suffix_cons c t)

theorem exists_afterFirst {v : List Char} (h : part ++ v <:+ t) :
    ∃ w, afterFirst part t = some w ∧ v <:+ w := by
  induction t with
  | nil =>
    rw [List.suffix_nil, List.append_eq_nil_iff] at h
    exact ⟨[], if_pos h.1, h.2 ▸ List.suffix_refl _⟩
  | cons c t ih =>
    rw [afterFirst]
    by_cases hpre : part <+: c :: t
    · obtain ⟨w, hw⟩ := hpre
      rw [if_pos ⟨w, hw⟩, ← hw, List.drop_left]
      rw [← hw] at h
      have hlen := h.length_le
      rw [List.length_append, List.length_append] at hlen
      refine ⟨w, rfl, ?_⟩
      exact List.suffix_of_suffix_length_le ((List.suffix_append part v).trans h)
        (List.suffix_append part w) (by omega)
    · rw [if_neg hpre]
      rcases List.suffix_cons_iff.mp h with heq | hsuffix
      · exact absurd (heq ▸ List.prefix_append part v) hpre
      · exact ih hsuffix

theorem mem_starGlob_star_suffix : t ∈ starGlob ('*' :: p) ↔ ∃ v, v <:+ t ∧ v ∈ starGlob p := by
  rw [mem_starGlob_star]
  constructor
  · rintro ⟨u, v, rfl, hv⟩
    exact ⟨v, List.suffix_append u v, hv⟩
  · rintro ⟨v, ⟨u, rfl⟩, hv⟩
    exact ⟨u, v, rfl, hv⟩

theorem mem_starGlob_of_suffix {v : List Char} (h : v ∈ starGlob ('*' :: p)) (hsuffix : v <:+ t) :
    t ∈ starGlob ('*' :: p) := by
  rw [mem_starGlob_star_suffix] at h ⊢
  obtain ⟨w, hw, hmem⟩ := h
  exact ⟨w, hw.trans hsuffix, hmem⟩

theorem mem_starGlob_cons_parts (hpart : '*' ∉ part) :
    t ∈ starGlob ((part :: parts).flatMap ('*' :: ·)) ↔
      ∃ v, part ++ v <:+ t ∧ v ∈ starGlob (parts.flatMap ('*' :: ·)) := by
  rw [List.flatMap_cons, List.cons_append, mem_starGlob_star_suffix]
  constructor
  · rintro ⟨w, hw, hmem⟩
    obtain ⟨v, rfl, hv⟩ := (mem_starGlob_append hpart).mp hmem
    exact ⟨v, hw, hv⟩
  · rintro ⟨v, hw, hv⟩
    exact ⟨_, hw, (mem_starGlob_append hpart).mpr ⟨v, rfl, hv⟩⟩

theorem globParts_iff (hne : parts ≠ []) (hparts : ∀ part ∈ parts, '*' ∉ part) :
    globParts parts t = true ↔ t ∈ starGlob (parts.flatMap ('*' :: ·)) := by
  induction parts generalizing t with
  | nil => exact absurd rfl hne
  | cons part rest ih =>
    obtain ⟨hpart, hrest⟩ := List.forall_mem_cons.mp hparts
    cases rest with
    | nil =>
      rw [List.flatMap_cons, List.flatMap_nil, List.append_nil, mem_starGlob_star_suffix, globParts,
        decide_eq_true_iff]
      constructor
      · exact fun h => ⟨part, h, mem_starGlob_self⟩
      · rintro ⟨v, hsuffix, hv⟩
        rwa [(mem_starGlob_of_no_star hpart).mp hv] at hsuffix
    | cons next rest =>
      have ih {u : List Char} := @ih u (List.cons_ne_nil next rest) hrest
      rw [mem_starGlob_cons_parts hpart, globParts]
      split
      · next hnil =>
        rw [ih, hnil]
        constructor
        · exact fun h => ⟨t, List.suffix_refl t, h⟩
        · rintro ⟨v, hsuffix, hv⟩
          exact mem_starGlob_of_suffix hv hsuffix
      · split
        · next w hw =>
          rw [ih]
          constructor
          · exact fun h => ⟨w, suffix_of_afterFirst hw, h⟩
          · rintro ⟨v, hsuffix, hv⟩
            obtain ⟨w', hw', hv'⟩ := exists_afterFirst hsuffix
            cases hw.symm.trans hw'
            exact mem_starGlob_of_suffix hv hv'
        · next hnone =>
          refine iff_of_false Bool.false_ne_true ?_
          rintro ⟨v, hsuffix, -⟩
          obtain ⟨w, hw, -⟩ := exists_afterFirst hsuffix
          cases hnone.symm.trans hw
      · exact List.cons_ne_nil next rest

theorem filterMatch_iff (pattern s : String) :
    filterMatch pattern s = true ↔ s.toList ∈ starGlob pattern.toList := by
  obtain ⟨hsplit, hfirst, hparts⟩ := splitStar_parts pattern.toList
  rw [filterMatch]
  rcases hs : splitStar pattern.toList with ⟨part, _ | ⟨next, rest⟩⟩
  · rw [hs] at hsplit hfirst
    simp only [List.flatMap_nil, List.append_nil] at hsplit
    rw [hsplit, mem_starGlob_of_no_star hfirst]
    simp only [decide_eq_true_iff]
    rw [← hsplit, String.toList_inj, eq_comm]
  · rw [hs] at hsplit hfirst hparts
    simp only at hsplit hfirst hparts
    rw [hsplit, mem_starGlob_append hfirst]
    simp only [Bool.decide_and, Bool.and_eq_true, decide_eq_true_iff, Bool.decide_eq_true]
    rw [globParts_iff (List.cons_ne_nil next rest) hparts]
    constructor
    · rintro ⟨⟨v, hv⟩, hmem⟩
      rw [← hv, List.drop_left] at hmem
      exact ⟨v, hv, hmem⟩
    · rintro ⟨v, hv, hmem⟩
      rw [← hv, List.drop_left]
      exact ⟨List.prefix_append part v, hmem⟩

end ImportMatcher

/-- On a name without a star the two matchers decide the pattern's language,
the filter where the pattern has no `?`. -/
theorem ref_globs_agree (pattern name : String) (hstar : '*' ∉ name.toList) :
    (globMatch pattern name = true ↔ name.toList ∈ refGlob pattern.toList) ∧
      ('?' ∉ pattern.toList → filterMatch pattern name = globMatch pattern name) := by
  refine ⟨globMatch_iff pattern name hstar, fun hpattern => ?_⟩
  rw [Bool.eq_iff_iff, filterMatch_iff, globMatch_iff pattern name hstar,
    refGlob_eq_starGlob hpattern]

theorem ref_globs_agree_overlap :
    globMatch "refs/*a/*a" "refs/a/b/a" = true ∧
      filterMatch "refs/*a/*a" "refs/a/b/a" = globMatch "refs/*a/*a" "refs/a/b/a" := by
  have hagree := ref_globs_agree "refs/*a/*a" "refs/a/b/a" (by decide)
  have hfilter : filterMatch "refs/*a/*a" "refs/a/b/a" = true := by decide
  have hsame := hagree.2 (by decide)
  exact ⟨hsame.symm.trans hfilter, hsame⟩

end Walgit.Ci
