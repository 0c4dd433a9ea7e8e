import Mathlib.Computability.Language
import Walgit.Slots

/-!
# The refs that a pattern list selects

Patterns are documented as globs, and `refs/tags/v*` as an example of one. The
selection knows a star only as the whole last component, and compares any other
pattern with the name as it is. It also takes the name that stands before such
a last component, which no glob with that component matches.
-/

namespace Walgit.Bundles

open Appliers Computability

section Globs

variable {p q text : List Char} {c : Char}

/-- The names of a glob: a star stands for any characters, others for themselves. -/
def starGlob (pattern : List Char) : Language Char :=
  (pattern.map fun c => if c = '*' then (⊤ : Language Char) else {[c]}).prod

theorem starGlob_append : starGlob (p ++ q) = starGlob p * starGlob q := by
  rw [starGlob, List.map_append, List.prod_append]
  rfl

theorem mem_starGlob_star : text ∈ starGlob ('*' :: p) ↔ ∃ u v, u ++ v = text ∧ v ∈ starGlob p := by
  rw [starGlob, List.map_cons, List.prod_cons, if_pos rfl, Language.mem_mul]
  constructor
  · rintro ⟨u, -, v, hv, heq⟩
    exact ⟨u, v, heq, hv⟩
  · rintro ⟨u, v, heq, hv⟩
    exact ⟨u, trivial, v, hv, heq⟩

theorem mem_starGlob_literal (h : c ≠ '*') :
    text ∈ starGlob (c :: p) ↔ ∃ v, c :: v = text ∧ v ∈ starGlob p := by
  rw [starGlob, List.map_cons, List.prod_cons, if_neg h, Language.mem_mul]
  constructor
  · rintro ⟨u, rfl, v, hv, heq⟩
    exact ⟨v, heq, hv⟩
  · rintro ⟨v, heq, hv⟩
    exact ⟨[c], rfl, v, hv, heq⟩

theorem mem_starGlob_nil : text ∈ starGlob [] ↔ text = [] := Language.mem_one text

theorem mem_starGlob_of_no_star (h : '*' ∉ p) : text ∈ starGlob p ↔ text = p := by
  induction p generalizing text with
  | nil => exact mem_starGlob_nil
  | cons c p ih =>
    rw [List.mem_cons, not_or] at h
    rw [mem_starGlob_literal (Ne.symm h.1)]
    constructor
    · rintro ⟨v, rfl, hv⟩
      rw [(ih h.2).mp hv]
    · rintro rfl
      exact ⟨p, rfl, (ih h.2).mpr rfl⟩

theorem mem_starGlob_self : p ∈ starGlob p := by
  induction p with
  | nil => exact mem_starGlob_nil.mpr rfl
  | cons c p ih =>
    by_cases hc : c = '*'
    · rw [hc]
      exact mem_starGlob_star.mpr ⟨['*'], p, rfl, ih⟩
    · exact (mem_starGlob_literal hc).mpr ⟨p, rfl, ih⟩

theorem mem_starGlob_any : text ∈ starGlob ['*'] := by
  exact mem_starGlob_star.mpr ⟨text, [], List.append_nil text, mem_starGlob_nil.mpr rfl⟩

theorem mem_prefixGlob (h : '*' ∉ p) : text ∈ starGlob (p ++ ['*']) ↔ p <+: text := by
  rw [starGlob_append, Language.mem_mul]
  constructor
  · rintro ⟨u, hu, v, -, rfl⟩
    rw [(mem_starGlob_of_no_star h).mp hu]
    exact List.prefix_append p v
  · rintro ⟨v, rfl⟩
    exact ⟨p, mem_starGlob_self, v, mem_starGlob_any, rfl⟩

end Globs

section Patterns

variable {name pattern : String} {dir : List Char}

/-- The characters of `/*`. -/
def lastStar : List Char := ['/', '*']

/-- The name is the pattern, or under the directory of a pattern that ends in a whole star. -/
def Takes (pattern name : String) : Prop :=
  name = pattern ∨ ∃ dir, pattern.toList = dir ++ lastStar ∧ dir ++ ['/'] <+: name.toList

/-- The pattern has a star that is not its whole last component. -/
def Wild (pattern : String) : Prop :=
  '*' ∈ pattern.toList ∧ ∀ dir, pattern.toList = dir ++ lastStar → '*' ∈ dir

def Globs (pattern name : String) : Prop := name.toList ∈ starGlob pattern.toList

theorem takes_dir (h : pattern.toList = dir ++ lastStar) :
    Takes pattern name ↔ dir ++ ['/'] <+: name.toList := by
  constructor
  · rintro (rfl | ⟨dir', hdir', hprefix⟩)
    · exact ⟨['*'], by rw [h, lastStar, List.append_assoc]; rfl⟩
    · rw [h] at hdir'
      rwa [List.append_cancel_right hdir']
  · exact fun hprefix => .inr ⟨dir, h, hprefix⟩

theorem takes_plain (h : ∀ dir, pattern.toList ≠ dir ++ lastStar) :
    Takes pattern name ↔ name = pattern :=
  ⟨fun ht => ht.resolve_right fun ⟨dir, hdir, _⟩ => h dir hdir, .inl⟩

/-- What the code matches: what a pattern takes, and the directory of a last star itself. -/
theorem matchesPattern_iff : matchesPattern name pattern = true ↔
    Takes pattern name ∨ pattern.toList = name.toList ++ lastStar := by
  by_cases hsuffix : ∃ dir, pattern.toList = dir ++ lastStar
  · obtain ⟨dir, hdir⟩ := hsuffix
    have hhead : pattern ≠ "HEAD" := by
      rintro rfl
      have hlast := congrArg List.getLast? hdir
      simp [lastStar] at hlast
    have htest : "/*".toList.isSuffixOf pattern.toList = true := by
      rw [List.isSuffixOf_iff_suffix, hdir]
      exact List.suffix_append dir lastStar
    have htake : pattern.toList.take (pattern.toList.length - 2) = dir := by
      rw [hdir, lastStar]
      simp
    rw [matchesPattern, if_neg hhead, if_pos htest, htake, takes_dir hdir, Bool.or_eq_true,
      decide_eq_true_eq, List.isPrefixOf_iff_prefix, hdir, or_comm]
    exact or_congr_right ⟨fun h => by rw [h], fun h => (List.append_cancel_right h).symm⟩
  · have hplain : ∀ dir, pattern.toList ≠ dir ++ lastStar := fun dir h => hsuffix ⟨dir, h⟩
    have htest : ¬ "/*".toList.isSuffixOf pattern.toList = true := by
      rw [List.isSuffixOf_iff_suffix]
      rintro ⟨dir, hdir⟩
      exact hplain dir hdir.symm
    rw [takes_plain hplain, or_iff_left (hplain _), matchesPattern]
    split_ifs with hhead
    · rw [hhead, decide_eq_true_eq]
    · rw [decide_eq_true_eq]

theorem globs_of_takes (h : Takes pattern name) : Globs pattern name := by
  rcases h with rfl | ⟨dir, hdir, rest, hrest⟩
  · exact mem_starGlob_self
  · rw [Globs, hdir, ← hrest, lastStar, ← List.singleton_append, ← List.append_assoc,
      starGlob_append, Language.mem_mul]
    exact ⟨_, mem_starGlob_self, rest, mem_starGlob_any, rfl⟩

/-- Without a star before a last component, a glob takes its names as the code does. -/
theorem takes_of_globs (h : Globs pattern name) (hw : ¬ Wild pattern) : Takes pattern name := by
  by_cases hsuffix : ∃ dir, pattern.toList = dir ++ lastStar
  · obtain ⟨dir, hdir⟩ := hsuffix
    have hstar : '*' ∉ dir := by
      intro hmem
      refine hw ⟨by simp [hdir, hmem], fun dir' hdir' => ?_⟩
      rw [hdir] at hdir'
      rwa [← List.append_cancel_right hdir']
    have hslash : '*' ∉ dir ++ ['/'] := by simp [hstar]
    rw [Globs, hdir, lastStar, ← List.singleton_append, ← List.append_assoc,
      mem_prefixGlob hslash] at h
    exact (takes_dir hdir).mpr h
  · have hstar : '*' ∉ pattern.toList := fun hmem =>
      hw ⟨hmem, fun dir hdir => absurd ⟨dir, hdir⟩ hsuffix⟩
    exact .inl (String.toList_inj.mp ((mem_starGlob_of_no_star hstar).mp h))

end Patterns

section Selection

variable {patterns : List String} {snap : RefTable} {name : String}

/-- The listed refs are selected by the globs, and nothing else but `HEAD` is selected. -/
structure SelectsByGlob (patterns : List String) (snap : RefTable) : Prop where
  listed : ∀ r ∈ snap.refs, (r.name, r.oid) ∈ filterRefs patterns snap ↔
    ∃ p ∈ effective patterns, Globs p r.name
  others : ∀ t ∈ filterRefs patterns snap, (∃ r ∈ snap.refs, t = (r.name, r.oid)) ∨
    "HEAD" ∈ effective patterns ∧ ∃ r, snap.find snap.headTarget = some r ∧ t = ("HEAD", r.oid)

/-- A ref that a wild pattern globs is also one that some pattern takes, or the directory of a
last star; and a ref that is such a directory is one that some pattern globs. -/
structure Literal (patterns : List String) (snap : RefTable) : Prop where
  wild : ∀ r ∈ snap.refs, ∀ p ∈ effective patterns, Wild p → Globs p r.name →
    ∃ q ∈ effective patterns, Takes q r.name ∨ q.toList = r.name.toList ++ lastStar
  directory : ∀ r ∈ snap.refs, ∀ p ∈ effective patterns, p.toList = r.name.toList ++ lastStar →
    ∃ q ∈ effective patterns, Globs q r.name

theorem mem_named {t : String × String} :
    t ∈ ((snap.refs.filter fun r => (effective patterns).any (matchesPattern r.name)).map
      fun r => (r.name, r.oid)) ↔
    ∃ r ∈ snap.refs, (∃ p ∈ effective patterns, matchesPattern r.name p = true) ∧
      t = (r.name, r.oid) := by
  simp only [List.mem_map, List.mem_filter, List.any_eq_true, and_assoc, eq_comm (b := t)]

theorem mem_filterRefs {t : String × String} (h : t ∈ filterRefs patterns snap) :
    (∃ r ∈ snap.refs, (∃ p ∈ effective patterns, matchesPattern r.name p = true) ∧
      t = (r.name, r.oid)) ∨ "HEAD" ∈ effective patterns ∧
      ∃ r, snap.find snap.headTarget = some r ∧ t = ("HEAD", r.oid) := by
  simp only [filterRefs] at h
  split_ifs at h with hhead
  · rcases List.mem_append.mp h with h | h
    · exact .inl (mem_named.mp h)
    · rw [Option.mem_toList, Option.map_eq_some_iff] at h
      obtain ⟨r, hr, rfl⟩ := h
      exact .inr ⟨hhead.1, r, hr, rfl⟩
  · exact .inl (mem_named.mp h)

theorem mem_filterRefs_listed {r : Ref} (hr : r ∈ snap.refs) :
    (r.name, r.oid) ∈ filterRefs patterns snap ↔
      ∃ p ∈ effective patterns, matchesPattern r.name p = true := by
  constructor
  · intro h
    rcases mem_filterRefs h with ⟨r', -, hp, heq⟩ | ⟨hhead, r', -, heq⟩
    · rwa [(Prod.mk.inj heq).1]
    · exact ⟨"HEAD", hhead, by simp [matchesPattern, (Prod.mk.inj heq).1]⟩
  · intro h
    have hnamed := mem_named.mpr ⟨r, hr, h, rfl⟩
    simp only [filterRefs]
    split_ifs
    · exact List.mem_append_left _ hnamed
    · exact hnamed

/-- The selection follows the globs exactly when no listed ref depends on a star elsewhere than as
a whole last component, nor on being the directory of one. -/
theorem filterRefs_glob_iff (patterns : List String) (snap : RefTable) :
    SelectsByGlob patterns snap ↔ Literal patterns snap := by
  constructor
  · intro h
    refine ⟨fun r hr p hp _ hg => ?_, fun r hr p hp hdir => ?_⟩
    · obtain ⟨q, hq, hmatch⟩ := (mem_filterRefs_listed hr).mp ((h.listed r hr).mpr ⟨p, hp, hg⟩)
      exact ⟨q, hq, matchesPattern_iff.mp hmatch⟩
    · exact (h.listed r hr).mp
        ((mem_filterRefs_listed hr).mpr ⟨p, hp, matchesPattern_iff.mpr (.inr hdir)⟩)
  · intro h
    refine ⟨fun r hr => ?_, fun t ht => (mem_filterRefs ht).imp_left ?_⟩
    · rw [mem_filterRefs_listed hr]
      constructor
      · rintro ⟨p, hp, hmatch⟩
        rcases matchesPattern_iff.mp hmatch with htakes | hdir
        · exact ⟨p, hp, globs_of_takes htakes⟩
        · exact h.directory r hr p hp hdir
      · rintro ⟨p, hp, hg⟩
        by_cases hw : Wild p
        · obtain ⟨q, hq, hq'⟩ := h.wild r hr p hp hw hg
          exact ⟨q, hq, matchesPattern_iff.mpr hq'⟩
        · exact ⟨p, hp, matchesPattern_iff.mpr (.inl (takes_of_globs hg hw))⟩
    · rintro ⟨r, hr, -, heq⟩
      exact ⟨r, hr, heq⟩

def released : RefTable :=
  ⟨[⟨"refs/tags/v1", "b2", ""⟩], List.pairwise_singleton _ _, "refs/heads/main"⟩

/-- The documented example of a glob selects nothing. -/
theorem release_tags_missed : filterRefs ["refs/tags/v*"] released = [] ∧
    ¬ SelectsByGlob ["refs/tags/v*"] released := by
  have hnone : filterRefs ["refs/tags/v*"] released = [] := by decide
  refine ⟨hnone, fun h => ?_⟩
  have hglob : Globs "refs/tags/v*" "refs/tags/v1" :=
    (mem_prefixGlob (p := "refs/tags/v".toList) (by decide)).mpr (by decide)
  have hselected := (h.listed ⟨"refs/tags/v1", "b2", ""⟩ List.mem_cons_self).mpr
    ⟨_, List.mem_cons_self, hglob⟩
  rw [hnone] at hselected
  cases hselected

end Selection

end Walgit.Bundles
