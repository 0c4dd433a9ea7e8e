import Walgit.Policy

/-!
# Groups and actors

The resolution of an actor is a search of the membership graph that visits each
group once. It finds the principal exactly when some item reached from the entry
names it. An exclusion is also meant to hit when the search meets a group that
does not exist or a tag; only the entry itself is tested for that, and only as a
group.
-/

namespace Walgit.Policy

section Spec

variable (groups : List Group)

/-- Items reached from an entry through the members of its groups. -/
inductive Reaches : String → String → Prop
  | refl (spec : String) : Reaches spec spec
  | member {spec name m item : String} {g : Group} (hname : stripPrefix? "group:" spec = some name)
      (hg : findGroup groups name = some g) (hm : m ∈ g.members) (h : Reaches m item) :
      Reaches spec item

/-- An item that is a principal: neither a group nor a tag. -/
def IsPrincipal (spec : String) : Prop :=
  stripPrefix? "group:" spec = none ∧ stripPrefix? "@" spec = none

def Unresolvable (spec : String) : Prop :=
  (∃ name, stripPrefix? "group:" spec = some name ∧ findGroup groups name = none) ∨
    (stripPrefix? "group:" spec = none ∧ (stripPrefix? "@" spec).isSome = true)

def Admitted (principal spec : String) : Prop :=
  ∃ item, Reaches groups spec item ∧ IsPrincipal item ∧ eqIgnoreAsciiCase item principal = true

def MeetsUnresolvable (spec : String) : Prop :=
  ∃ item, Reaches groups spec item ∧ Unresolvable groups item

variable (principal : String)

/-- `any` of `principal_matches` over some entries, without a bound: the calls that end, with the
answer and the groups visited. -/
inductive Resolves : List String → List String → Bool × List String → Prop
  | nil {seen : List String} : Resolves [] seen (false, seen)
  | cycle {spec name : String} {specs seen : List String} {r : Bool × List String}
      (hname : stripPrefix? "group:" spec = some name) (hseen : name ∈ seen)
      (h : Resolves specs seen r) : Resolves (spec :: specs) seen r
  | missing {spec name : String} {specs seen : List String} {r : Bool × List String}
      (hname : stripPrefix? "group:" spec = some name) (hseen : name ∉ seen)
      (hg : findGroup groups name = none) (h : Resolves specs (name :: seen) r) :
      Resolves (spec :: specs) seen r
  | found {spec name : String} {specs seen seen' : List String} {g : Group}
      (hname : stripPrefix? "group:" spec = some name) (hseen : name ∉ seen)
      (hg : findGroup groups name = some g)
      (h : Resolves g.members (name :: seen) (true, seen')) :
      Resolves (spec :: specs) seen (true, seen')
  | searched {spec name : String} {specs seen seen' : List String} {g : Group}
      {r : Bool × List String} (hname : stripPrefix? "group:" spec = some name)
      (hseen : name ∉ seen) (hg : findGroup groups name = some g)
      (hm : Resolves g.members (name :: seen) (false, seen')) (h : Resolves specs seen' r) :
      Resolves (spec :: specs) seen r
  | tag {spec : String} {specs seen : List String} {r : Bool × List String}
      (hname : stripPrefix? "group:" spec = none) (htag : (stripPrefix? "@" spec).isSome = true)
      (h : Resolves specs seen r) : Resolves (spec :: specs) seen r
  | principal {spec : String} {specs seen : List String} (hp : IsPrincipal spec)
      (heq : eqIgnoreAsciiCase spec principal = true) : Resolves (spec :: specs) seen (true, seen)
  | other {spec : String} {specs seen : List String} {r : Bool × List String}
      (hp : IsPrincipal spec) (heq : eqIgnoreAsciiCase spec principal = false)
      (h : Resolves specs seen r) : Resolves (spec :: specs) seen r

end Spec

section Search

variable {groups : List Group} {principal spec name : String} {V W : List String}

/-- Nothing more can come of an item: its group has been visited, or it is another principal. -/
def Settled (principal : String) (V : List String) (item : String) : Prop :=
  (∀ name, stripPrefix? "group:" item = some name → name ∈ V) ∧
    (IsPrincipal item → eqIgnoreAsciiCase item principal = false)

def Explored (groups : List Group) (principal : String) (V : List String) (name : String) : Prop :=
  ∀ g, findGroup groups name = some g → ∀ m ∈ g.members, Settled principal V m

theorem Settled.mono (h : Settled principal V spec) (hVW : V ⊆ W) : Settled principal W spec :=
  ⟨fun name hname => hVW (h.1 name hname), h.2⟩

theorem Explored.mono (h : Explored groups principal V name) (hVW : V ⊆ W) :
    Explored groups principal W name :=
  fun g hg m hm => (h g hg m hm).mono hVW

theorem Admitted.member {m : String} {g : Group} (hname : stripPrefix? "group:" spec = some name)
    (hg : findGroup groups name = some g) (hm : m ∈ g.members) (h : Admitted groups principal m) :
    Admitted groups principal spec := by
  obtain ⟨item, hreach, hitem⟩ := h
  exact ⟨item, .member hname hg hm hreach, hitem⟩

/-- A search that finds nothing leaves the groups it visited explored, but for those that were
being searched when it began. -/
structure Searched (groups : List Group) (principal : String) (specs seen : List String)
    (r : Bool × List String) : Prop where
  mono : seen ⊆ r.2
  found : r.1 = true → ∃ spec ∈ specs, Admitted groups principal spec
  settled : r.1 = false → ∀ spec ∈ specs, Settled principal r.2 spec
  explored : r.1 = false → ∀ n ∈ r.2, n ∉ seen → Explored groups principal r.2 n

section Cons

variable {specs seen seen' : List String} {r : Bool × List String}

theorem Searched.cons (h : Searched groups principal specs seen' r) (hmono : seen ⊆ seen')
    (hsettled : Settled principal seen' spec)
    (hnew : ∀ n ∈ seen', n ∉ seen → Explored groups principal seen' n) :
    Searched groups principal (spec :: specs) seen r where
  mono n hn := h.mono (hmono hn)
  found hr := by
    obtain ⟨x, hx, hadm⟩ := h.found hr
    exact ⟨x, List.mem_cons_of_mem spec hx, hadm⟩
  settled hr x hx := by
    rcases List.mem_cons.mp hx with rfl | hx
    · exact hsettled.mono h.mono
    · exact h.settled hr x hx
  explored hr n hn hnot := by
    by_cases hfirst : n ∈ seen'
    · exact (hnew n hfirst hnot).mono h.mono
    · exact h.explored hr n hn hfirst

theorem settled_group (hname : stripPrefix? "group:" spec = some name) (hV : name ∈ V) :
    Settled principal V spec := by
  refine ⟨fun n hn => ?_, fun hp => ?_⟩
  · rw [hname] at hn
    cases hn
    exact hV
  · rw [hp.1] at hname
    cases hname

theorem Resolves.search (h : Resolves groups principal specs seen r) :
    Searched groups principal specs seen r := by
  have hsame {seen : List String} (n : String) (hn : n ∈ seen) (hnot : n ∉ seen) :
      Explored groups principal seen n := absurd hn hnot
  induction h with
  | nil => exact ⟨List.Subset.refl _, nofun, fun _ => nofun, fun _ => hsame⟩
  | cycle hname hseen _ ih =>
    exact ih.cons (List.Subset.refl _) (settled_group hname hseen) hsame
  | missing hname _ hg _ ih =>
    refine ih.cons (List.subset_cons_self _ _) (settled_group hname List.mem_cons_self) ?_
    intro n hn hnot g hg'
    obtain rfl := (List.mem_cons.mp hn).resolve_right hnot
    rw [hg] at hg'
    cases hg'
  | found hname _ hg _ ih =>
    refine ⟨fun n hn => ih.mono (List.mem_cons_of_mem _ hn), fun hr => ?_, nofun, nofun⟩
    obtain ⟨m, hm, hadm⟩ := ih.found hr
    exact ⟨_, List.mem_cons_self, hadm.member hname hg hm⟩
  | @searched _ name _ seen _ _ _ hname _ hg _ _ ihm ih =>
    refine ih.cons (fun n hn => ihm.mono (List.mem_cons_of_mem _ hn))
      (settled_group hname (ihm.mono List.mem_cons_self)) fun n hn hnot => ?_
    by_cases hold : n ∈ name :: seen
    · obtain rfl := (List.mem_cons.mp hold).resolve_right hnot
      intro g' hg' m hm
      rw [hg] at hg'
      cases hg'
      exact ihm.settled rfl m hm
    · exact ihm.explored rfl n hn hold
  | tag hname htag _ ih =>
    refine ih.cons (List.Subset.refl _) ⟨fun n hn => ?_, fun hp => ?_⟩ hsame
    · rw [hname] at hn
      cases hn
    · rw [hp.2] at htag
      cases htag
  | principal hp heq =>
    exact ⟨List.Subset.refl _, fun _ => ⟨_, List.mem_cons_self, _, .refl _, hp, heq⟩, nofun, nofun⟩
  | other hp heq _ ih =>
    refine ih.cons (List.Subset.refl _) ⟨fun n hn => ?_, fun _ => heq⟩ hsame
    rw [hp.1] at hn
    cases hn

end Cons

/-! ### The bound on the depth -/

/-- How many groups of the file a search has not visited. -/
def unseen (groups : List Group) (seen : List String) : ℕ :=
  ((groups.map Group.name).filter fun n => n ∉ seen).length

theorem unseen_le {seen seen' : List String} (h : seen ⊆ seen') :
    unseen groups seen' ≤ unseen groups seen := by
  refine List.Sublist.length_le (List.monotone_filter_right _ fun n hn => ?_)
  simp only [decide_eq_true_eq] at hn ⊢
  exact fun hmem => hn (h hmem)

theorem unseen_lt {seen : List String} {g : Group} (hg : findGroup groups name = some g)
    (hseen : name ∉ seen) : unseen groups (name :: seen) < unseen groups seen := by
  have hname : g.name = name := by simpa using List.find?_some hg
  have hmem : name ∈ (groups.map Group.name).filter fun n => n ∉ seen := by
    have hgroup : g ∈ groups := List.mem_reverse.mp (List.mem_of_find?_eq_some hg)
    simpa [hseen] using ⟨g, hgroup, hname⟩
  have hfilter : (groups.map Group.name).filter (fun n => n ∉ name :: seen) =
      ((groups.map Group.name).filter fun n => n ∉ seen).filter fun n => n ≠ name := by
    rw [List.filter_filter]
    simp
  rw [unseen, hfilter]
  exact List.length_filter_lt_length_iff_exists.mpr ⟨name, hmem, by simp⟩

section Depth

variable {specs seen seen' : List String} {r : Bool × List String} {depth : ℕ}

theorem Resolves.cons_found (h : Resolves groups principal [spec] seen (true, seen')) :
    Resolves groups principal (spec :: specs) seen (true, seen') := by
  cases h with
  | cycle _ _ h => cases h
  | missing _ _ _ h => cases h
  | found hname hseen hg h => exact .found hname hseen hg h
  | searched _ _ _ _ h => cases h
  | tag _ _ h => cases h
  | principal hp heq => exact .principal hp heq
  | other _ _ h => cases h

theorem Resolves.cons (h : Resolves groups principal [spec] seen (false, seen'))
    (hs : Resolves groups principal specs seen' r) :
    Resolves groups principal (spec :: specs) seen r := by
  cases h with
  | cycle hname hseen h =>
    cases h
    exact .cycle hname hseen hs
  | missing hname hseen hg h =>
    cases h
    exact .missing hname hseen hg hs
  | searched hname hseen hg hm h =>
    cases h
    exact .searched hname hseen hg hm hs
  | tag hname htag h =>
    cases h
    exact .tag hname htag hs
  | other hp heq h =>
    cases h
    exact .other hp heq hs

theorem resolves_anyMember
    (hspec : ∀ spec seen, unseen groups seen < depth →
      Resolves groups principal [spec] seen (principalMatches groups principal depth spec seen))
    (specs seen : List String) (h : unseen groups seen < depth) :
    Resolves groups principal specs seen
      (anyMember (principalMatches groups principal depth) specs seen) := by
  induction specs generalizing seen with
  | nil => exact .nil
  | cons spec specs ih =>
    have hfirst := hspec spec seen h
    rw [anyMember]
    split
    · next seen' heq =>
      rw [heq] at hfirst
      exact hfirst.cons_found
    · next seen' heq =>
      rw [heq] at hfirst
      exact hfirst.cons (ih seen' ((unseen_le hfirst.search.mono).trans_lt h))

theorem resolves_principalMatches (spec : String) (seen : List String)
    (h : unseen groups seen < depth) :
    Resolves groups principal [spec] seen (principalMatches groups principal depth spec seen) := by
  induction depth generalizing spec seen with
  | zero => cases h
  | succ depth ih =>
    rw [principalMatches]
    split
    · next name hname =>
      split
      · next hseen => exact .cycle hname hseen .nil
      · next hseen =>
        split
        · next hg => exact .missing hname hseen hg .nil
        · next g hg =>
          have hlt : unseen groups (name :: seen) < depth :=
            Nat.lt_of_lt_of_le (unseen_lt hg hseen) (Nat.le_of_lt_succ h)
          have hm := resolves_anyMember ih g.members (name :: seen) hlt
          generalize anyMember (principalMatches groups principal depth) g.members
            (name :: seen) = r at hm
          obtain ⟨_ | _, seen'⟩ := r
          · exact .searched hname hseen hg hm .nil
          · exact .found hname hseen hg hm
    · next hname =>
      split
      · next htag => exact .tag hname htag .nil
      · next htag =>
        have hp : IsPrincipal spec := ⟨hname, by simpa using htag⟩
        cases heq : eqIgnoreAsciiCase spec principal with
        | false => exact .other hp heq .nil
        | true => exact .principal hp heq

end Depth

theorem Settled.reaches {item : String} (hV : ∀ n ∈ V, Explored groups principal V n)
    (hr : Reaches groups spec item) (h : Settled principal V spec) : Settled principal V item := by
  induction hr with
  | refl => exact h
  | member hname hg hm _ ih => exact ih (hV _ (h.1 _ hname) _ hg _ hm)

theorem resolves_admits (groups : List Group) (principal spec : String) :
    ∃ seen, Resolves groups principal [spec] [] (admits groups principal spec, seen) := by
  have hlen : unseen groups [] < groups.length + 1 := by simp [unseen]
  exact ⟨_, resolves_principalMatches spec [] hlen⟩

theorem admits_iff : admits groups principal spec = true ↔ Admitted groups principal spec := by
  obtain ⟨seen, hres⟩ := resolves_admits groups principal spec
  have hsearch := hres.search
  constructor
  · intro hadm
    obtain ⟨x, hx, hx'⟩ := hsearch.found hadm
    rwa [List.mem_singleton.mp hx] at hx'
  · rintro ⟨item, hreach, hp, heq⟩
    by_contra hne
    have hfalse := Bool.eq_false_of_not_eq_true hne
    have hsettled := hsearch.settled hfalse spec (List.mem_singleton.mpr rfl)
    have hall : ∀ n ∈ seen, Explored groups principal seen n :=
      fun n hn => hsearch.explored hfalse n hn List.not_mem_nil
    have hitem := (hsettled.reaches hall hreach).2 hp
    rw [heq] at hitem
    cases hitem

end Search

section Entries

variable (groups : List Group) (principal : String) (patterns : List String)

def MissingGroup (spec : String) : Prop :=
  ∃ name, stripPrefix? "group:" spec = some name ∧ findGroup groups name = none

/-- The answer is made of those for the entries; an inclusion admits exactly whom it reaches, and
an exclusion excludes whom it reaches and whoever it cannot tell. -/
structure ActorsResolved : Prop where
  ends : ∀ p ∈ patterns, ∃ seen, Resolves groups principal [(stripPrefix? "^" p).getD p] []
    (admits groups principal ((stripPrefix? "^" p).getD p), seen)
  answer : actorListMatches patterns principal groups = true ↔
    ((∀ p ∈ patterns, stripPrefix? "^" p ≠ none) ∨
      ∃ p ∈ patterns, stripPrefix? "^" p = none ∧ admits groups principal p = true) ∧
    ∀ p ∈ patterns, ∀ rest, stripPrefix? "^" p = some rest →
      excludes groups principal rest = false
  included : ∀ p ∈ patterns, stripPrefix? "^" p = none →
    (admits groups principal p = true ↔ Admitted groups principal p)
  excluded : ∀ p ∈ patterns, ∀ rest, stripPrefix? "^" p = some rest →
    Admitted groups principal rest ∨ MeetsUnresolvable groups rest →
      excludes groups principal rest = true

variable {groups principal patterns}

theorem excludes_iff {spec : String} : excludes groups principal spec = true ↔
    MissingGroup groups spec ∨ Admitted groups principal spec := by
  rw [excludes, Bool.or_eq_true, admits_iff]
  refine or_congr_left ?_
  simp [MissingGroup, Option.any_eq_true]

theorem listMatches_iff {included excluded : String → Bool} :
    listMatches included excluded patterns = true ↔
      ((∀ p ∈ patterns, stripPrefix? "^" p ≠ none) ∨
        ∃ p ∈ patterns, stripPrefix? "^" p = none ∧ included p = true) ∧
      ∀ p ∈ patterns, ∀ rest, stripPrefix? "^" p = some rest → excluded rest = false := by
  rw [listMatches]
  simp only [Bool.and_eq_true, Bool.or_eq_true, List.isEmpty_iff, List.filter_eq_nil_iff,
    List.any_eq_true, List.mem_filter, Option.isNone_iff_eq_none, Bool.not_eq_true',
    List.any_eq_false, List.mem_filterMap, and_assoc]
  refine and_congr_right fun _ => ⟨fun h p hp rest hrest => ?_, fun h rest ⟨p, hp, hrest⟩ => ?_⟩
  · exact Bool.eq_false_of_not_eq_true (h rest ⟨p, hp, hrest⟩)
  · simp [h p hp rest hrest]

theorem actors_resolved_iff (groups : List Group) (principal : String) (patterns : List String) :
    ActorsResolved groups principal patterns ↔
      ∀ p ∈ patterns, ∀ rest, stripPrefix? "^" p = some rest → MeetsUnresolvable groups rest →
        Admitted groups principal rest ∨ MissingGroup groups rest := by
  constructor
  · intro h p hp rest hrest hmeets
    exact (excludes_iff.mp (h.excluded p hp rest hrest (.inr hmeets))).symm
  · intro h
    refine ⟨fun p _ => resolves_admits groups principal _, listMatches_iff, fun p _ _ => admits_iff,
      fun p hp rest hrest hor => excludes_iff.mpr ?_⟩
    rcases hor with hadm | hmeets
    · exact .inr hadm
    · exact (h p hp rest hrest hmeets).symm

def bots : Group := ⟨"bots", ["group:gone"]⟩

/-- An exclusion of a group with a member group that is gone, and one of a tag. -/
theorem actors_not_resolved :
    ¬ ActorsResolved [bots] "dev" ["^group:bots"] ∧
      actorListMatches ["^group:bots"] "dev" [bots] = true ∧
    ¬ ActorsResolved [] "dev" ["^@okta:platform"] ∧
      actorListMatches ["^@okta:platform"] "dev" [] = true := by
  have hname : stripPrefix? "group:" "group:bots" = some "bots" := by decide
  have hgroup : findGroup [bots] "bots" = some bots := by decide
  have hbots : MeetsUnresolvable [bots] "group:bots" :=
    ⟨"group:gone", .member hname hgroup List.mem_cons_self (.refl _),
      .inl ⟨"gone", by decide, by decide⟩⟩
  have htag : MeetsUnresolvable [] "@okta:platform" :=
    ⟨_, .refl _, .inr ⟨by decide, by decide⟩⟩
  refine ⟨fun h => ?_, by decide, fun h => ?_, by decide⟩
  · have := h.excluded _ List.mem_cons_self "group:bots" (by decide) (.inr hbots)
    exact absurd this (by decide)
  · have := h.excluded _ List.mem_cons_self "@okta:platform" (by decide) (.inr htag)
    exact absurd this (by decide)

end Entries

end Walgit.Policy
