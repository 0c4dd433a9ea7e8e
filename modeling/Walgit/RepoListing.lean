import Walgit.Collab
import Walgit.PrefixedStore

/-!
# The listing of the repositories

The owners and then their repositories are found by delimited listings, and each
candidate is asked for its manifest. The calls of a pass see the bucket at
different times and come back in any order. A repository that is there all the
time is listed, unless its name ends in `.git`, which a reader of names takes off.
-/

namespace Walgit.Notify

def trimWhite (s : List Char) : List Char :=
  (s.dropWhile Collab.isWhite).rdropWhile Collab.isWhite

def gitSuffix : List Char := ".git".toList

def RepoId.fromStr (s : List Char) : Except String RepoId :=
  let s := trimWhite s
  let s := (s.dropSuffix? gitSuffix).getD s
  match Pkt.splitOnce '/' s with
  | (_, none) => .error "RepoId must be 'owner/name'"
  | (owner, some name) =>
    if owner = [] ∨ name = [] then .error "RepoId parts must be non-empty"
    else RepoId.new owner name

variable {s : List Char} {what : String} {id id' : RepoId}

theorem RepoId.ext (howner : id.owner = id'.owner) (hname : id.name = id'.name) : id = id' := by
  cases id
  cases id'
  simp_all

theorem validatePart_plain (h : validatePart s what = .ok ()) :
    s ≠ [] ∧ ∀ c ∈ s, Collab.isWhite c = false ∧ c ≠ '/' := by
  have hslash := validatePart_chars h
  unfold validatePart at h
  split_ifs at h with hlen hdots hdot hall
  refine ⟨fun hnil => hlen (.inl hnil), fun c hc => ⟨?_, (hslash c hc).2⟩⟩
  rw [List.all_eq_true] at hall
  have hcase := hall c hc
  have hlt := (hslash c hc).1
  have hge : 45 ≤ c.toNat := by
    simp only [Bool.or_eq_true, beq_iff_eq] at hcase
    rcases hcase with ((hnum | rfl) | rfl) | rfl
    · simp only [Char.isAlphanum, Char.isAlpha, Char.isUpper, Char.isLower, Char.isDigit,
        Bool.or_eq_true, Bool.and_eq_true, decide_eq_true_eq, ge_iff_le, UInt32.le_iff_toNat_le]
        at hnum
      have hnat : c.toNat = c.val.toNat := rfl
      rcases hnum with (⟨hle, -⟩ | ⟨hle, -⟩) | ⟨hle, -⟩ <;>
        exact hnat ▸ Nat.le_trans (by decide) hle
    · decide
    · decide
    · decide
  simp only [Collab.isWhite, Bool.or_eq_false_iff, Bool.and_eq_false_iff, decide_eq_false_iff_not,
    List.mem_cons, List.not_mem_nil, or_false]
  omega

theorem trimWhite_eq (h : ∀ c ∈ s, Collab.isWhite c = false) : trimWhite s = s := by
  rw [trimWhite, List.dropWhile_eq_self_iff.mpr, List.rdropWhile_eq_self_iff]
  · intro hl
    simp [h]
  · intro hl
    simp [h]

theorem RepoId.text_plain : ∀ c ∈ id.text, Collab.isWhite c = false := by
  have howner := (validatePart_plain id.owner_valid).2
  have hname := (validatePart_plain id.name_valid).2
  simp only [RepoId.text, List.forall_mem_append, List.forall_mem_cons]
  exact ⟨fun c hc => (howner c hc).1, by decide, fun c hc => (hname c hc).1⟩

theorem splitOnce_text : Pkt.splitOnce '/' id.text = (id.owner, some id.name) :=
  Pkt.splitOnce_append fun hmem => ((validatePart_plain id.owner_valid).2 _ hmem).2 rfl

theorem suffix_name : gitSuffix <:+ id.text ↔ gitSuffix <:+ id.name := by
  have hslash : '/' ∉ gitSuffix := by decide
  have htail : '/' :: id.name <:+ id.text := List.suffix_append _ _
  constructor
  · intro h
    rcases List.suffix_or_suffix_of_suffix h htail with hgit | hname
    · rcases List.suffix_cons_iff.mp hgit with heq | hs
      · exact absurd (heq ▸ List.mem_cons_self) hslash
      · exact hs
    · exact absurd (hname.subset List.mem_cons_self) hslash
  · intro h
    exact h.trans ((List.suffix_cons '/' id.name).trans htail)

/-- The text of a repository is read as the repository, unless the name has the suffix. -/
theorem fromStr_text (h : ¬ gitSuffix <:+ id.name) : RepoId.fromStr id.text = .ok id := by
  have hsuffix : id.text.dropSuffix? gitSuffix = none := by
    rw [Option.eq_none_iff_forall_ne_some]
    intro t ht
    obtain ⟨t', htext, ht'⟩ := List.dropSuffix?_eq_some_iff.mp ht
    rw [eq_of_beq ht'] at htext
    exact h (suffix_name.mp ⟨t, htext.symm⟩)
  simp only [RepoId.fromStr, trimWhite_eq RepoId.text_plain, hsuffix, Option.getD_none,
    splitOnce_text, (validatePart_plain id.owner_valid).1, (validatePart_plain id.name_valid).1,
    or_self, if_false]
  exact new_eq_ok.mpr ⟨rfl, rfl⟩

theorem fromStr_git {n : List Char} (h : id'.name = n ++ gitSuffix) :
    RepoId.fromStr id'.text = .ok id ↔ id'.owner = id.owner ∧ n = id.name := by
  have hdrop : id'.text.dropSuffix? gitSuffix = some (id'.owner ++ '/' :: n) :=
    List.dropSuffix?_eq_some_iff.mpr ⟨gitSuffix, by simp [RepoId.text, h], beq_self_eq_true _⟩
  have howner : '/' ∉ id'.owner := fun hmem =>
    ((validatePart_plain id'.owner_valid).2 _ hmem).2 rfl
  have hname := (validatePart_plain id.name_valid).1
  simp only [RepoId.fromStr, trimWhite_eq RepoId.text_plain, hdrop, Option.getD_some,
    Pkt.splitOnce_append howner, (validatePart_plain id'.owner_valid).1, false_or]
  split_ifs with hn
  · exact ⟨fun he => (by cases he), fun he => absurd (he.2 ▸ hn) hname⟩
  · exact new_eq_ok

/-- A directory is read as a repository when it is the repository's own, or that of the name with
the suffix. -/
theorem fromStr_text_iff : RepoId.fromStr id'.text = .ok id ↔
    (id' = id ∧ ¬ gitSuffix <:+ id.name) ∨
      (id'.owner = id.owner ∧ id'.name = id.name ++ gitSuffix) := by
  by_cases h : gitSuffix <:+ id'.name
  · obtain ⟨n, hn⟩ := h
    rw [fromStr_git hn.symm]
    constructor
    · rintro ⟨howner, rfl⟩
      exact .inr ⟨howner, hn.symm⟩
    · rintro (⟨rfl, hno⟩ | ⟨howner, hname⟩)
      · exact absurd ⟨n, hn⟩ hno
      · exact ⟨howner, List.append_cancel_right (hn.trans hname)⟩
  · rw [fromStr_text h, Except.ok.injEq]
    constructor
    · rintro rfl
      exact .inl ⟨rfl, h⟩
    · rintro (⟨rfl, -⟩ | ⟨-, hname⟩)
      · rfl
      · exact absurd ⟨id.name, hname.symm⟩ h

end Walgit.Notify

namespace Walgit.ObjectStore

open Notify (RepoId)
open SortedTable

variable {s : MemoryStore} {d owner : Key} {id id' : RepoId}

section Code

def candidateOf (repoPrefix : Key) : Option RepoId :=
  ((repoPrefix.dropPrefix? reposDir).bind (·.dropSuffix? ['/'])).bind fun t =>
    (RepoId.fromStr t).toOption

def candidates (listed : List (Key × MemoryStore)) : List RepoId :=
  listed.flatMap fun l => (l.2.listPrefixes l.1).filterMap candidateOf

/-- The order of the listing: by owner, then by name. -/
def repoLe (a b : RepoId) : Bool := a.owner < b.owner || (a.owner == b.owner && a.name ≤ b.name)

/-- The calls of `list_uncached`: the listing of the owners, then one of each owner, then one
question for each candidate, with the bucket that each saw. Both rounds come back in any order. -/
structure ListPass where
  root : MemoryStore
  listed : List (Key × MemoryStore)
  headed : List (RepoId × MemoryStore)
  listed_perm : (listed.map Prod.fst).Perm (root.listPrefixes reposDir)
  headed_perm : (headed.map Prod.fst).Perm (candidates listed)

def hasManifest (s : MemoryStore) (id : RepoId) : Bool := (s.head id.manifestKey).isSome

def ListPass.repos (pass : ListPass) : List RepoId :=
  ((pass.headed.filter fun h => hasManifest h.2 h.1).map Prod.fst).mergeSort repoLe

end Code

section Spec

def ownerDir (owner : Key) : Key := reposDir ++ owner ++ ['/']

theorem storePrefix_eq : id.storePrefix = ownerDir id.owner ++ id.name ++ ['/'] := by
  have happend : id.storePrefix ++ [] = reposDir ++ (id.owner ++ '/' :: (id.name ++ '/' :: [])) :=
    storePrefix_append
  simpa [ownerDir] using happend

theorem candidateOf_storePrefix : candidateOf id.storePrefix =
    (RepoId.fromStr id.text).toOption := by
  have hdrop : id.storePrefix.dropPrefix? reposDir = some (id.text ++ ['/']) :=
    List.dropPrefix?_append_of_beq _ (beq_self_eq_true _)
  have hslash : (id.text ++ ['/']).dropSuffix? ['/'] = some id.text :=
    List.dropSuffix?_eq_some_iff.mpr ⟨['/'], rfl, beq_self_eq_true _⟩
  rw [candidateOf, hdrop, Option.bind_some, hslash, Option.bind_some]

theorem exists_of_hasManifest (h : hasManifest s id) :
    ∃ o ∈ s.objects, id.storePrefix <+: o.key := by
  simp only [hasManifest, MemoryStore.head, Option.isSome_map] at h
  obtain ⟨o, ho⟩ := Option.isSome_iff_exists.mp h
  refine ⟨o, mem_of_lookup ho, ?_⟩
  rw [key_of_find ho]
  exact List.prefix_append _ _

theorem owner_listed (h : hasManifest s id) : ownerDir id.owner ∈ s.listPrefixes reposDir := by
  obtain ⟨o, ho, hpre⟩ := exists_of_hasManifest h
  refine ((listPrefixes_exact s reposDir).1 _).mpr
    ⟨id.owner, slash_not_mem id.owner_valid, rfl, o, ho, ?_⟩
  apply List.IsPrefix.trans _ hpre
  rw [storePrefix_eq, List.append_assoc]
  exact List.prefix_append _ _

theorem name_listed (h : ∃ o ∈ s.objects, id.storePrefix <+: o.key) :
    id.storePrefix ∈ s.listPrefixes (ownerDir id.owner) := by
  obtain ⟨o, ho, hpre⟩ := h
  exact ((listPrefixes_exact s _).1 _).mpr
    ⟨id.name, slash_not_mem id.name_valid, storePrefix_eq, o, ho, hpre⟩

theorem repoLe_total (a b : RepoId) : repoLe a b || repoLe b a := by
  simp only [repoLe, Bool.or_eq_true, Bool.and_eq_true, decide_eq_true_eq, beq_iff_eq]
  rcases lt_trichotomy a.owner b.owner with h | h | h
  · exact .inl (.inl h)
  · rcases le_total a.name b.name with hn | hn
    · exact .inl (.inr ⟨h, hn⟩)
    · exact .inr (.inr ⟨h.symm, hn⟩)
  · exact .inr (.inl h)

theorem repoLe_trans (a b c : RepoId) (hab : repoLe a b) (hbc : repoLe b c) : repoLe a c := by
  simp only [repoLe, Bool.or_eq_true, Bool.and_eq_true, decide_eq_true_eq, beq_iff_eq] at *
  rcases hab with h | ⟨h, hn⟩ <;> rcases hbc with h' | ⟨h', hn'⟩
  · exact .inl (h.trans h')
  · exact .inl (h' ▸ h)
  · exact .inl (h ▸ h')
  · exact .inr ⟨h.trans h', hn.trans hn'⟩

theorem mem_repos {pass : ListPass} :
    id ∈ pass.repos ↔ ∃ s, (id, s) ∈ pass.headed ∧ hasManifest s id := by
  simp [ListPass.repos]

/-- A pass lists what it saw a manifest of, in order, whatever happens to the bucket meanwhile; and
a repository whose manifest is there whenever the pass looks is listed, unless its name ends in the
suffix. -/
theorem listing_sound_complete (pass : ListPass) :
    pass.repos.Pairwise (fun a b => repoLe a b) ∧
      (∀ id ∈ pass.repos, ∃ s, (id, s) ∈ pass.headed ∧ hasManifest s id) ∧
      ∀ id, ¬ Notify.gitSuffix <:+ id.name → hasManifest pass.root id →
        (∀ s, (ownerDir id.owner, s) ∈ pass.listed → hasManifest s id) →
        (∀ s, (id, s) ∈ pass.headed → hasManifest s id) → id ∈ pass.repos := by
  refine ⟨List.pairwise_mergeSort repoLe_trans repoLe_total _, fun id h => mem_repos.mp h, ?_⟩
  intro id hname hroot hlisted hheaded
  have howner := pass.listed_perm.mem_iff.mpr (owner_listed hroot)
  obtain ⟨⟨o, s⟩, hmem, rfl⟩ := List.mem_map.mp howner
  have hdir := name_listed (exists_of_hasManifest (hlisted s hmem))
  have hcand : id ∈ candidates pass.listed := by
    refine List.mem_flatMap.mpr ⟨(ownerDir id.owner, s), hmem, ?_⟩
    refine List.mem_filterMap.mpr ⟨id.storePrefix, hdir, ?_⟩
    rw [candidateOf_storePrefix, Notify.fromStr_text hname]
    rfl
  obtain ⟨⟨i, s'⟩, hmem', rfl⟩ := List.mem_map.mp (pass.headed_perm.mem_iff.mpr hcand)
  exact mem_repos.mpr ⟨s', hmem', hheaded s' hmem'⟩

instance : DecidableEq RepoId := fun _ _ => decidable_of_iff _ same_iff

/-- Every object below the directory of the repositories is below a repository's. -/
def OnlyRepos (s : MemoryStore) : Prop :=
  ∀ o ∈ s.objects, reposDir <+: o.key → ∃ id : RepoId, id.storePrefix <+: o.key

def twinDir (id : RepoId) : Key := ownerDir id.owner ++ (id.name ++ Notify.gitSuffix) ++ ['/']

def Occupied (s : MemoryStore) (d : Key) : Prop := ∃ o ∈ s.objects, d <+: o.key

instance : Decidable (Occupied s d) := inferInstanceAs (Decidable (∃ o ∈ s.objects, d <+: o.key))

def allDirs (s : MemoryStore) : List Key := (s.listPrefixes reposDir).flatMap s.listPrefixes

theorem mem_allDirs : d ∈ allDirs s ↔ ∃ a b, '/' ∉ a ∧ '/' ∉ b ∧
    d = ownerDir a ++ b ++ ['/'] ∧ Occupied s d := by
  simp only [allDirs, List.mem_flatMap, (listPrefixes_exact s _).1]
  constructor
  · rintro ⟨-, ⟨a, ha, rfl, -⟩, b, hb, rfl, hocc⟩
    exact ⟨a, b, ha, hb, rfl, hocc⟩
  · rintro ⟨a, b, ha, hb, rfl, o, ho, hpre⟩
    refine ⟨ownerDir a, ⟨a, ha, rfl, o, ho, ?_⟩, b, hb, rfl, o, ho, hpre⟩
    apply List.IsPrefix.trans _ hpre
    rw [List.append_assoc]
    exact List.prefix_append _ _

theorem nodup_allDirs : (allDirs s).Nodup := by
  rw [allDirs, List.nodup_flatMap]
  have hnodup : ∀ p, (s.listPrefixes p).Nodup := fun p => (listPrefixes_exact s p).2.imp ne_of_lt
  refine ⟨fun d _ => hnodup d, (hnodup reposDir).imp_of_mem fun {a b} ha hb hne d hda hdb => ?_⟩
  -- the first segment of a directory is its owner's
  obtain ⟨x, hx, rfl, -⟩ := ((listPrefixes_exact s _).1 a).mp ha
  obtain ⟨y, hy, rfl, -⟩ := ((listPrefixes_exact s _).1 b).mp hb
  obtain ⟨n, -, hd, -⟩ := ((listPrefixes_exact s _).1 d).mp hda
  obtain ⟨m, -, hd', -⟩ := ((listPrefixes_exact s _).1 d).mp hdb
  have heq := hd.symm.trans hd'
  simp only [List.append_assoc, List.append_cancel_left_eq, List.singleton_append] at heq
  exact hne (by rw [(segment_eq hx hy heq).1])

theorem dir_of_repo (hs : OnlyRepos s) (hd : d ∈ allDirs s) :
    ∃ id : RepoId, d = id.storePrefix := by
  obtain ⟨a, b, ha, hb, rfl, o, ho, hpre⟩ := mem_allDirs.mp hd
  have hrepos : reposDir <+: o.key := by
    apply List.IsPrefix.trans _ hpre
    simp [ownerDir]
  obtain ⟨id, hid⟩ := hs o ho hrepos
  refine ⟨id, ?_⟩
  obtain ⟨t, ht⟩ := hpre
  obtain ⟨u, hu⟩ := hid
  have heq := ht.trans hu.symm
  simp only [storePrefix_eq, ownerDir, List.append_assoc, List.append_cancel_left_eq,
    List.singleton_append] at heq
  obtain ⟨howner, hrest⟩ := segment_eq ha (slash_not_mem id.owner_valid) heq
  obtain ⟨hname, -⟩ := segment_eq hb (slash_not_mem id.name_valid) hrest
  rw [storePrefix_eq, howner, hname]

theorem twin_plain : '/' ∉ id.name ++ Notify.gitSuffix := by
  rw [List.mem_append, not_or]
  exact ⟨slash_not_mem id.name_valid, by decide⟩

theorem storePrefix_ne_twinDir : id.storePrefix ≠ twinDir id := by
  intro h
  have hlen := congrArg List.length h
  simp [storePrefix_eq, twinDir, Notify.gitSuffix] at hlen

theorem candidateOf_iff (hs : OnlyRepos s) (hd : d ∈ allDirs s) : candidateOf d = some id ↔
    (d = id.storePrefix ∧ ¬ Notify.gitSuffix <:+ id.name) ∨ d = twinDir id := by
  obtain ⟨id', rfl⟩ := dir_of_repo hs hd
  have hsome : (RepoId.fromStr id'.text).toOption = some id ↔ RepoId.fromStr id'.text = .ok id := by
    cases RepoId.fromStr id'.text <;> simp [Except.toOption]
  have hid : id'.storePrefix = id.storePrefix ↔ id' = id := by
    rw [← same_iff, RepoId.same, beq_iff_eq]
  have htwin : id'.storePrefix = twinDir id ↔
      id'.owner = id.owner ∧ id'.name = id.name ++ Notify.gitSuffix := by
    constructor
    · intro h
      simp only [storePrefix_eq, twinDir, ownerDir, List.append_assoc, List.append_cancel_left_eq,
        List.singleton_append] at h
      obtain ⟨howner, hrest⟩ := segment_eq (slash_not_mem id'.owner_valid)
        (slash_not_mem id.owner_valid) h
      exact ⟨howner, (segment_eq (slash_not_mem id'.name_valid) twin_plain hrest).1⟩
    · rintro ⟨howner, hname⟩
      rw [storePrefix_eq, twinDir, howner, hname]
  rw [candidateOf_storePrefix, hsome, Notify.fromStr_text_iff, hid, htwin]

theorem count_candidates (hs : OnlyRepos s) (id : RepoId) :
    ((allDirs s).filterMap candidateOf).count id =
      (if Occupied s id.storePrefix ∧ ¬ Notify.gitSuffix <:+ id.name then 1 else 0) +
        if Occupied s (twinDir id) then 1 else 0 := by
  have hperm : ((allDirs s).filter fun d => candidateOf d = some id).Perm
      ((if Occupied s id.storePrefix ∧ ¬ Notify.gitSuffix <:+ id.name then
          [id.storePrefix] else []) ++
        if Occupied s (twinDir id) then [twinDir id] else []) := by
    refine (List.perm_ext_iff_of_nodup (nodup_allDirs.filter _) ?_).mpr fun d => ?_
    · have hne : id.storePrefix ≠ twinDir id := storePrefix_ne_twinDir
      split_ifs <;> simp [hne]
    · rw [List.mem_filter, decide_eq_true_eq, List.mem_append]
      constructor
      · rintro ⟨hd, hcand⟩
        obtain ⟨-, -, -, -, -, hocc⟩ := mem_allDirs.mp hd
        rcases (candidateOf_iff hs hd).mp hcand with ⟨rfl, hname⟩ | rfl
        · exact .inl (by rw [if_pos ⟨hocc, hname⟩]; simp)
        · exact .inr (by rw [if_pos hocc]; simp)
      · rintro (h | h)
        · split_ifs at h with hocc
          · have hd : d = id.storePrefix := by simpa using h
            subst hd
            have hmem := mem_allDirs.mpr ⟨id.owner, id.name, slash_not_mem id.owner_valid,
              slash_not_mem id.name_valid, storePrefix_eq, hocc.1⟩
            exact ⟨hmem, (candidateOf_iff hs hmem).mpr (.inl ⟨rfl, hocc.2⟩)⟩
          · simp at h
        · split_ifs at h with hocc
          · have hd : d = twinDir id := by simpa using h
            subst hd
            have hmem := mem_allDirs.mpr ⟨id.owner, id.name ++ Notify.gitSuffix,
              slash_not_mem id.owner_valid, twin_plain, rfl, hocc⟩
            exact ⟨hmem, (candidateOf_iff hs hmem).mpr (.inr rfl)⟩
          · simp at h
  have hcount : ((allDirs s).filterMap candidateOf).count id =
      ((allDirs s).filter fun d => candidateOf d = some id).length := by
    rw [← List.countP_eq_length_filter, List.count_filterMap]
    apply List.countP_congr
    simp
  rw [hcount, hperm.length_eq]
  split_ifs <;> rfl

/-- The pass sees one bucket. -/
structure ListPass.Quiet (pass : ListPass) (s : MemoryStore) : Prop where
  root : pass.root = s
  listed : ∀ l ∈ pass.listed, l.2 = s
  headed : ∀ h ∈ pass.headed, h.2 = s

/-- The pass over a bucket that nobody changes. -/
def ListPass.over (s : MemoryStore) : ListPass where
  root := s
  listed := (s.listPrefixes reposDir).map (·, s)
  headed := (candidates ((s.listPrefixes reposDir).map (·, s))).map (·, s)
  listed_perm := by simp [Function.comp_def]
  headed_perm := by simp [Function.comp_def]

theorem quiet_over : (ListPass.over s).Quiet s where
  root := rfl
  listed := by simp [ListPass.over]
  headed := by simp [ListPass.over]

/-- In a bucket that nobody changes a repository with a manifest is listed once, but for the
suffix: a name that has it is left out, and a name is listed again when the same name with the
suffix has objects. -/
theorem listing_count (s : MemoryStore) (pass : ListPass) (hq : pass.Quiet s) (hs : OnlyRepos s)
    (id : RepoId) : pass.repos.count id = if hasManifest s id then
      (if Notify.gitSuffix <:+ id.name then 0 else 1) + (if Occupied s (twinDir id) then 1 else 0)
    else 0 := by
  have hcount : pass.repos.count id =
      if hasManifest s id then (pass.headed.map Prod.fst).count id else 0 := by
    have hfilter : (pass.headed.filter fun h => hasManifest h.2 h.1).map Prod.fst =
        (pass.headed.map Prod.fst).filter (hasManifest s) := by
      rw [List.filter_map]
      apply congrArg
      apply List.filter_congr
      intro h hh
      simp [hq.headed h hh]
    rw [ListPass.repos, (List.mergeSort_perm _ _).count_eq, hfilter]
    split_ifs with hm
    · exact List.count_filter hm
    · rw [List.count_eq_zero]
      intro hmem
      exact hm (List.mem_filter.mp hmem).2
  have hdirs : (candidates pass.listed).Perm ((allDirs s).filterMap candidateOf) := by
    have hlisted : candidates pass.listed =
        ((pass.listed.map Prod.fst).flatMap s.listPrefixes).filterMap candidateOf := by
      rw [candidates, List.filterMap_flatMap, List.flatMap_map]
      apply List.flatMap_congr
      intro l hl
      rw [hq.listed l hl]
    rw [hlisted, allDirs, ← hq.root]
    exact (pass.listed_perm.flatMap_right _).filterMap _
  rw [hcount, pass.headed_perm.count_eq, hdirs.count_eq, count_candidates hs]
  by_cases hm : hasManifest s id
  · have hocc : Occupied s id.storePrefix := exists_of_hasManifest hm
    by_cases hgit : Notify.gitSuffix <:+ id.name <;> simp [hm, hocc, hgit]
  · simp [hm]

def plainRepo : RepoId := ⟨['a'], ['b'], by decide, by decide⟩

def twinRepo : RepoId := ⟨['a'], ['b'] ++ Notify.gitSuffix, by decide, by decide⟩

/-- Two repositories, the name of one being that of the other with the suffix. -/
def twinBucket : MemoryStore :=
  ⟨[⟨twinRepo.manifestKey, ⟨"2"⟩, []⟩, ⟨plainRepo.manifestKey, ⟨"1"⟩, []⟩], 2,
    List.pairwise_pair.mpr (by decide)⟩

theorem onlyRepos_twin : OnlyRepos twinBucket := by
  intro o ho _
  simp only [twinBucket, List.mem_cons, List.not_mem_nil, or_false] at ho
  rcases ho with rfl | rfl
  · exact ⟨twinRepo, List.prefix_append _ _⟩
  · exact ⟨plainRepo, List.prefix_append _ _⟩

/-- The one is listed twice and the other is not. -/
theorem listing_count_twin : (ListPass.over twinBucket).repos.count plainRepo = 2 ∧
    (ListPass.over twinBucket).repos.count twinRepo = 0 := by
  constructor
  · rw [listing_count twinBucket (.over twinBucket) quiet_over onlyRepos_twin plainRepo]
    decide
  · rw [listing_count twinBucket (.over twinBucket) quiet_over onlyRepos_twin twinRepo]
    decide

end Spec

end Walgit.ObjectStore
