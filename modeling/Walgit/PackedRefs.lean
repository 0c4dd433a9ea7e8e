import Mathlib.Data.List.Infix
import Walgit.Appliers
import Walgit.PushRequest

/-!
# The packed references

A snapshot is written as lines, the commit and the name of a reference with
the peeled value below it, and read back into an ordered map. What is read is
trimmed, and tags without a peeled value get one from the objects at hand.
-/

namespace Walgit.PackedRefs

open Appliers SortedTable

/-- The files that hold references; the loose ones in the order the walk meets them. -/
structure RefFiles where
  head : Option String
  packedRefs : Option String
  loose : List (String × String)
  deriving DecidableEq, Repr

section Writer

def header : List Char := "# pack-refs with: peeled fully-peeled sorted ".toList

def entryLines (r : Ref) : List (List Char) :=
  (r.oid.toList ++ ' ' :: r.name.toList) :: if r.peeled = "" then [] else ['^' :: r.peeled.toList]

def packedText (refs : List Ref) : String :=
  String.ofList ((header :: (refs.mergeSort fun a b => a.name ≤ b.name).flatMap entryLines).flatMap
    (· ++ ['\n']))

/-- `load_ref_snapshot`. -/
def writeFiles (files : RefFiles) (snap : RefTable) : RefFiles where
  head := if snap.headTarget = "" then files.head else some ("ref: " ++ snap.headTarget ++ "\n")
  packedRefs := some (packedText snap.refs)
  loose := []

end Writer

section Reader

def stripReturn (l : List Char) : List Char :=
  if l.getLast? = some '\r' then l.dropLast else l

/-- `str::lines`. -/
def lines (cs : List Char) : List (List Char) :=
  let parts := cs.splitOnP (· == '\n')
  parts.dropLast.map stripReturn ++ parts.getLast?.toList.filter (· ≠ [])

def trimmed (cs : List Char) : String := Collab.trim (String.ofList cs)

def setPeeled (t : RefTable) (name peeled : String) : RefTable where
  refs := t.refs.map fun r => if r.name = name then { r with peeled := peeled } else r
  sorted := t.sorted.map fun r => by split_ifs <;> rfl
  headTarget := t.headTarget

/-- One line, with the name of the last reference. -/
def packedLine (st : RefTable × Option String) (l : List Char) : RefTable × Option String :=
  match l with
  | [] | '#' :: _ => st
  | '^' :: rest => (st.2.elim st.1 fun name => setPeeled st.1 name (trimmed rest), st.2)
  | _ =>
    let (oid, rest) := Pkt.splitOnce ' ' l
    let name := trimmed (rest.getD [])
    if name = "" then st else (st.1.insert ⟨name, trimmed oid, ""⟩, some name)

/-- A loose reference overrides a packed one; a symbolic one takes what its target has. -/
def looseRef (t : RefTable) (file : String × String) : RefTable :=
  let s := Collab.trim file.2
  match Policy.stripPrefix? "ref: " s with
  | some target => (t.find (Collab.trim target)).elim t fun r => t.insert ⟨file.1, r.oid, ""⟩
  | none => if s = "" then t else t.insert ⟨file.1, s, ""⟩

def headOf (head : Option String) : String :=
  ((head.bind fun s => Policy.stripPrefix? "ref: " (Collab.trim s)).map Collab.trim).getD ""

theorem sorted_nil : Sorted Ref.name [] := .nil

def emptyTable (headTarget : String) : RefTable := ⟨[], sorted_nil, headTarget⟩

def tableOf (files : RefFiles) : RefTable :=
  files.loose.foldl looseRef
    ((files.packedRefs.elim [] fun s => lines s.toList).foldl packedLine
      (emptyTable (headOf files.head), none)).1

/-- `read_refs`: the tags without a peeled value are looked up. -/
def readFiles (odb : Odb) (files : RefFiles) : RefTable := readRefs odb (tableOf files)

end Reader

section Names

def components (name : String) : List (List Char) := name.toList.splitOnP (· == '/')

/-- The rules of `git check-ref-format`, with or without names of one level. -/
structure CheckRefFormat (onelevel : Bool) (name : String) : Prop where
  components : ∀ c ∈ components name, c ≠ [] ∧ c.head? ≠ some '.' ∧ ¬ ".lock".toList <:+ c
  level : onelevel = true ∨ '/' ∈ name.toList
  dots : hasInfix ['.', '.'] name.toList = false
  control : ∀ c ∈ name.toList, 32 ≤ c.toNat ∧ c.toNat ≠ 127
  plain : ∀ c ∈ name.toList, c ∉ [' ', '~', '^', ':', '?', '*', '[', '\\']
  finish : name.toList.getLast? ≠ some '.'
  reflog : hasInfix ['@', '\x7b'] name.toList = false
  notAt : name ≠ "@"

/-- What the validator does not look at: control characters, and the parts of a name but for the
end of the last one. -/
structure Storable (name : String) : Prop where
  components : ∀ c ∈ components name, c.head? ≠ some '.' ∧ ¬ ".lock".toList <:+ c
  control : ∀ c ∈ name.toList, 32 ≤ c.toNat ∧ c.toNat ≠ 127

end Names

section Lines

variable {ls : List (List Char)}

theorem splitOnP_joined (h : ∀ l ∈ ls, '\n' ∉ l) :
    (ls.flatMap (· ++ ['\n'])).splitOnP (· == '\n') = ls ++ [[]] := by
  induction ls with
  | nil => rfl
  | cons l ls ih =>
    rw [List.forall_mem_cons] at h
    have hl : ∀ c ∈ l, (c == '\n') = false := fun c hc =>
      beq_eq_false_iff_ne.mpr fun heq => h.1 (heq ▸ hc)
    rw [List.flatMap_cons, List.append_assoc, List.singleton_append,
      List.splitOnP_append_cons_of_forall_mem hl _ (by decide), ih h.2, List.cons_append]

theorem lines_joined (h : ∀ l ∈ ls, '\n' ∉ l) (hcr : ∀ l ∈ ls, l.getLast? ≠ some '\r') :
    lines (ls.flatMap (· ++ ['\n'])) = ls := by
  have hmap : ls.map stripReturn = ls :=
    (List.map_congr_left fun l hl => if_neg (hcr l hl)).trans (List.map_id ls)
  rw [lines, splitOnP_joined h, List.dropLast_concat, List.getLast?_concat, hmap]
  exact List.append_nil ls

end Lines

section Trim

variable {cs : List Char} {s : String}

theorem trim_eq (s : String) : Collab.trim s =
    String.ofList ((s.toList.dropWhile Collab.isWhite).rdropWhile Collab.isWhite) := rfl

theorem trim_of_ends (hhead : ∀ c, cs.head? = some c → Collab.isWhite c = false)
    (hlast : ∀ c, cs.getLast? = some c → Collab.isWhite c = false) :
    trimmed cs = String.ofList cs := by
  have hdrop : cs.dropWhile Collab.isWhite = cs := by
    cases cs with
    | nil => rfl
    | cons c cs => exact List.dropWhile_cons_of_neg (by rw [hhead c rfl]; decide)
  rw [trimmed, trim_eq, String.toList_ofList, hdrop, List.rdropWhile_eq_self_iff.mpr]
  intro hne
  rw [hlast _ (List.getLast?_eq_some_getLast hne)]
  decide

theorem trim_of_plain (h : ∀ c ∈ cs, Collab.isWhite c = false) : trimmed cs = String.ofList cs :=
  trim_of_ends (fun c hc => h c (List.mem_of_head? hc)) fun c hc => h c (List.mem_of_getLast? hc)

theorem trim_trim : Collab.trim (Collab.trim s) = Collab.trim s := by
  rw [trim_eq s, trim_eq, String.toList_ofList]
  congr 1
  generalize hcs : s.toList.dropWhile Collab.isWhite = cs
  have hprefix := List.rdropWhile_prefix Collab.isWhite cs
  have hdrop : (cs.rdropWhile Collab.isWhite).dropWhile Collab.isWhite =
      cs.rdropWhile Collab.isWhite := by
    cases hr : cs.rdropWhile Collab.isWhite with
    | nil => rfl
    | cons c rest =>
      obtain ⟨tail, htail⟩ := hr ▸ hprefix
      refine List.dropWhile_cons_of_neg fun hwhite => ?_
      have hhead := @List.head?_dropWhile_not _ Collab.isWhite s.toList
      rw [hcs, ← htail, List.cons_append, List.head?_cons] at hhead
      simp [hwhite] at hhead
  rw [hdrop, List.rdropWhile_idempotent]

end Trim

section ReadBack

variable {odb : Odb} {t : RefTable} {r : Ref} {last : Option String} {l : List Char}
  {files : RefFiles} {snap : RefTable} {st : RefTable × Option String}

/-- A snapshot of accepted updates. -/
structure Accepted (snap : RefTable) : Prop where
  names : ∀ r ∈ snap.refs, validateRefName r.name = true
  oids : ∀ r ∈ snap.refs, validateOid r.oid = true ∧ validateOid r.peeled = true

theorem isWhite_hex {c : Char} (h : isHexDigit c = true) : Collab.isWhite c = false := by
  have hrange := Pkt.isHexDigit_range h
  rw [Collab.isWhite, Bool.or_eq_false_iff, Bool.or_eq_false_iff, decide_eq_false_iff_not]
  refine ⟨⟨?_, ?_⟩, ?_⟩
  · rw [← Bool.decide_and, decide_eq_false_iff_not]
    omega
  · rw [← Bool.decide_and, decide_eq_false_iff_not]
    omega
  · simp only [List.mem_cons, List.not_mem_nil, or_false]
    omega

theorem trimmed_oid {oid : String} (h : validateOid oid = true) : trimmed oid.toList = oid := by
  rw [trim_of_plain fun c hc => isWhite_hex (Pkt.isHexDigit_of_validateOid h c hc),
    String.ofList_toList]

theorem setPeeled_insert {name oid peeled : String} :
    setPeeled (t.insert ⟨name, oid, ""⟩) name peeled = t.insert ⟨name, oid, peeled⟩ := by
  refine RefTable.ext_find (fun m => ?_) rfl
  have hfind : ∀ u : RefTable, (setPeeled u name peeled).find m =
      (u.find m).map fun r => if r.name = name then { r with peeled := peeled } else r :=
    fun _ => lookup_map fun r => by split_ifs <;> rfl
  rw [hfind, find_insert, find_insert]
  by_cases hm : name = m
  · rw [if_pos hm, if_pos hm]
    exact congrArg some (if_pos rfl)
  · rw [if_neg hm, if_neg hm]
    cases hold : t.find m with
    | none => rfl
    | some r =>
      have hr : decide (r.name = m) = true :=
        List.find?_some (p := fun r : Ref => decide (r.name = m)) hold
      exact congrArg some (if_neg fun h => hm (h.symm.trans (of_decide_eq_true hr)))

theorem packedLine_entry (hne : l ≠ []) (hhash : l.head? ≠ some '#') (hhat : l.head? ≠ some '^') :
    packedLine st l =
      if trimmed ((Pkt.splitOnce ' ' l).2.getD []) = "" then st
      else (st.1.insert ⟨trimmed ((Pkt.splitOnce ' ' l).2.getD []),
        trimmed (Pkt.splitOnce ' ' l).1, ""⟩,
        some (trimmed ((Pkt.splitOnce ' ' l).2.getD []))) := by
  unfold packedLine
  split
  · exact absurd rfl hne
  · exact absurd rfl hhash
  · exact absurd rfl hhat
  · rfl

theorem foldl_entryLines (hname : validateRefName r.name = true)
    (htrim : Collab.trim r.name = r.name) (hoid : validateOid r.oid = true)
    (hpeeled : validateOid r.peeled = true) :
    (entryLines r).foldl packedLine (t, last) = (t.insert r, some r.name) := by
  have hhex := Pkt.isHexDigit_of_validateOid hoid
  have hhead : ∀ c : Char, c ≠ ' ' → isHexDigit c = false →
      (r.oid.toList ++ ' ' :: r.name.toList).head? ≠ some c := by
    intro c hspace hc hhead
    cases holds : r.oid.toList with
    | nil =>
      rw [holds] at hhead
      exact hspace (Option.some.inj hhead).symm
    | cons d ds =>
      rw [holds] at hhead
      have hd := hhex d (holds ▸ List.mem_cons_self)
      rw [Option.some.inj hhead, hc] at hd
      cases hd
  have hne : r.name ≠ "" := fun h =>
    (Pkt.not_forbidden_of_validateRefName hname).1 (congrArg String.toList h)
  have hsplit : Pkt.splitOnce ' ' (r.oid.toList ++ ' ' :: r.name.toList) =
      (r.oid.toList, some r.name.toList) :=
    Pkt.splitOnce_append (Pkt.not_mem_of_hex hhex (by decide))
  have hentry : packedLine (t, last) (r.oid.toList ++ ' ' :: r.name.toList) =
      (t.insert ⟨r.name, r.oid, ""⟩, some r.name) := by
    rw [packedLine_entry (by simp) (hhead '#' (by decide) (by decide))
      (hhead '^' (by decide) (by decide)), hsplit, Option.getD_some, trimmed_oid hoid, trimmed,
      String.ofList_toList, htrim, if_neg hne]
  rw [entryLines, List.foldl_cons, hentry]
  by_cases hp : r.peeled = ""
  · rw [if_pos hp, List.foldl_nil, ← hp]
  · rw [if_neg hp, List.foldl_cons, List.foldl_nil, packedLine]
    dsimp only
    rw [trimmed_oid hpeeled, Option.elim_some, setPeeled_insert]

theorem foldl_entries {rs : List Ref} (h : Sorted Ref.name (t.refs ++ rs))
    (hnames : ∀ r ∈ rs, validateRefName r.name = true)
    (htrim : ∀ r ∈ rs, Collab.trim r.name = r.name)
    (hoids : ∀ r ∈ rs, validateOid r.oid = true ∧ validateOid r.peeled = true) :
    ((rs.flatMap entryLines).foldl packedLine (t, last)).1 = ⟨t.refs ++ rs, h, t.headTarget⟩ := by
  induction rs generalizing t last with
  | nil => exact RefTable.ext (List.append_nil _).symm rfl
  | cons r rs ih =>
    rw [List.forall_mem_cons] at hnames htrim hoids
    have hput : (t.insert r).refs = t.refs ++ [r] :=
      put_of_forall_lt fun x hx => (List.pairwise_append.mp h).2.2 x hx r List.mem_cons_self
    have hnext : (t.insert r).refs ++ rs = t.refs ++ r :: rs := by
      rw [hput, List.append_assoc, List.singleton_append]
    rw [List.flatMap_cons, List.foldl_append,
      foldl_entryLines hnames.1 htrim.1 hoids.1.1 hoids.1.2,
      ih (hnext ▸ h) hnames.2 htrim.2 hoids.2]
    exact RefTable.ext hnext rfl

theorem entryLines_plain (hname : validateRefName r.name = true) (hoid : validateOid r.oid = true)
    (hpeeled : validateOid r.peeled = true) (hl : l ∈ entryLines r) :
    '\n' ∉ l ∧ l.getLast? ≠ some '\r' := by
  obtain ⟨hne, hforbidden⟩ := Pkt.not_forbidden_of_validateRefName hname
  have hplain : ∀ {c : Char}, forbiddenInRefName c = true → c ∉ r.name.toList := fun hc hmem =>
    Bool.false_ne_true ((hforbidden _ hmem).symm.trans hc)
  have hdigits := Pkt.isHexDigit_of_validateOid hpeeled
  rw [entryLines, List.mem_cons] at hl
  rcases hl with rfl | hl
  · constructor
    · rw [List.mem_append, List.mem_cons, not_or, not_or]
      exact ⟨Pkt.not_mem_of_hex (Pkt.isHexDigit_of_validateOid hoid) (by decide), by decide,
        hplain (by decide)⟩
    · intro hlast
      rw [List.getLast?_append_of_ne_nil _ (List.cons_ne_nil _ _),
        List.getLast?_cons_of_ne_nil hne] at hlast
      exact hplain (by decide) (List.mem_of_getLast? hlast)
  · split_ifs at hl with hp
    · cases hl
    · rw [List.mem_singleton.mp hl]
      constructor
      · rw [List.mem_cons, not_or]
        exact ⟨by decide, Pkt.not_mem_of_hex hdigits (by decide)⟩
      · intro hlast
        rcases List.mem_cons.mp (List.mem_of_getLast? hlast) with h | h
        · exact absurd h (by decide)
        · exact Pkt.not_mem_of_hex hdigits (by decide) h

theorem lines_packedText (h : Accepted snap) :
    lines (packedText snap.refs).toList = header :: snap.refs.flatMap entryLines := by
  have hsort : snap.refs.mergeSort (fun a b => decide (a.name ≤ b.name)) = snap.refs :=
    List.mergeSort_of_pairwise (snap.sorted.imp fun hlt => decide_eq_true hlt.le)
  have hplain : ∀ l ∈ header :: snap.refs.flatMap entryLines,
      '\n' ∉ l ∧ l.getLast? ≠ some '\r' := by
    rw [List.forall_mem_cons]
    refine ⟨by decide, fun l hl => ?_⟩
    obtain ⟨r, hr, hl⟩ := List.mem_flatMap.mp hl
    exact entryLines_plain (h.names r hr) (h.oids r hr).1 (h.oids r hr).2 hl
  rw [packedText, String.toList_ofList, hsort,
    lines_joined (fun l hl => (hplain l hl).1) fun l hl => (hplain l hl).2]

theorem readFiles_refs :
    (readFiles odb files).refs = (tableOf files).refs.map (peelRef odb) := rfl

theorem tableOf_eq : tableOf (writeFiles files snap) =
    ((lines (packedText snap.refs).toList).foldl packedLine
      (emptyTable (headOf (writeFiles files snap).head), none)).1 := rfl

theorem tableOf_writeFiles (h : Accepted snap)
    (htrim : ∀ r ∈ snap.refs, Collab.trim r.name = r.name) :
    (tableOf (writeFiles files snap)).refs = snap.refs := by
  have hheader : packedLine (emptyTable (headOf (writeFiles files snap).head), none) header =
      (emptyTable (headOf (writeFiles files snap).head), none) := rfl
  rw [tableOf_eq, lines_packedText h, List.foldl_cons, hheader,
    foldl_entries (t := emptyTable _) snap.sorted h.names htrim h.oids]
  rfl

theorem readFiles_writeFiles (h : Accepted snap)
    (htrim : ∀ r ∈ snap.refs, Collab.trim r.name = r.name) :
    (readFiles odb (writeFiles files snap)).refs =
      (readRefs odb (loadRefSnapshot t snap)).refs := by
  rw [readFiles_refs, tableOf_writeFiles h htrim, ← @loadRefSnapshot_refs t snap]
  rfl

theorem packedLine_trimmed (h : ∀ r ∈ st.1.refs, Collab.trim r.name = r.name) :
    ∀ r ∈ (packedLine st l).1.refs, Collab.trim r.name = r.name := by
  intro r hr
  unfold packedLine at hr
  split at hr
  · exact h r hr
  · exact h r hr
  · cases hlast : st.2 with
    | none =>
      rw [hlast] at hr
      exact h r hr
    | some name =>
      rw [hlast] at hr
      obtain ⟨s, hs, rfl⟩ := List.mem_map.mp hr
      split_ifs <;> exact h s hs
  · dsimp only at hr
    split_ifs at hr
    · exact h r hr
    · rcases mem_put hr with rfl | hr
      · exact trim_trim
      · exact h r hr

theorem foldl_packedLine_trimmed {ls : List (List Char)}
    (h : ∀ r ∈ st.1.refs, Collab.trim r.name = r.name) :
    ∀ r ∈ (ls.foldl packedLine st).1.refs, Collab.trim r.name = r.name := by
  induction ls generalizing st with
  | nil => exact h
  | cons l ls ih => exact ih (packedLine_trimmed h)

theorem trim_of_mem_readFiles (h : r ∈ (readFiles odb (writeFiles files snap)).refs) :
    Collab.trim r.name = r.name := by
  rw [readFiles_refs, tableOf_eq] at h
  obtain ⟨s, hs, rfl⟩ := List.mem_map.mp h
  rw [peelRef_name]
  refine foldl_packedLine_trimmed (fun r hr => ?_) s hs
  cases hr

theorem peelRef_eq_self : peelRef odb r = r ↔ (r.peeled = "" → peelOf odb r.name r.oid = "") := by
  rw [peelRef]
  split_ifs with hp
  · constructor
    · intro heq _
      exact (congrArg Ref.peeled heq).trans hp
    · intro hof
      rw [hof hp]
      exact (congrArg (Ref.mk r.name r.oid) hp.symm)
  · exact ⟨fun _ hp' => absurd hp' hp, fun _ => rfl⟩

theorem readFiles_iff (h : Accepted snap) :
    (readFiles odb (writeFiles files snap)).refs = snap.refs ↔
      (∀ r ∈ snap.refs, Collab.trim r.name = r.name) ∧
        ∀ r ∈ snap.refs, r.peeled = "" → peelOf odb r.name r.oid = "" := by
  have hread : (∀ r ∈ snap.refs, Collab.trim r.name = r.name) →
      (readFiles odb (writeFiles files snap)).refs = snap.refs.map (peelRef odb) := by
    intro htrim
    rw [readFiles_writeFiles (t := snap) h htrim, ← @loadRefSnapshot_refs snap snap]
    rfl
  constructor
  · intro heq
    have htrim : ∀ r ∈ snap.refs, Collab.trim r.name = r.name := fun r hr =>
      trim_of_mem_readFiles (heq.symm ▸ hr : r ∈ (readFiles odb (writeFiles files snap)).refs)
    have hself := List.map_inj_left.mp ((hread htrim).symm.trans (heq.trans (List.map_id _).symm))
    exact ⟨htrim, fun r hr => peelRef_eq_self.mp (hself r hr)⟩
  · rintro ⟨htrim, hpeel⟩
    rw [hread htrim]
    exact (List.map_congr_left fun r hr => peelRef_eq_self.mpr (hpeel r hr)).trans (List.map_id _)

end ReadBack

section Format

variable {cs : List Char} {name : String} {onelevel : Bool}

theorem hasInfix_iff {pat : List Char} : hasInfix pat cs = true ↔ pat <:+: cs := by
  rw [hasInfix, List.any_eq_true]
  constructor
  · rintro ⟨t, ht, hpre⟩
    exact (List.isPrefixOf_iff_prefix.mp hpre).isInfix.trans ((List.mem_tails _ _).mp ht).isInfix
  · rintro ⟨a, b, rfl⟩
    refine ⟨pat ++ b, (List.mem_tails _ _).mpr ⟨a, (List.append_assoc _ _ _).symm⟩, ?_⟩
    exact List.isPrefixOf_iff_prefix.mpr (List.prefix_append _ _)

theorem head_splitOnP (h : (cs.splitOnP (· == '/')).head? = some []) :
    cs = [] ∨ cs.head? = some '/' := by
  cases cs with
  | nil => exact .inl rfl
  | cons c cs =>
    rw [List.splitOnP_cons_eq_if_modifyHead] at h
    split_ifs at h with hc
    · exact .inr (congrArg some (beq_iff_eq.mp hc))
    · obtain ⟨first, rest, hsplit⟩ :=
        List.exists_cons_of_ne_nil (List.splitOnP_ne_nil (· == '/') cs)
      rw [hsplit] at h
      cases h

theorem tail_splitOnP (h : [] ∈ (cs.splitOnP (· == '/')).tail) :
    cs.getLast? = some '/' ∨ ['/', '/'] <:+: cs := by
  induction cs with
  | nil => cases h
  | cons c cs ih =>
    have hlift : (cs.getLast? = some '/' ∨ ['/', '/'] <:+: cs) →
        (c :: cs).getLast? = some '/' ∨ ['/', '/'] <:+: c :: cs := by
      rintro (hlast | hinside)
      · have hne : cs ≠ [] := fun hnil => by
          rw [hnil] at hlast
          cases hlast
        exact .inl ((List.getLast?_cons_of_ne_nil hne).trans hlast)
      · exact .inr (hinside.trans (List.suffix_cons c cs).isInfix)
    rw [List.splitOnP_cons_eq_if_modifyHead] at h
    split_ifs at h with hc
    · have hslash : c = '/' := beq_iff_eq.mp hc
      obtain ⟨first, rest, hsplit⟩ :=
        List.exists_cons_of_ne_nil (List.splitOnP_ne_nil (· == '/') cs)
      rw [List.tail_cons, hsplit, List.mem_cons] at h
      rcases h with rfl | h
      · rcases @head_splitOnP cs (by rw [hsplit]; rfl) with rfl | hhead
        · exact .inl (congrArg some hslash)
        · obtain ⟨ds, rfl⟩ := List.head?_eq_some_iff.mp hhead
          exact .inr ⟨[], ds, by rw [hslash]; rfl⟩
      · exact hlift (ih (hsplit ▸ h))
    · rw [List.tail_modifyHead] at h
      exact hlift (ih h)

theorem nil_mem_splitOnP (h : [] ∈ cs.splitOnP (· == '/')) :
    cs = [] ∨ cs.head? = some '/' ∨ cs.getLast? = some '/' ∨ ['/', '/'] <:+: cs := by
  obtain ⟨first, rest, hsplit⟩ := List.exists_cons_of_ne_nil (List.splitOnP_ne_nil (· == '/') cs)
  rw [hsplit, List.mem_cons] at h
  rcases h with rfl | h
  · rcases @head_splitOnP cs (by rw [hsplit]; rfl) with hnil | hhead
    · exact .inl hnil
    · exact .inr (.inl hhead)
  · exact .inr (.inr (tail_splitOnP (hsplit ▸ h)))

theorem validateRefName_iff (hne : name ≠ "HEAD") : validateRefName name = true ↔
    "refs/".toList <+: name.toList ∧ (∀ c ∈ name.toList, forbiddenInRefName c = false) ∧
      hasInfix ['.', '.'] name.toList = false ∧ hasInfix ['@', '\x7b'] name.toList = false ∧
      ¬ ['/', '/'] <:+: name.toList ∧ name.toList.getLast? ≠ some '/' ∧
      name.toList.getLast? ≠ some '.' ∧ ¬ ".lock".toList <:+ name.toList := by
  rw [validateRefName]
  simp only [beq_eq_false_iff_ne.mpr hne, Bool.false_or, Bool.not_eq_true', Bool.or_eq_false_iff,
    Bool.not_eq_false', List.isPrefixOf_iff_prefix, List.any_eq_false, Bool.not_eq_true,
    beq_eq_false_iff_ne, ← hasInfix_iff, ← List.isSuffixOf_iff_suffix]
  tauto

/-- An accepted name keeps the rules of git iff it is storable, but for the level of `HEAD`. -/
theorem checkRefFormat_iff (h : validateRefName name = true) :
    CheckRefFormat onelevel name ↔ (onelevel = true ∨ name ≠ "HEAD") ∧ Storable name := by
  by_cases hne : name = "HEAD"
  · subst hne
    constructor
    · exact fun hgit => ⟨.inl (hgit.level.resolve_right (by decide)),
        fun c hc => (hgit.components c hc).2, hgit.control⟩
    · rintro ⟨hlevel, -, hcontrol⟩
      exact ⟨by decide, .inl (hlevel.resolve_right fun h => h rfl), by decide, hcontrol,
        List.forall_iff_forall_mem.mp (by decide), by decide, by decide, by decide⟩
  · obtain ⟨hrefs, hforbidden, hdots, hreflog, hslashes, hslash, hdot, -⟩ :=
      (validateRefName_iff hne).mp h
    have hhead : name.toList.head? = some 'r' := by
      obtain ⟨t, ht⟩ := hrefs
      rw [← ht]
      rfl
    have hlevel : '/' ∈ name.toList := hrefs.subset (by decide)
    constructor
    · exact fun hgit => ⟨.inr hne, fun c hc => (hgit.components c hc).2, hgit.control⟩
    · rintro ⟨-, hparts, hcontrol⟩
      refine ⟨fun c hc => ⟨?_, hparts c hc⟩, .inr hlevel, hdots, hcontrol, ?_, hdot, hreflog, ?_⟩
      · rintro rfl
        rcases nil_mem_splitOnP hc with hnil | hstart | hend | hinner
        · rw [hnil] at hlevel
          cases hlevel
        · rw [hhead] at hstart
          cases hstart
        · exact hslash hend
        · exact hslashes hinner
      · intro c hc hmem
        have hnot := of_decide_eq_false (hforbidden c hc)
        exact hnot (List.mem_append_right [Char.ofNat 0, '\n', '\r'] hmem)
      · rintro rfl
        cases hhead

/-- A snapshot comes back from its files iff its names are trimmed and its tags are peeled, and an
accepted name keeps the rules of git iff its parts and its characters do. -/
theorem ref_files_round_trip (odb : Odb) (files : RefFiles) (snap : RefTable) :
    (Accepted snap →
      ((readFiles odb (writeFiles files snap)).refs = snap.refs ↔
        (∀ r ∈ snap.refs, Collab.trim r.name = r.name) ∧
          ∀ r ∈ snap.refs, r.peeled = "" → peelOf odb r.name r.oid = "")) ∧
      ∀ name, validateRefName name = true → ∀ onelevel,
        (CheckRefFormat onelevel name ↔ (onelevel = true ∨ name ≠ "HEAD") ∧ Storable name) :=
  ⟨readFiles_iff, fun _ h _ => checkRefFormat_iff h⟩

/-- A branch whose name ends in a space that does not break. -/
def spaced : RefTable :=
  ⟨[⟨"refs/heads/a\u00a0", "1111111111111111111111111111111111111111", ""⟩],
    List.pairwise_singleton _ _, ""⟩

/-- The branch comes back under another name, and a hidden part is accepted. -/
theorem accepted_name_lost : Accepted spaced ∧
    (readFiles (fun _ => none) (writeFiles ⟨none, none, []⟩ spaced)).refs ≠ spaced.refs ∧
      validateRefName "refs/heads/.a" = true ∧ ¬ CheckRefFormat true "refs/heads/.a" := by
  have haccepted : Accepted spaced := ⟨by decide, by decide⟩
  refine ⟨haccepted, fun heq => ?_, by decide, fun hgit => ?_⟩
  · have htrim := ((readFiles_iff haccepted).mp heq).1 _ List.mem_cons_self
    revert htrim
    decide
  · have hpart := hgit.components ['.', 'a'] (by decide)
    exact hpart.2.1 rfl

end Format

end Walgit.PackedRefs
