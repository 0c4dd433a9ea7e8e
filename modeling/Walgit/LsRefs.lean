import Walgit.Appliers
import Walgit.Lib.SortedRanges

/-!
# The reference listing

The prefixes of a request select ranges of the sorted references, each found by
binary search, and the ranges are merged. `HEAD` is not among the references:
it is listed last, with the commit of its target.
-/

namespace Walgit.LsRefs

open Appliers SortedTable SortedRanges

structure LsRefsArgs where
  refPrefixes : List String
  symrefs : Bool
  peel : Bool
  unborn : Bool
  deriving DecidableEq, Repr

structure LsRefsLine where
  name : String
  oid : String
  peeled : String
  symrefTarget : Option String
  deriving DecidableEq, Repr

def LsRefsLine.render (l : LsRefsLine) (args : LsRefsArgs) : String :=
  l.oid ++ " " ++ l.name ++
    (if args.symrefs || l.oid == "unborn" then
      l.symrefTarget.elim "" fun t => " symref-target:" ++ t else "") ++
    (if args.peel && l.peeled != "" then " peeled:" ++ l.peeled else "") ++ "\n"

section Code

def startsWith (name p : String) : Bool := p.toList.isPrefixOf name.toList

def prefixRange (refs : List Ref) (p : String) : ℕ × ℕ :=
  (partitionPoint (fun r => r.name < p) refs,
    partitionPoint (fun r => r.name < p || startsWith r.name p) refs)

def selected (refs : List Ref) (prefixes : List String) : List Ref :=
  if prefixes = [] then refs else mergeRanges refs (prefixes.map (prefixRange refs))

def headOid (snap : RefTable) : Option String :=
  if snap.headTarget = "" then none
  else
    match binarySearch Ref.name snap.headTarget snap.refs with
    | .ok i => (snap.refs[i]?).map Ref.oid
    | .error _ => none

def headMatches (args : LsRefsArgs) : Bool :=
  args.refPrefixes == [] || args.refPrefixes.any (startsWith "HEAD")

def refLine (r : Ref) : LsRefsLine := ⟨r.name, r.oid, r.peeled, none⟩

def lsRefs (snap : RefTable) (args : LsRefsArgs) : List LsRefsLine :=
  ((selected snap.refs args.refPrefixes).filter (·.name ≠ "HEAD")).map refLine ++
    if headMatches args && snap.headTarget != "" then
      match headOid snap, args.unborn with
      | some oid, _ => [⟨"HEAD", oid, "", some snap.headTarget⟩]
      | none, true => [⟨"HEAD", "unborn", "", some snap.headTarget⟩]
      | none, false => []
    else []

end Code

section Spec

/-- Some prefix of the request, or none at all. -/
def Matches (args : LsRefsArgs) (name : String) : Prop :=
  args.refPrefixes = [] ∨ ∃ p ∈ args.refPrefixes, p.toList <+: name.toList

instance (args : LsRefsArgs) : DecidablePred (Matches args) := fun _ =>
  inferInstanceAs (Decidable (_ ∨ _))

/-- What `HEAD` is listed as: the commit of its target, or unborn where this is asked for. -/
def headLine (snap : RefTable) (unborn : Bool) : Option LsRefsLine :=
  if snap.headTarget = "" then none
  else
    match snap.find snap.headTarget with
    | some r => some ⟨"HEAD", r.oid, "", some snap.headTarget⟩
    | none => if unborn then some ⟨"HEAD", "unborn", "", some snap.headTarget⟩ else none

/-- The plain scan of the references, and `HEAD`. -/
def plainScan (snap : RefTable) (args : LsRefsArgs) : List LsRefsLine :=
  (snap.refs.filter fun r => r.name ≠ "HEAD" ∧ Matches args r.name).map
      (fun r => ⟨r.name, r.oid, r.peeled, none⟩) ++
    if Matches args "HEAD" then (headLine snap args.unborn).toList else []

/-- A reference on the wire, with the object its tag is of where this is asked for. -/
def refText (args : LsRefsArgs) (r : Ref) : String :=
  r.oid ++ " " ++ r.name ++
    (if args.peel = true ∧ r.peeled ≠ "" then " peeled:" ++ r.peeled else "") ++ "\n"

/-- `HEAD` on the wire: an unborn one always says where it points. -/
def headText (args : LsRefsArgs) (oid target : String) : String :=
  oid ++ " HEAD" ++
    (if args.symrefs = true ∨ oid = "unborn" then " symref-target:" ++ target else "") ++ "\n"

def plainText (snap : RefTable) (args : LsRefsArgs) : List String :=
  (snap.refs.filter fun r => r.name ≠ "HEAD" ∧ Matches args r.name).map (refText args) ++
    if Matches args "HEAD" ∧ snap.headTarget ≠ "" then
      match snap.find snap.headTarget, args.unborn with
      | some r, _ => [headText args r.oid snap.headTarget]
      | none, true => [headText args "unborn" snap.headTarget]
      | none, false => []
    else []

variable {refs : List Ref} {snap : RefTable} {args : LsRefsArgs} {name p : String}

theorem startsWith_iff : startsWith name p ↔ p.toList <+: name.toList :=
  List.isPrefixOf_iff_prefix

theorem not_lt_of_startsWith (h : startsWith name p) : ¬ name < p := fun hlt =>
  not_lt_of_prefix (startsWith_iff.mp h) (String.lt_iff_toList_lt.mp hlt)

theorem partitioned_below (h : Sorted Ref.name refs) :
    Partitioned (fun r => decide (r.name < p)) refs :=
  h.imp fun hlt hp => decide_eq_true (hlt.trans (of_decide_eq_true hp))

theorem partitioned_upTo (h : Sorted Ref.name refs) :
    Partitioned (fun r => decide (r.name < p) || startsWith r.name p) refs := by
  refine h.imp fun {r s} hlt hp => ?_
  rw [Bool.or_eq_true, decide_eq_true_iff] at hp ⊢
  by_cases hr : r.name < p
  · exact .inl hr
  · have hs : startsWith s.name p := hp.resolve_left fun hs => hr (hlt.trans hs)
    rw [String.lt_iff_toList_lt] at hlt hr
    exact .inr (startsWith_iff.mpr (prefix_of_le hlt (startsWith_iff.mp hs) hr))

theorem prefixRange_iff (h : Sorted Ref.name refs) {i : ℕ} (hi : i < refs.length) :
    (prefixRange refs p).1 ≤ i ∧ i < (prefixRange refs p).2 ↔ startsWith refs[i].name p := by
  rw [prefixRange, ← Nat.not_lt, lt_partitionPoint (partitioned_below h) hi,
    lt_partitionPoint (partitioned_upTo h) hi, Bool.or_eq_true, decide_eq_true_iff]
  constructor
  · rintro ⟨hnot, hor⟩
    exact hor.resolve_left hnot
  · exact fun hs => ⟨not_lt_of_startsWith hs, .inr hs⟩

theorem selected_eq (h : Sorted Ref.name refs) :
    selected refs args.refPrefixes = refs.filter fun r => Matches args r.name := by
  rw [selected]
  split_ifs with hnil
  · exact (List.filter_eq_self.mpr fun r _ => decide_eq_true (.inl hnil)).symm
  · rw [mergeRanges_eq (P := fun p r => startsWith r.name p) fun p _ i hi => prefixRange_iff h hi]
    refine List.filter_congr fun r _ => ?_
    rw [Bool.eq_iff_iff, List.any_eq_true, decide_eq_true_iff, Matches, or_iff_right hnil]
    exact exists_congr fun p => and_congr_right fun _ => startsWith_iff

theorem headMatches_iff : headMatches args ↔ Matches args "HEAD" := by
  rw [headMatches, Bool.or_eq_true, beq_iff_eq, List.any_eq_true]
  exact or_congr_right (exists_congr fun p => and_congr_right fun _ => startsWith_iff)

theorem headOid_eq (h : snap.headTarget ≠ "") :
    headOid snap = (snap.find snap.headTarget).map Ref.oid := by
  rw [headOid, if_neg h, RefTable.find, ← snap.sorted.found_eq, found]
  cases binarySearch Ref.name snap.headTarget snap.refs <;> rfl

theorem lsRefs_eq : lsRefs snap args = plainScan snap args := by
  rw [lsRefs, plainScan, selected_eq snap.sorted, List.filter_filter]
  congr 1
  · simp only [← Bool.decide_and]
    rfl
  · rw [headLine]
    by_cases htarget : snap.headTarget = ""
    · rw [htarget, if_pos rfl, bne_self_eq_false, Bool.and_false, if_neg Bool.false_ne_true]
      split_ifs <;> rfl
    · rw [bne_iff_ne.mpr htarget, Bool.and_true, if_neg htarget, headOid_eq htarget,
        if_congr headMatches_iff rfl rfl]
      refine ite_congr rfl (fun _ => ?_) fun _ => rfl
      cases snap.find snap.headTarget <;> cases args.unborn <;> rfl

theorem name_headLine {unborn : Bool} {l : LsRefsLine} (h : headLine snap unborn = some l) :
    l.name = "HEAD" := by
  by_cases htarget : snap.headTarget = ""
  · rw [headLine, if_pos htarget] at h
    cases h
  rw [headLine, if_neg htarget] at h
  cases hfind : snap.find snap.headTarget with
  | some r =>
    rw [hfind] at h
    cases h
    rfl
  | none =>
    rw [hfind] at h
    cases unborn with
    | true =>
      cases h
      rfl
    | false => cases h

theorem nodup_plainScan : ((plainScan snap args).map LsRefsLine.name).Nodup := by
  have hrefs : (snap.refs.map Ref.name).Nodup :=
    List.pairwise_map.mpr (snap.sorted.imp fun h => ne_of_lt h)
  rw [plainScan, List.map_append, List.map_map, List.nodup_append]
  refine ⟨hrefs.sublist (List.filter_sublist.map _), ?_, ?_⟩
  · split_ifs
    · cases headLine snap args.unborn <;> simp
    · exact List.nodup_nil
  · intro a ha b hb hab
    obtain ⟨r, hr, rfl⟩ := List.mem_map.mp ha
    have hne := (of_decide_eq_true (List.mem_filter.mp hr).2).1
    obtain ⟨l, hl, rfl⟩ := List.mem_map.mp hb
    refine hne (hab.trans ?_)
    split_ifs at hl
    · exact name_headLine (Option.mem_toList.mp hl)
    · cases hl

theorem render_ref {r : Ref} :
    LsRefsLine.render ⟨r.name, r.oid, r.peeled, none⟩ args = refText args r := by
  simp [LsRefsLine.render, refText]

theorem render_head {oid target : String} :
    LsRefsLine.render ⟨"HEAD", oid, "", some target⟩ args = headText args oid target := by
  have hname : oid ++ " " ++ "HEAD" = oid ++ " HEAD" := by
    rw [String.append_assoc]
    rfl
  simp [LsRefsLine.render, headText, hname]

theorem render_plainScan : (plainScan snap args).map (·.render args) = plainText snap args := by
  rw [plainScan, plainText, List.map_append, List.map_map]
  congr 1
  · exact List.map_congr_left fun r _ => render_ref
  · rw [headLine]
    by_cases hmatch : Matches args "HEAD"
    · by_cases htarget : snap.headTarget = ""
      · simp [htarget]
      · simp only [hmatch, htarget, if_true, if_false, ne_eq, not_false_eq_true, and_self]
        cases snap.find snap.headTarget with
        | some r => simp [render_head]
        | none => cases args.unborn <;> simp [render_head]
    · simp [hmatch]

/-- The listing is the plain scan: the same lines in the same order, each name once. -/
theorem lsRefs_plain (snap : RefTable) (args : LsRefsArgs) :
    (lsRefs snap args).map (·.render args) = plainText snap args ∧
      lsRefs snap args = plainScan snap args ∧
        ((lsRefs snap args).map LsRefsLine.name).Nodup := by
  rw [lsRefs_eq]
  exact ⟨render_plainScan, rfl, nodup_plainScan⟩

end Spec

end Walgit.LsRefs
