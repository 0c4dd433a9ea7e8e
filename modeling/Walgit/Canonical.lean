import Mathlib.Data.List.Forall2
import Walgit.Lib.JsonReading
import Walgit.Signing

/-!
# The canonical form binds the entry

Values that `==` tells apart have different canonical texts, and equal values
have one text, whatever the order of their keys. So the bytes a signature
covers determine every field of the entry but the signature.
-/

namespace Walgit

namespace Json

def numberChar (c : Char) : Bool := c.isDigit || c ∈ ['-', '+', '.', 'e', 'E']

/-- How a number that is no integer is printed. -/
structure FloatText (text : String) : Prop where
  chars : ∀ c ∈ text.toList, numberChar c = true
  point : '.' ∈ text.toList ∨ 'e' ∈ text.toList

mutual

/-- A value as it is held: the keys of an object are distinct. -/
def Valid : Json → Prop
  | .null => True
  | .bool _ => True
  | .int _ => True
  | .float text => FloatText text
  | .string _ => True
  | .array items => ValidItems items
  | .object fields => (fields.map Prod.fst).Nodup ∧ ValidFields fields

def ValidItems : List Json → Prop
  | [] => True
  | v :: vs => Valid v ∧ ValidItems vs

def ValidFields : List (String × Json) → Prop
  | [] => True
  | (_, v) :: fs => Valid v ∧ ValidFields fs

end

mutual

/-- Equality of two values: numbers are compared by their texts, and two objects have the same
keys, with equal values. -/
def Same : Json → Json → Prop
  | .null, w => w = .null
  | .bool b, w => w = .bool b
  | .int n, w => w = .int n
  | .float text, w => w = .float text
  | .string s, w => w = .string s
  | .array items, w => ∃ items', w = .array items' ∧ SameItems items items'
  | .object fields, w => ∃ fields', w = .object fields' ∧ fields.length = fields'.length ∧
      SameFields fields fields'

def SameItems : List Json → List Json → Prop
  | [], ws => ws = []
  | v :: vs, ws => ∃ w ws', ws = w :: ws' ∧ Same v w ∧ SameItems vs ws'

def SameFields : List (String × Json) → List (String × Json) → Prop
  | [], _ => True
  | (k, v) :: fs, gs => (∃ w, gs.lookup k = some w ∧ Same v w) ∧ SameFields fs gs

end

variable {vs ws : List Json} {fs gs : List (String × Json)}

theorem validItems_iff : ValidItems vs ↔ ∀ v ∈ vs, Valid v := by
  induction vs with
  | nil => simp [ValidItems]
  | cons v vs ih => rw [ValidItems, ih, List.forall_mem_cons]

theorem validFields_iff : ValidFields fs ↔ ∀ f ∈ fs, Valid f.2 := by
  induction fs with
  | nil => simp [ValidFields]
  | cons f fs ih => rw [ValidFields, ih, List.forall_mem_cons]

theorem sameItems_iff : SameItems vs ws ↔ List.Forall₂ Same vs ws := by
  induction vs generalizing ws with
  | nil => rw [SameItems, List.forall₂_nil_left_iff]
  | cons v vs ih =>
    rw [SameItems, List.forall₂_cons_left_iff]
    constructor
    · rintro ⟨w, ws, rfl, hv, h⟩
      exact ⟨w, ws, hv, ih.mp h, rfl⟩
    · rintro ⟨w, ws, hv, h, rfl⟩
      exact ⟨w, ws, rfl, hv, ih.mpr h⟩

theorem sameFields_iff :
    SameFields fs gs ↔ ∀ f ∈ fs, ∃ w, gs.lookup f.1 = some w ∧ Same f.2 w := by
  induction fs with
  | nil => simp [SameFields]
  | cons f fs ih => rw [SameFields, ih, List.forall_mem_cons]

theorem lookup_of_mem {k : String} {v : Json} (hn : (fs.map Prod.fst).Nodup) (h : (k, v) ∈ fs) :
    fs.lookup k = some v := by
  induction fs with
  | nil => cases h
  | cons f fs ih =>
    obtain ⟨hf, hfs⟩ := List.nodup_cons.mp hn
    rcases List.mem_cons.mp h with rfl | h
    · simp
    · have hne : k ≠ f.1 := fun heq => hf (heq ▸ List.mem_map_of_mem h)
      rw [List.lookup_cons, beq_false_of_ne hne]
      exact ih hfs h

theorem mem_of_lookup {k : String} {v : Json} (h : fs.lookup k = some v) : (k, v) ∈ fs := by
  induction fs with
  | nil => cases h
  | cons f fs ih =>
    rw [List.lookup_cons] at h
    split at h
    · next hk =>
      obtain rfl := Option.some.inj h
      rw [eq_of_beq hk]
      exact List.mem_cons_self
    · exact List.mem_cons_of_mem _ (ih h)

end Json

namespace Collab

open Decimal JsonText Json

section Numbers

variable {c : Char} {n m : ℤ} {text : String}

theorem numberChar_of_int (h : c ∈ (toString n).toList) : numberChar c = true := by
  rcases digit_or_sign_of_int h with hc | rfl
  · simp [numberChar, hc]
  · decide

theorem int_text_ne (h : FloatText text) : (toString n).toList ≠ text.toList := by
  intro heq
  rcases h.point with hp | hp <;> rw [← heq] at hp <;>
    rcases digit_or_sign_of_int hp with hd | hd <;> cases hd

theorem float_text_ne_nil (h : FloatText text) : text.toList ≠ [] := by
  intro hnil
  rcases h.point with hp | hp <;> rw [hnil] at hp <;> cases hp

end Numbers

section Leads

variable {c : Char} {v w : Json} {r s : List Char}

/-- The kind of value that a text begins, by its first character. -/
def lead (c : Char) : ℕ :=
  if c = 'n' then 0
  else if c = 't' ∨ c = 'f' then 1
  else if c = '"' then 2
  else if c = '[' then 3
  else if c = '\x7b' then 4
  else if numberChar c then 5
  else 6

def rank : Json → ℕ
  | .null => 0
  | .bool _ => 1
  | .int _ => 5
  | .float _ => 5
  | .string _ => 2
  | .array _ => 3
  | .object _ => 4

theorem lead_numberChar (h : numberChar c = true) : lead c = 5 := by
  unfold lead
  split_ifs with hn hb hq ha ho
  · subst hn; cases h
  · rcases hb with rfl | rfl <;> cases h
  · subst hq; cases h
  · subst ha; cases h
  · subst ho; cases h
  · rfl

theorem numbers_lead (hne : r ≠ []) (h : ∀ c ∈ r, numberChar c = true) :
    ∃ c rest, r = c :: rest ∧ lead c = 5 := by
  obtain ⟨c, rest, rfl⟩ := List.exists_cons_of_ne_nil hne
  exact ⟨c, rest, rfl, lead_numberChar (h c List.mem_cons_self)⟩

theorem canonicalize_lead (hv : Valid v) :
    ∃ c rest, canonicalize v = c :: rest ∧ lead c = rank v := by
  cases v with
  | null => exact ⟨_, _, rfl, rfl⟩
  | bool b => cases b <;> exact ⟨_, _, rfl, rfl⟩
  | int n => exact numbers_lead int_text_ne_nil fun c hc => numberChar_of_int hc
  | float text => exact numbers_lead (float_text_ne_nil hv) hv.chars
  | string s => exact ⟨_, _, rfl, rfl⟩
  | array items => exact ⟨_, _, rfl, rfl⟩
  | object fields => exact ⟨_, _, rfl, rfl⟩

theorem rank_le : rank v ≤ 5 := by
  cases v <;> simp [rank]

theorem starts_canonicalize (hv : Valid v) : Starts (canonicalize v) := by
  obtain ⟨c, rest, h, hc⟩ := canonicalize_lead hv
  have hle : lead c ≤ 5 := hc ▸ rank_le
  refine ⟨c, rest, h, ?_, ?_⟩ <;> rintro rfl <;> exact absurd hle (by decide)

theorem rank_eq (hv : Valid v) (hw : Valid w) (h : canonicalize v ++ r = canonicalize w ++ s) :
    rank v = rank w := by
  obtain ⟨c, rest, hcv, hc⟩ := canonicalize_lead hv
  obtain ⟨d, rest', hdw, hd⟩ := canonicalize_lead hw
  rw [hcv, hdw] at h
  rw [← hc, ← hd, (List.cons_eq_cons.mp h).1]

end Leads

section Reading

variable {v w : Json} {r s : List Char} {fs gs : List (String × Json)}

theorem numberChar_of_ends (h : Ends r) : ∀ c ∈ r.head?, numberChar c = false := by
  intro c hc
  rcases h c hc with rfl | rfl | rfl <;> decide

theorem number_append_inj {t u : List Char} (ht : ∀ c ∈ t, numberChar c = true)
    (hu : ∀ c ∈ u, numberChar c = true) (hr : Ends r) (hs : Ends s) (h : t ++ r = u ++ s) :
    t = u ∧ r = s :=
  run_append_inj ht hu (numberChar_of_ends hr) (numberChar_of_ends hs) h

theorem canonicalItems_eq (vs : List Json) : canonicalItems vs = vs.map canonicalize := by
  induction vs with
  | nil => rfl
  | cons v vs ih => rw [canonicalItems, ih, List.map_cons]

def fieldText (f : String × Json) : List Char := field (quote f.1.toList) (canonicalize f.2)

/-- The fields as they are printed: in the order of their keys. -/
def sortedFields (fs : List (String × Json)) : List (String × Json) :=
  fs.insertionSort fun a b => a.1 ≤ b.1

theorem canonicalize_object :
    canonicalize (.object fs) = bracket '\x7b' '\x7d' ((sortedFields fs).map fieldText) := by
  rw [canonicalize, canonicalFields_eq, sortedFields,
    ← List.map_insertionSort (fun f g : String × Json => f.1 ≤ g.1) (fun f g => f.1 ≤ g.1)
      (fun f => (f.1, canonicalize f.2)) fs (fun _ _ _ _ => Iff.rfl), List.map_map]
  rfl

theorem mem_sortedFields {f : String × Json} : f ∈ sortedFields fs ↔ f ∈ fs :=
  List.mem_insertionSort _

theorem starts_fieldText (f : String × Json) : Starts (fieldText f) :=
  ⟨_, _, rfl, by decide, by decide⟩

theorem fieldText_readsBack {f g : String × Json}
    (h : ReadsBack canonicalize canonicalize Same f.2 g.2) :
    ReadsBack fieldText fieldText (fun f g => f.1 = g.1 ∧ Same f.2 g.2) f g := by
  intro r s hr hs heq
  simp only [fieldText, field, List.append_assoc] at heq
  obtain ⟨hkey, hrest⟩ := quote_append_inj heq
  obtain ⟨hvalue, hrs⟩ := h r s hr hs (List.cons_eq_cons.mp hrest).2
  exact ⟨⟨String.toList_inj.mp hkey, hvalue⟩, hrs⟩

theorem exists_related {α β : Type} {R : α → β → Prop} {xs : List α} {ys : List β}
    (h : List.Forall₂ R xs ys) : ∀ x ∈ xs, ∃ y ∈ ys, R x y := by
  induction h with
  | nil => nofun
  | cons hxy _ ih =>
    rw [List.forall_mem_cons]
    refine ⟨⟨_, List.mem_cons_self, hxy⟩, fun x hx => ?_⟩
    obtain ⟨y, hy, hR⟩ := ih x hx
    exact ⟨y, List.mem_cons_of_mem _ hy, hR⟩

theorem sameFields_of_sorted (hn : (gs.map Prod.fst).Nodup)
    (h : List.Forall₂ (fun f g : String × Json => f.1 = g.1 ∧ Same f.2 g.2) (sortedFields fs)
      (sortedFields gs)) : fs.length = gs.length ∧ SameFields fs gs := by
  have hlen : (sortedFields fs).length = (sortedFields gs).length := h.length_eq
  rw [sortedFields, sortedFields, List.length_insertionSort, List.length_insertionSort] at hlen
  refine ⟨hlen, sameFields_iff.mpr fun f hf => ?_⟩
  obtain ⟨g, hg, hkey, hvalue⟩ := exists_related h f (mem_sortedFields.mpr hf)
  refine ⟨g.2, ?_, hvalue⟩
  rw [hkey]
  exact lookup_of_mem hn (mem_sortedFields.mp hg)

mutual

theorem reads_value : ∀ v, Valid v → ∀ w, Valid w → ReadsBack canonicalize canonicalize Same v w
  | .null, hv, w, hw => by
    intro r s _ _ h
    have hrank := rank_eq hv hw h
    cases w with
    | null => exact ⟨by simp [Same], List.append_cancel_left h⟩
    | _ => cases hrank
  | .bool b, hv, w, hw => by
    intro r s _ _ h
    have hrank := rank_eq hv hw h
    cases w with
    | bool c =>
      cases b <;> cases c <;> simp [canonicalize] at h <;> exact ⟨by simp [Same], h⟩
    | _ => cases hrank
  | .int n, hv, w, hw => by
    intro r s hr hs h
    have hrank := rank_eq hv hw h
    cases w with
    | int m =>
      obtain ⟨htext, hrs⟩ := number_append_inj (fun _ => numberChar_of_int)
        (fun _ => numberChar_of_int) hr hs h
      exact ⟨by rw [int_text_inj htext, Same], hrs⟩
    | float text =>
      obtain ⟨htext, -⟩ := number_append_inj (fun _ => numberChar_of_int) hw.chars hr hs h
      exact absurd htext (int_text_ne hw)
    | _ => cases hrank
  | .float text, hv, w, hw => by
    intro r s hr hs h
    have hrank := rank_eq hv hw h
    cases w with
    | int m =>
      obtain ⟨htext, -⟩ := number_append_inj hv.chars (fun _ => numberChar_of_int) hr hs h
      exact absurd htext.symm (int_text_ne hv)
    | float text' =>
      obtain ⟨htext, hrs⟩ := number_append_inj hv.chars hw.chars hr hs h
      exact ⟨by rw [String.toList_inj.mp htext, Same], hrs⟩
    | _ => cases hrank
  | .string a, hv, w, hw => by
    intro r s _ _ h
    have hrank := rank_eq hv hw h
    cases w with
    | string b =>
      obtain ⟨htext, hrs⟩ := quote_append_inj h
      exact ⟨by rw [String.toList_inj.mp htext, Same], hrs⟩
    | _ => cases hrank
  | .array items, hv, w, hw => by
    intro r s _ _ h
    have hrank := rank_eq hv hw h
    cases w with
    | array items' =>
      rw [Valid, validItems_iff] at hw
      rw [canonicalize, canonicalize, canonicalItems_eq, canonicalItems_eq] at h
      obtain ⟨hall, hrs⟩ := bracket_append_inj brackets_array
        (fun x hx => starts_canonicalize (validItems_iff.mp hv x hx))
        (fun y hy => starts_canonicalize (hw y hy))
        (fun x hx y hy => reads_items items hv x hx y (hw y hy)) h
      exact ⟨by rw [Same]; exact ⟨_, rfl, sameItems_iff.mpr hall⟩, hrs⟩
    | _ => cases hrank
  | .object fields, hv, w, hw => by
    intro r s _ _ h
    have hrank := rank_eq hv hw h
    cases w with
    | object fields' =>
      obtain ⟨hn, hvalid⟩ := hw
      rw [canonicalize_object, canonicalize_object] at h
      obtain ⟨hall, hrs⟩ := bracket_append_inj brackets_object (fun f _ => starts_fieldText f)
        (fun g _ => starts_fieldText g) (fun f hf g hg => fieldText_readsBack
          (reads_fields fields hv.2 f (mem_sortedFields.mp hf) g.2
            (validFields_iff.mp hvalid g (mem_sortedFields.mp hg)))) h
      exact ⟨by rw [Same]; exact ⟨_, rfl, sameFields_of_sorted hn hall⟩, hrs⟩
    | _ => cases hrank

theorem reads_items : ∀ vs, ValidItems vs → ∀ v ∈ vs, ∀ w, Valid w →
    ReadsBack canonicalize canonicalize Same v w
  | [], _ => nofun
  | v :: vs, h => by
    intro x hx w hw
    rcases List.mem_cons.mp hx with heq | hx
    · rw [heq]
      exact reads_value v h.1 w hw
    · exact reads_items vs h.2 x hx w hw

theorem reads_fields : ∀ fs, ValidFields fs → ∀ f ∈ fs, ∀ w, Valid w →
    ReadsBack canonicalize canonicalize Same f.2 w
  | [], _ => nofun
  | (k, v) :: fs, h => by
    intro f hf w hw
    rcases List.mem_cons.mp hf with heq | hf
    · rw [heq]
      exact reads_value v h.1 w hw
    · exact reads_fields fs h.2 f hf w hw

end

/-- The canonical texts of two values are equal only where the values are. -/
theorem same_of_canonicalize (hv : Valid v) (hw : Valid w) (h : canonicalize v = canonicalize w) :
    Same v w :=
  (reads_value v hv w hw [] [] ends_nil ends_nil (by rw [h])).1

theorem keys_canonicalFields : (canonicalFields fs).map Prod.fst = fs.map Prod.fst := by
  rw [canonicalFields_eq, List.map_map]
  rfl

theorem sorted_texts_eq (hn : (fs.map Prod.fst).Nodup) (hlen : fs.length = gs.length)
    (h : ∀ p ∈ canonicalFields fs, p ∈ canonicalFields gs) :
    ((canonicalFields fs).insertionSort fun a b => a.1 ≤ b.1) =
      (canonicalFields gs).insertionSort fun a b => a.1 ≤ b.1 := by
  have hkeys : ((canonicalFields fs).map Prod.fst).Nodup := keys_canonicalFields ▸ hn
  have hperm : (canonicalFields fs).Perm (canonicalFields gs) := by
    refine (List.subperm_of_subset hkeys.of_map h).perm_of_length_le ?_
    rw [canonicalFields_eq, canonicalFields_eq, List.length_map, List.length_map, hlen]
  have hle : ∀ l : List (String × List Char),
      (l.insertionSort fun a b => a.1 ≤ b.1).Pairwise fun a b => a.1 ≤ b.1 := by
    intro l
    have : Std.Total fun a b : String × List Char => a.1 ≤ b.1 := ⟨fun a b => le_total _ _⟩
    have : IsTrans (String × List Char) fun a b => a.1 ≤ b.1 := ⟨fun _ _ _ => le_trans⟩
    exact List.pairwise_insertionSort _ l
  refine List.Perm.eq_of_pairwise (fun a b ha hb hab hba => ?_) (hle _) (hle _)
    ((List.perm_insertionSort _ _).trans (hperm.trans (List.perm_insertionSort _ _).symm))
  exact List.inj_on_of_nodup_map hkeys ((List.mem_insertionSort _).mp ha)
    (hperm.mem_iff.mpr ((List.mem_insertionSort _).mp hb)) (le_antisymm hab hba)

mutual

theorem canonicalize_same : ∀ v, Valid v → ∀ w, Same v w → canonicalize v = canonicalize w
  | .null, _, w, h => by rw [show w = .null from h]
  | .bool b, _, w, h => by rw [show w = .bool b from h]
  | .int n, _, w, h => by rw [show w = .int n from h]
  | .float text, _, w, h => by rw [show w = .float text from h]
  | .string s, _, w, h => by rw [show w = .string s from h]
  | .array items, hv, w, h => by
    obtain ⟨items', rfl, hitems⟩ := h
    rw [canonicalize, canonicalize, canonicalItems_same items hv items' hitems]
  | .object fields, hv, w, h => by
    obtain ⟨fields', rfl, hlen, hfields⟩ := h
    rw [canonicalize, canonicalize,
      sorted_texts_eq hv.1 hlen (canonicalFields_same fields hv.2 fields' hfields)]

theorem canonicalItems_same : ∀ vs, ValidItems vs → ∀ ws, SameItems vs ws →
    canonicalItems vs = canonicalItems ws
  | [], _, ws, h => by rw [show ws = [] from h]
  | v :: vs, hv, ws, h => by
    obtain ⟨w, ws, rfl, hsame, hrest⟩ := h
    rw [canonicalItems, canonicalItems, canonicalize_same v hv.1 w hsame,
      canonicalItems_same vs hv.2 ws hrest]

theorem canonicalFields_same : ∀ fs, ValidFields fs → ∀ gs, SameFields fs gs →
    ∀ p ∈ canonicalFields fs, p ∈ canonicalFields gs
  | [], _, gs, _ => nofun
  | (k, v) :: fs, hv, gs, h => by
    obtain ⟨⟨w, hw, hsame⟩, hrest⟩ := h
    intro p hp
    rcases List.mem_cons.mp hp with heq | hp
    · rw [heq, canonicalize_same v hv.1 w hsame, canonicalFields_eq gs]
      exact List.mem_map_of_mem (f := fun f => (f.1, canonicalize f.2)) (mem_of_lookup hw)
    · exact canonicalFields_same fs hv.2 gs hrest p hp

end

end Reading

section Bound

variable {e e' : Entry} {r : EntryRefs} {w : Json}

theorem valid_refs (r : EntryRefs) : Valid r.value := by
  obtain ⟨base, head⟩ := r
  cases base <;> cases head <;>
    simp [EntryRefs.value, Valid, ValidFields]

theorem valid_fields (hbody : Valid e.body) : Valid (.object e.fields) := by
  have hrefs := valid_refs
  cases hr : e.refs <;> simp [Entry.fields, Valid, ValidFields, hr, hbody, hrefs]

/-- All of an entry but its signature; the bodies up to the order of their keys. -/
structure Agree (e e' : Entry) : Prop where
  version : e.version = e'.version
  kind : e.kind = e'.kind
  id : e.id = e'.id
  actor : e.actor = e'.actor
  ts : e.ts = e'.ts
  parent : e.parent = e'.parent
  refs : e.refs = e'.refs
  body : Same e.body e'.body

theorem refs_of_same {r r' : EntryRefs} (h : Same r.value r'.value) : r = r' := by
  obtain ⟨base, head⟩ := r
  obtain ⟨base', head'⟩ := r'
  cases base <;> cases head <;> cases base' <;> cases head' <;>
    simp_all [EntryRefs.value, Same, SameFields, List.lookup]

theorem same_refl_refs (r : EntryRefs) : Same r.value r.value := by
  obtain ⟨base, head⟩ := r
  cases base <;> cases head <;> simp [EntryRefs.value, Same, SameFields, List.lookup]

theorem agree_of_same (h : Same (.object e.fields) (.object e'.fields)) : Agree e e' := by
  obtain ⟨version, kind, id, actor, ts, parent, refs, body, sig⟩ := e
  obtain ⟨version', kind', id', actor', ts', parent', refs', body', sig'⟩ := e'
  cases refs with
  | none =>
    cases refs' with
    | none =>
      simp [Entry.fields, Same, SameFields, List.lookup] at h
      obtain ⟨h1, rfl, rfl, rfl, rfl, rfl, hbody, -⟩ := h
      exact ⟨h1.symm, rfl, rfl, rfl, rfl, rfl, rfl, hbody⟩
    | some r' => simp [Entry.fields, Same] at h
  | some r =>
    cases refs' with
    | none => simp [Entry.fields, Same] at h
    | some r' =>
      simp [Entry.fields, Same, SameFields, List.lookup] at h
      obtain ⟨h1, rfl, rfl, rfl, rfl, rfl, hrefs, hbody, -⟩ := h
      exact ⟨h1.symm, rfl, rfl, rfl, rfl, rfl, by rw [refs_of_same hrefs], hbody⟩

theorem same_of_agree (h : Agree e e') :
    Same (.object ({ e with sig := "" } : Entry).fields)
      (.object ({ e' with sig := "" } : Entry).fields) := by
  obtain ⟨version, kind, id, actor, ts, parent, refs, body, sig⟩ := e
  obtain ⟨version', kind', id', actor', ts', parent', refs', body', sig'⟩ := e'
  obtain ⟨rfl, rfl, rfl, rfl, rfl, rfl, rfl, hbody⟩ := h
  cases refs <;>
    simp_all [Entry.fields, Same, SameFields, List.lookup, same_refl_refs]

theorem entryCanonical_iff (hbody : Valid e.body) (hbody' : Valid e'.body) :
    entryCanonical e = entryCanonical e' ↔ Agree e e' := by
  have hv : Valid (.object ({ e with sig := "" } : Entry).fields) := valid_fields hbody
  have hv' : Valid (.object ({ e' with sig := "" } : Entry).fields) := valid_fields hbody'
  constructor
  · intro h
    obtain ⟨h1, h2, h3, h4, h5, h6, h7, h8⟩ := agree_of_same (same_of_canonicalize hv hv' h)
    exact ⟨h1, h2, h3, h4, h5, h6, h7, h8⟩
  · exact fun h => canonicalize_same _ hv _ (same_of_agree h)

/-- The canonical form tells apart all values but those that differ in the order of keys, and
all entries that differ in any field but the signature. -/
theorem canonical_form_binds (v w : Json) (hv : Valid v) (hw : Valid w) (e e' : Entry)
    (hbody : Valid e.body) (hbody' : Valid e'.body) :
    (canonicalize v = canonicalize w ↔ Same v w) ∧
      (entryCanonical e = entryCanonical e' ↔ Agree e e') :=
  ⟨⟨same_of_canonicalize hv hw, canonicalize_same v hv w⟩, entryCanonical_iff hbody hbody'⟩

/-- A body of two keys, and the same body with its keys in the other order. -/
def titled : Json := .object [("title", .string "a\"b"), ("tags", .array [])]

def titledReordered : Json := .object [("tags", .array []), ("title", .string "a\"b")]

theorem reordered_body_binds :
    canonicalize titled = canonicalize titledReordered ∧
      entryCanonical ⟨1, "issue", "i1", "ann", 7, "", none, titled, "ed25519:AA"⟩ =
        entryCanonical ⟨1, "issue", "i1", "ann", 7, "", none, titledReordered, ""⟩ := by
  have hv : Valid titled := by simp [titled, Valid, ValidFields, ValidItems]
  have hw : Valid titledReordered := by simp [titledReordered, Valid, ValidFields, ValidItems]
  have hsame : Same titled titledReordered := by
    simp [titled, titledReordered, Same, SameFields, SameItems, List.lookup]
  obtain ⟨hvalue, hentry⟩ := canonical_form_binds titled titledReordered hv hw
    ⟨1, "issue", "i1", "ann", 7, "", none, titled, "ed25519:AA"⟩
    ⟨1, "issue", "i1", "ann", 7, "", none, titledReordered, ""⟩ hv hw
  exact ⟨hvalue.mpr hsame, hentry.mpr ⟨rfl, rfl, rfl, rfl, rfl, rfl, rfl, hsame⟩⟩

end Bound

end Collab

end Walgit
