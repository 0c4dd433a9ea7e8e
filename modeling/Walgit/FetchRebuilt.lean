import Walgit.FetchRequest

/-!
# The fetch that git gets

What the record of a request is written out as, compared with the arguments of
the request.
-/

namespace Walgit.Pkt

open Appliers (fromHex lowerHex)

section Rebuilding

open FetchArg (oids strings numbers)

variable {ls : List (FetchArg × Bool)} {args args' : List FetchArg} {a : FetchArg} {s : String}
  {w : String}

def flagsIn (args : List FetchArg) (ks : List FlagKey) : List FetchArg :=
  (ks.filter fun k => .flag k ∈ args).map .flag

def rebuiltArgs (ls : List (FetchArg × Bool)) : List FetchArg :=
  flagsIn (argsOf ls)
    [.thinPack, .ofsDelta, .noProgress, .includeTag, .sidebandAll, .waitForDone] ++
  (readStrings .filter ls).getLast?.toList.map (fun s => .string .filter (utf8 s)) ++
  (oids .wanted (argsOf ls)).map (.oid .wanted) ++
  (oids .held (argsOf ls)).map (.oid .held) ++
  (oids .shallow (argsOf ls)).map (.oid .shallow) ++
  ((numbers .deepen (argsOf ls)).getLast?.filter (· < 2 ^ 32)).toList.map (.number .deepen) ++
  ((numbers .deepenSince (argsOf ls)).getLast?.filter (· < 2 ^ 63)).toList.map
    (.number .deepenSince) ++
  (readStrings .deepenNot ls).map (fun s => .string .deepenNot (utf8 s)) ++
  (readStrings .wantRef ls).map (fun s => .string .wantRef (utf8 s)) ++
  (readStrings .packfileUris ls).getLast?.toList.map (fun s => .string .packfileUris (utf8 s)) ++
  flagsIn (argsOf ls) [.done]

def linesOf (args : List FetchArg) : Bytes := args.flatMap fun a => encodeData (a.render ++ [10])

theorem linesOf_append : linesOf (args ++ args') = linesOf args ++ linesOf args' :=
  List.flatMap_append

theorem utf8_append (s t : String) : utf8 (s ++ t) = utf8 s ++ utf8 t := by
  rw [utf8, String.toList_append, Utf8.encode_append]
  rfl

theorem fetchText_value {word : String} (hword : a.word = word) (hw : utf8 w = ascii word ++ [32])
    (hv : a.value = some (utf8 s)) : fetchText (w ++ s) = encodeData (a.render ++ [10]) := by
  rw [fetchText, utf8_append, utf8_append, hw, FetchArg.render, hword, hv, Option.elim_some,
    List.append_assoc (ascii word)]
  rfl

theorem linesOf_map {α : Type} {l : List α} {f : α → FetchArg} {g : α → String}
    (h : ∀ x, fetchText (g x) = encodeData ((f x).render ++ [10])) :
    (l.flatMap fun x => fetchText (g x)) = linesOf (l.map f) := by
  rw [linesOf, List.flatMap_map]
  exact List.flatMap_congr fun x _ => h x

theorem linesOf_flags (ks : List FlagKey) : linesOf (flagsIn args ks) =
    ks.flatMap fun k => if .flag k ∈ args then fetchText (FetchArg.flag k).word else [] := by
  induction ks with
  | nil => rfl
  | cons k ks ih =>
    have hline : fetchText (FetchArg.flag k).word =
        encodeData ((FetchArg.flag k).render ++ [10]) := by
      rw [fetchText, utf8_append, ← ascii_word, FetchArg.render, FetchArg.value, Option.elim_none,
        List.append_nil]
      rfl
    rw [List.flatMap_cons, ← ih]
    by_cases hk : .flag k ∈ args
    · rw [if_pos hk, hline, flagsIn, List.filter_cons_of_pos (by simpa using hk)]
      rfl
    · rw [if_neg hk, flagsIn, List.filter_cons_of_neg (by simpa using hk)]
      rfl

theorem join_split (s : String) : String.ofList ([' '].intercalate
    (((s.toList.splitOn ' ').map String.ofList).map String.toList)) = s := by
  have hmap : ((s.toList.splitOn ' ').map String.ofList).map String.toList =
      s.toList.splitOn ' ' := by
    rw [List.map_map]
    refine (List.map_congr_left fun cs _ => ?_).trans (List.map_id _)
    exact String.toList_ofList
  rw [hmap, List.intercalate_splitOn, String.ofList_toList]

theorem since_line (o : Option ℕ) : ((o.map fun n : ℕ => (n : ℤ)).toList.flatMap fun ts =>
    fetchText ("deepen-since " ++ toString ts)) =
      linesOf (o.toList.map (.number .deepenSince)) := by
  cases o with
  | none => rfl
  | some n =>
    have hline : fetchText ("deepen-since " ++ toString (n : ℤ)) =
        encodeData ((FetchArg.number .deepenSince n).render ++ [10]) :=
      fetchText_value (show FetchArg.word _ = "deepen-since" from rfl) rfl rfl
    exact congrArg (· ++ []) hline

theorem protocols_line (o : Option String) {ps : List String}
    (h : ps = o.elim [] fun p => (p.toList.splitOn ' ').map .ofList) :
    (if ps ≠ [] then fetchText ("packfile-uris " ++
      .ofList ([' '].intercalate (ps.map String.toList))) else []) =
      linesOf (o.toList.map fun s => .string .packfileUris (utf8 s)) := by
  cases o with
  | none =>
    rw [h]
    rfl
  | some p =>
    have hline : fetchText ("packfile-uris " ++ p) =
        encodeData ((FetchArg.string .packfileUris (utf8 p)).render ++ [10]) :=
      fetchText_value (show FetchArg.word _ = "packfile-uris" from rfl) rfl rfl
    have hne : ps ≠ [] := by
      rw [h, Option.elim_some, ne_eq, List.map_eq_nil_iff]
      exact List.splitOn_ne_nil _ _
    rw [if_pos hne, h, Option.elim_some, join_split, hline]
    exact (List.append_nil _).symm

theorem buildV2FetchRequest_eq : buildV2FetchRequest (requested ls) =
    encodeData (ascii "command=fetch\n") ++ encodeDelim ++ linesOf (rebuiltArgs ls) ++
      encodeFlush := by
  have hfilter := fun s : String => @fetchText_value (.string .filter (utf8 s)) s "filter "
    "filter" rfl rfl rfl
  have hwant := fun s : String => @fetchText_value (.oid .wanted s) s "want " "want" rfl rfl rfl
  have hhave := fun s : String => @fetchText_value (.oid .held s) s "have " "have" rfl rfl rfl
  have hshallow := fun s : String => @fetchText_value (.oid .shallow s) s "shallow " "shallow"
    rfl rfl rfl
  have hdeepen := fun n : ℕ => @fetchText_value (.number .deepen n) (toString n) "deepen "
    "deepen" rfl rfl rfl
  have hnot := fun s : String => @fetchText_value (.string .deepenNot (utf8 s)) s "deepen-not "
    "deepen-not" rfl rfl rfl
  have href := fun s : String => @fetchText_value (.string .wantRef (utf8 s)) s "want-ref "
    "want-ref" rfl rfl rfl
  rw [buildV2FetchRequest, linesOf_map hfilter, linesOf_map hwant, linesOf_map hhave,
    linesOf_map hshallow, linesOf_map hdeepen, linesOf_map hnot, linesOf_map href]
  rw [@protocols_line (readStrings .packfileUris ls).getLast? (requested ls).packfileUrisProtocols
    rfl]
  have hsince := since_line ((numbers .deepenSince (argsOf ls)).getLast?.filter (· < 2 ^ 63))
  simp only [requested] at hsince ⊢
  rw [hsince]
  simp only [rebuiltArgs, linesOf_append, linesOf_flags, List.flatMap_cons, List.flatMap_nil,
    decide_eq_true_eq, List.append_nil, List.append_assoc, FetchArg.word,
    FetchArg.key, ArgKey.word]
  rfl

theorem toLower_toLower (c : Char) : c.toLower.toLower = c.toLower := by
  by_cases h : c.val ≥ 'A'.val ∧ c.val ≤ 'Z'.val
  · have hval : c.toLower.val = c.val + 32 := by
      rw [Char.toLower, dif_pos h]
      rfl
    have hsum : c.toLower.val.toNat = c.val.toNat + 32 := by
      have hle : c.val.toNat ≤ 90 := UInt32.le_iff_toNat_le.mp h.2
      rw [hval, UInt32.toNat_add, Nat.mod_eq_of_lt]
      · rfl
      · change c.val.toNat + 32 < 2 ^ 32
        omega
    have hnot : ¬ (c.toLower.val ≥ 'A'.val ∧ c.toLower.val ≤ 'Z'.val) := by
      rintro ⟨-, hle⟩
      have hlow : 65 ≤ c.val.toNat := UInt32.le_iff_toNat_le.mp h.1
      have hhigh : c.toLower.val.toNat ≤ 90 := UInt32.le_iff_toNat_le.mp hle
      omega
    rw [Char.toLower, dif_neg hnot]
  · have hsame : c.toLower = c := by rw [Char.toLower, dif_neg h]
    rw [hsame, hsame]

theorem lowerHex_lowerHex (hex : String) : lowerHex (lowerHex hex) = lowerHex hex := by
  rw [lowerHex, lowerHex, String.toList_ofList, List.map_map]
  congr 1
  exact List.map_congr_left fun c _ => toLower_toLower c

theorem mem_flagsIn {k : FlagKey} {ks : List FlagKey} :
    .flag k ∈ flagsIn args ks ↔ k ∈ ks ∧ .flag k ∈ args := by
  simp [flagsIn]

/-- Every flag but the relative depth is handed on. -/
theorem flag_rebuilt (k : FlagKey) : .flag k ∈ rebuiltArgs ls ↔
    .flag k ∈ argsOf ls ∧ k ≠ .deepenRelative := by
  simp only [rebuiltArgs, List.mem_append, List.mem_map, reduceCtorEq, and_false, exists_false,
    or_false, mem_flagsIn]
  cases k <;> simp

theorem oids_rebuilt (k : OidKey) : oids k (rebuiltArgs ls) = oids k (argsOf ls) := by
  have hlower : (oids k (argsOf ls)).map lowerHex = oids k (argsOf ls) := by
    rw [oids, List.map_filterMap]
    refine List.filterMap_congr fun a _ => ?_
    rcases a with _ | ⟨k', hex⟩ | _ | _
    · rfl
    · dsimp only
      split_ifs
      · exact congrArg some (lowerHex_lowerHex hex)
      · rfl
    · rfl
    · rfl
  cases k <;> simpa [rebuiltArgs, flagsIn, oids, List.filterMap_map, Function.comp_def] using hlower

/-- The texts of a kind that are handed on. -/
def rebuiltStrings (k : StringKey) (ls : List (FetchArg × Bool)) : List String :=
  match k with
  | .filter | .packfileUris => (readStrings k ls).getLast?.toList
  | .deepenNot | .wantRef => readStrings k ls

theorem strings_rebuilt (k : StringKey) :
    strings k (rebuiltArgs ls) = (rebuiltStrings k ls).map utf8 := by
  cases k <;> simp [rebuiltArgs, rebuiltStrings, flagsIn, strings, List.filterMap_map]

theorem numbers_rebuilt (k : NumberKey) : numbers k (rebuiltArgs ls) =
    ((numbers k (argsOf ls)).getLast?.filter fun n =>
      match k with
      | .deepen => n < 2 ^ 32
      | .deepenSince => n < 2 ^ 63).toList := by
  cases k <;> simp [rebuiltArgs, flagsIn, numbers, List.filterMap_map]

end Rebuilding

section Same

open FetchArg (oids strings numbers)

variable {ls : List (FetchArg × Bool)} {args : List FetchArg} {a b : FetchArg} {α β : Type}

theorem map_eq_last_iff {l : List α} {f g : α → β} :
    l.map f = (l.getLast?.toList).map g ↔ l.length ≤ 1 ∧ ∀ x ∈ l, f x = g x := by
  match l with
  | [] => simp
  | [x] => simp
  | x :: y :: l =>
    constructor
    · intro h
      have hlen := congrArg List.length h
      rw [List.getLast?_eq_some_getLast (List.cons_ne_nil _ _)] at hlen
      simp at hlen
    · rintro ⟨hlen, -⟩
      simp at hlen

theorem eq_last_filter_iff {l : List α} {p : α → Bool} :
    l = (l.getLast?.filter p).toList ↔ l.length ≤ 1 ∧ ∀ x ∈ l, p x = true := by
  match l with
  | [] => simp
  | [x] =>
    by_cases hp : p x = true
    · simp [Option.filter_some, hp]
    · simp [Option.filter_some, hp]
  | x :: y :: l =>
    constructor
    · intro h
      have hlen := congrArg List.length h
      have hle : ((x :: y :: l).getLast?.filter p).toList.length ≤ 1 := by
        cases (x :: y :: l).getLast?.filter p <;> simp
      rw [← hlen] at hle
      exact absurd hle (by simp)
    · rintro ⟨hlen, -⟩
      simp at hlen

theorem mem_strings {k : StringKey} {t : Bytes} : t ∈ strings k args ↔ .string k t ∈ args := by
  rw [strings, List.mem_filterMap]
  constructor
  · rintro ⟨_ | _ | ⟨k', b⟩ | _, hmem, h⟩
    · cases h
    · cases h
    · dsimp only at h
      split_ifs at h with hk
      cases h
      exact hk ▸ hmem
    · cases h
  · intro h
    exact ⟨_, h, if_pos rfl⟩

theorem mem_oids {k : OidKey} {hex : String} :
    hex ∈ oids k args ↔ ∃ hex₀, .oid k hex₀ ∈ args ∧ lowerHex hex₀ = hex := by
  rw [oids, List.mem_filterMap]
  constructor
  · rintro ⟨_ | ⟨k', hex₀⟩ | _ | _, hmem, h⟩
    · cases h
    · dsimp only at h
      split_ifs at h with hk
      cases h
      exact ⟨hex₀, hk ▸ hmem, rfl⟩
    · cases h
    · cases h
  · rintro ⟨hex₀, hmem, rfl⟩
    exact ⟨_, hmem, if_pos rfl⟩

theorem mem_rebuilt_oid {k : OidKey} {hex : String} (h : .oid k hex ∈ rebuiltArgs ls) :
    hex ∈ oids k (argsOf ls) := by
  simp only [rebuiltArgs, flagsIn, List.mem_append, List.mem_map, reduceCtorEq, and_false,
    exists_false, false_or, or_false, FetchArg.oid.injEq] at h
  rcases h with (⟨_, hmem, rfl, rfl⟩ | ⟨_, hmem, rfl, rfl⟩) | ⟨_, hmem, rfl, rfl⟩ <;> exact hmem

theorem mem_numbers {k : NumberKey} {n : ℕ} : n ∈ numbers k args ↔ .number k n ∈ args := by
  rw [numbers, List.mem_filterMap]
  constructor
  · rintro ⟨_ | _ | _ | ⟨k', m⟩, hmem, h⟩
    · cases h
    · cases h
    · cases h
    · dsimp only at h
      split_ifs at h with hk
      cases h
      exact hk ▸ hmem
  · intro h
    exact ⟨_, h, if_pos rfl⟩

/-- The texts of a kind with their line ends. -/
def texts (k : StringKey) (ls : List (FetchArg × Bool)) : List (Bytes × Bool) :=
  ls.filterMap fun
    | (.string k' b, nl) => if k' = k then some (b, nl) else none
    | _ => none

theorem map_texts {k : StringKey} {γ : Type} {f : Bytes × Bool → γ} : (texts k ls).map f =
    ls.filterMap fun
      | (.string k' b, nl) => if k' = k then some (f (b, nl)) else none
      | _ => none := by
  rw [texts, List.map_filterMap]
  refine List.filterMap_congr fun x _ => ?_
  rcases x with ⟨_ | _ | ⟨k', b⟩ | _, nl⟩
  · rfl
  · rfl
  · exact apply_ite (Option.map f) _ _ _
  · rfl

theorem strings_argsOf {k : StringKey} : strings k (argsOf ls) = (texts k ls).map Prod.fst := by
  rw [map_texts, strings, argsOf, List.filterMap_map]
  refine List.filterMap_congr fun x _ => ?_
  rcases x with ⟨_ | _ | ⟨k', b⟩ | _, nl⟩ <;> rfl

theorem readStrings_eq {k : StringKey} :
    readStrings k ls = (texts k ls).map fun x => readString x.2 x.1 := by
  rw [map_texts]
  exact List.filterMap_congr fun x _ => by
    rcases x with ⟨_ | _ | ⟨k', b⟩ | _, nl⟩ <;> rfl

theorem strings_same_iff {k : StringKey} (hvalid : ∀ a ∈ argsOf ls, a.Valid) :
    strings k (argsOf ls) = strings k (rebuiltArgs ls) ↔
      (k = .filter ∨ k = .packfileUris → (strings k (argsOf ls)).length ≤ 1) ∧
        ∀ t, .string k t ∈ argsOf ls → ∃ s : String, t = utf8 s := by
  have hplain : ∀ x ∈ texts k ls, 10 ∉ x.1 := fun x hx =>
    hvalid (.string k x.1) (mem_strings.mp (strings_argsOf ▸ List.mem_map_of_mem hx))
  have htexts : (∀ x ∈ texts k ls, x.1 = utf8 (readString x.2 x.1)) ↔
      ∀ t, .string k t ∈ argsOf ls → ∃ s : String, t = utf8 s := by
    constructor
    · intro h t ht
      rw [← mem_strings, strings_argsOf] at ht
      obtain ⟨x, hx, rfl⟩ := List.mem_map.mp ht
      exact ⟨_, h x hx⟩
    · intro h x hx
      exact ((utf8_readString (hplain x hx)).mpr
        (h x.1 (mem_strings.mp (strings_argsOf ▸ List.mem_map_of_mem hx)))).symm
  have hlist : (texts k ls).map Prod.fst =
      ((texts k ls).map fun x => readString x.2 x.1).map utf8 ↔
      ∀ t, .string k t ∈ argsOf ls → ∃ s : String, t = utf8 s := by
    rw [List.map_map, List.map_inj_left]
    exact htexts
  have hoption : (texts k ls).map Prod.fst =
      (((texts k ls).map fun x => readString x.2 x.1).getLast?.toList).map utf8 ↔
      (strings k (argsOf ls)).length ≤ 1 ∧
        ∀ t, .string k t ∈ argsOf ls → ∃ s : String, t = utf8 s := by
    rw [List.getLast?_map, Option.toList_map, List.map_map, map_eq_last_iff, strings_argsOf,
      List.length_map]
    exact and_congr_right fun _ => htexts
  rw [strings_rebuilt]
  rw [← readStrings_eq, ← strings_argsOf] at hlist hoption
  cases k
  · rw [rebuiltStrings, hoption]
    simp
  · rw [rebuiltStrings, hlist]
    simp
  · rw [rebuiltStrings, hlist]
    simp
  · rw [rebuiltStrings, hoption]
    simp

theorem numbers_same_iff {k : NumberKey} :
    numbers k (argsOf ls) = numbers k (rebuiltArgs ls) ↔
      (numbers k (argsOf ls)).length ≤ 1 ∧ ∀ n, .number k n ∈ argsOf ls →
        match k with
        | .deepen => n < 2 ^ 32
        | .deepenSince => n < 2 ^ 63 := by
  rw [numbers_rebuilt, eq_last_filter_iff]
  refine and_congr_right fun _ => ?_
  cases k <;> simp [mem_numbers]

theorem sameArgs_iff (hvalid : ∀ a ∈ argsOf ls, a.Valid) :
    SameArgs (argsOf ls) (rebuiltArgs ls) ↔
      .flag .deepenRelative ∉ argsOf ls ∧
      (∀ k : StringKey, k = .filter ∨ k = .packfileUris →
        (strings k (argsOf ls)).length ≤ 1) ∧
      (∀ k t, .string k t ∈ argsOf ls → ∃ s : String, t = utf8 s) ∧
      (∀ k, (numbers k (argsOf ls)).length ≤ 1) ∧
      (∀ n, .number .deepen n ∈ argsOf ls → n < 2 ^ 32) ∧
      ∀ n, .number .deepenSince n ∈ argsOf ls → n < 2 ^ 63 := by
  constructor
  · intro h
    refine ⟨fun hmem => ?_, fun k hk => ?_, fun k => ?_, fun k => ?_, ?_, ?_⟩
    · exact ((flag_rebuilt _).mp ((h.flags _).mp hmem)).2 rfl
    · exact ((strings_same_iff hvalid).mp (h.strings k)).1 hk
    · exact ((strings_same_iff hvalid).mp (h.strings k)).2
    · exact (numbers_same_iff.mp (h.numbers k)).1
    · exact (numbers_same_iff.mp (h.numbers .deepen)).2
    · exact (numbers_same_iff.mp (h.numbers .deepenSince)).2
  · rintro ⟨habsolute, honce, htext, hsingle, hdeepen, hsince⟩
    refine ⟨fun k => ?_, fun k => (oids_rebuilt k).symm, fun k => ?_, fun k => ?_⟩
    · rw [flag_rebuilt]
      refine ⟨fun hmem => ⟨hmem, ?_⟩, And.left⟩
      rintro rfl
      exact habsolute hmem
    · exact (strings_same_iff hvalid).mpr ⟨honce k, htext k⟩
    · refine numbers_same_iff.mpr ⟨hsingle k, ?_⟩
      cases k
      · exact hdeepen
      · exact hsince

end Same

section Lines

variable {ls : List (FetchArg × Bool)} {args : List FetchArg} {a b : FetchArg} {nl : Bool}
  {hex s t : String}

theorem utf8_injective (h : utf8 s = utf8 t) : s = t := by
  have hlossy := congrArg Utf8.lossy h
  rw [utf8, utf8, Utf8.lossy_encode, Utf8.lossy_encode] at hlossy
  exact String.toList_injective hlossy

theorem key_of_word {k k' : ArgKey} (h : ascii k.word = ascii k'.word) : k = k' := by
  have hnodup : (ArgKey.all.map fun k => ascii k.word).Nodup := by decide
  exact List.inj_on_of_nodup_map hnodup (mem_all k) (mem_all k') h

theorem render_injective (h : a.render = b.render) : a = b := by
  have hparts : ∀ a : FetchArg, splitSpace a.render = (ascii a.word, a.value) := by
    intro a
    have hspace : 32 ∉ ascii a.word := (plain_words _ (mem_all a.key)).2.1
    rcases hvalue : a.value with _ | v
    · rw [FetchArg.render, hvalue, Option.elim_none, List.append_nil, splitSpace_all hspace]
    · have hsplit := @splitSpace_append (ascii a.word) v hspace
      rw [List.append_assoc, List.singleton_append] at hsplit
      rw [FetchArg.render, hvalue, Option.elim_some, hsplit]
  have heq := (hparts a).symm.trans ((congrArg splitSpace h).trans (hparts b))
  rw [Prod.mk.injEq] at heq
  have hkey : a.key = b.key := key_of_word heq.1
  have hvalue : a.value = b.value := heq.2
  cases a with
  | flag k =>
    cases b with
    | flag k' =>
      cases hkey
      rfl
    | oid | string | number => cases hkey
  | oid k hex =>
    cases b with
    | oid k' hex' =>
      cases hkey
      rw [utf8_injective (Option.some.inj hvalue)]
    | flag | string | number => cases hkey
  | string k t =>
    cases b with
    | string k' t' =>
      cases hkey
      rw [Option.some.inj hvalue]
    | flag | oid | number => cases hkey
  | number k n =>
    cases b with
    | number k' n' =>
      cases hkey
      rw [Decimal.nat_text_inj (congrArg String.toList (utf8_injective (Option.some.inj hvalue)))]
    | flag | oid | string => cases hkey

theorem not_mem_render (h : a.Valid) : 10 ∉ a.render := by
  have hword : 10 ∉ ascii a.word := (plain_words _ (mem_all a.key)).2.2
  have hvalue : ∀ v ∈ a.value, 10 ∉ v := by
    cases a with
    | flag k => exact nofun
    | oid k hex =>
      rintro _ ⟨⟩
      exact (fromHex_plain h).1
    | string k b =>
      rintro _ ⟨⟩
      exact h
    | number k n =>
      rintro _ ⟨⟩
      exact not_mem_number
  rw [FetchArg.render, List.mem_append, not_or]
  refine ⟨hword, ?_⟩
  rcases hv : a.value with _ | v
  · exact List.not_mem_nil
  · rw [Option.elim_some, List.mem_cons, not_or]
    exact ⟨by decide, hvalue v hv⟩

theorem argsOf_eq_of_packets (hvalid : ∀ a ∈ argsOf ls, a.Valid)
    (h : argPackets ls = args.map fun a => .data (a.render ++ [10])) : argsOf ls = args := by
  induction ls generalizing args with
  | nil =>
    rw [eq_comm, argPackets, List.map_nil, List.map_eq_nil_iff] at h
    exact h.symm
  | cons x ls ih =>
    cases args with
    | nil => cases h
    | cons b args =>
      obtain ⟨a, nl⟩ := x
      rw [argsOf, List.map_cons, List.forall_mem_cons] at hvalid
      rw [argPackets, List.map_cons, List.map_cons, List.cons.injEq, PktLine.data.injEq] at h
      have hab : a = b := by
        cases nl
        · have hline : a.render = b.render ++ [10] := h.1
          exact absurd (hline ▸ List.mem_append_right _ List.mem_cons_self)
            (not_mem_render hvalid.1)
        · exact render_injective (List.append_cancel_right h.1)
      rw [argsOf, List.map_cons, hab]
      exact congrArg _ (ih hvalid.2 h.2)

theorem length_utf8_hex (h : (fromHex hex).isSome) :
    (fromHex (lowerHex hex)).isSome ∧ (utf8 (lowerHex hex)).length ≤ 64 := by
  rw [fromHex] at h
  split_ifs at h with hdigits
  · have hlow : ∀ n < 103, isHexDigit (Char.ofNat n) = true →
        isHexDigit (Char.ofNat n).toLower = true := by
      decide
    have hall : ∀ c ∈ (lowerHex hex).toList, isHexDigit c = true := by
      intro c hc
      rw [lowerHex, String.toList_ofList] at hc
      obtain ⟨d, hd, rfl⟩ := List.mem_map.mp hc
      have hdigit := List.all_eq_true.mp hdigits.2 d hd
      have hchar := hlow d.toNat (Nat.lt_succ_of_le (isHexDigit_range hdigit).2)
      rw [Char.ofNat_toNat] at hchar
      exact hchar hdigit
    have hlen : (lowerHex hex).toList.length = hex.toList.length := by
      rw [lowerHex, String.toList_ofList, List.length_map]
    have hbytes := congrArg List.length (Utf8.latin1_encode_ascii fun c hc =>
      Nat.lt_of_le_of_lt (isHexDigit_range (hall c hc)).2 (by decide))
    rw [Utf8.latin1, List.length_map] at hbytes
    constructor
    · rw [fromHex, hlen, if_pos ⟨hdigits.1, List.all_eq_true.mpr hall⟩]
      rfl
    · rw [utf8, hbytes, hlen]
      omega
  · cases h

theorem length_utf8_nat {n : ℕ} (h : n < 2 ^ 63) : (utf8 (toString n)).length ≤ 19 := by
  have hbytes := congrArg List.length (Utf8.latin1_encode_ascii
    (fun c (hc : c ∈ (toString n).toList) => by
      have hdigit : c.isDigit = true := Decimal.isDigit_of_nat hc
      simp only [Char.isDigit, Bool.and_eq_true, decide_eq_true_eq, ge_iff_le,
        UInt32.le_iff_toNat_le] at hdigit
      exact Nat.lt_of_le_of_lt hdigit.2 (by decide)))
  rw [Utf8.latin1, List.length_map] at hbytes
  have hdigits : (toString n).toList = Nat.toDigits 10 n := by simp
  rw [utf8, hbytes, hdigits, Nat.length_toDigits_le_iff (by decide) (by decide)]
  exact h.trans (by decide)

end Lines

section Texts

variable {b b' : Bytes} {ps : List PktLine} {p : PktLine} {ls : List (FetchArg × Bool)}
  {k : StringKey} {nl : Bool}

def IsText (b : Bytes) : Prop := ∃ cs, Utf8.encode cs = b

theorem isText_utf8 (s : String) : IsText (utf8 s) := ⟨s.toList, rfl⟩

theorem isText_ascii (h : ∀ x ∈ b, x.toNat < 128) : IsText b := ⟨_, Utf8.encode_latin1 h⟩

theorem IsText.append (h : IsText b) (h' : IsText b') : IsText (b ++ b') := by
  obtain ⟨cs, rfl⟩ := h
  obtain ⟨cs', rfl⟩ := h'
  exact ⟨cs ++ cs', Utf8.encode_append⟩

theorem IsText.flatMap {α : Type} {l : List α} {f : α → Bytes} (h : ∀ x ∈ l, IsText (f x)) :
    IsText (l.flatMap f) := by
  induction l with
  | nil => exact ⟨[], rfl⟩
  | cons x l ih =>
    rw [List.forall_mem_cons] at h
    rw [List.flatMap_cons]
    exact h.1.append (ih h.2)

theorem four_ascii (n : ℕ) : ∀ x ∈ Hex.four n, x.toNat < 128 := by
  have hdigit : ∀ d, (Hex.digit (d % 16)).toNat < 128 := by
    intro d
    have hd := Nat.mod_lt d (by decide : 16 > 0)
    rw [Hex.toNat_digit hd]
    split_ifs <;> omega
  rw [Hex.four]
  simp only [List.forall_mem_cons]
  exact ⟨hdigit _, hdigit _, hdigit _, hdigit _, List.forall_mem_nil _⟩

theorem HeaderOf.ascii {hdr : Bytes} (h : HeaderOf p hdr) : ∀ x ∈ hdr, x.toNat < 128 := by
  intro x hx
  have hlower := four_ascii p.code _ (h.digits ▸ List.mem_map_of_mem hx)
  rw [Hex.lower] at hlower
  split_ifs at hlower with hupper
  · omega
  · exact hlower

theorem isText_of_framed {s : Bytes} (h : Framed ps s) (hs : IsText s) :
    ∀ p ∈ ps, IsText p.payload := by
  induction h with
  | nil => exact List.forall_mem_nil _
  | @cons p ps hdr s hhdr htail ih =>
    obtain ⟨cs, hcs⟩ := hs
    rw [← Utf8.encode_latin1 hhdr.ascii] at hcs
    obtain ⟨cs₁, hrest⟩ := Utf8.exists_of_append_encode hcs
    have hpayload : IsText p.payload := by
      cases htail with
      | nil => exact ⟨cs₁, by rw [hrest, List.append_nil]⟩
      | @cons q qs hdr' s' hhdr' _ =>
        have hlen := hhdr'.length_eq
        have hascii := hhdr'.ascii
        cases hdr' with
        | nil => cases hlen
        | cons x hdr' => exact Utf8.exists_of_encode_cons (hascii x List.mem_cons_self) hrest
    have hs' : IsText s := by
      obtain ⟨cs₂, hcs₂⟩ := hpayload
      rw [← hcs₂] at hrest
      exact Utf8.exists_of_append_encode hrest
    exact List.forall_mem_cons.mpr ⟨hpayload, ih hs'⟩

theorem isText_encodeData (h : IsText b) : IsText (encodeData b) := by
  rw [encodeData_eq]
  exact (isText_ascii (four_ascii _)).append h

theorem isText_ascii_word (k : ArgKey) : IsText (ascii k.word) := by
  rw [(plain_words k (mem_all k)).1]
  exact isText_utf8 _

theorem isText_render {a : FetchArg} (h : ∀ v ∈ a.value, IsText v) : IsText a.render := by
  have hspace : IsText [32] := isText_ascii (List.forall_mem_singleton.mpr (by decide))
  rw [FetchArg.render]
  refine (isText_ascii_word a.key).append ?_
  rcases hv : a.value with _ | v
  · exact ⟨[], rfl⟩
  · exact hspace.append (h v hv)

/-- What is handed on is a text, whatever the request was. -/
theorem isText_build : IsText (buildV2FetchRequest (requested ls)) := by
  have hend : IsText [10] := isText_ascii (List.forall_mem_singleton.mpr (by decide))
  have hascii : ∀ {b : Bytes}, (∀ x ∈ b, x.toNat < 128) → IsText b := fun h => isText_ascii h
  have hlines : IsText (linesOf (rebuiltArgs ls)) := by
    refine IsText.flatMap fun a ha => isText_encodeData (IsText.append (isText_render ?_) hend)
    intro v hv
    cases a with
    | flag k => cases hv
    | oid k hex =>
      cases hv
      exact isText_utf8 _
    | string k t =>
      cases hv
      rw [← mem_strings, strings_rebuilt] at ha
      obtain ⟨s, -, rfl⟩ := List.mem_map.mp ha
      exact isText_utf8 s
    | number k n =>
      cases hv
      exact isText_utf8 _
  rw [buildV2FetchRequest_eq]
  refine IsText.append (IsText.append (IsText.append (isText_encodeData ?_) ?_) hlines) ?_
  · exact hascii (List.forall_iff_forall_mem.mp (by decide))
  · exact hascii (List.forall_iff_forall_mem.mp (by decide))
  · exact hascii (List.forall_iff_forall_mem.mp (by decide))

theorem exists_utf8_of_line {t : Bytes} (h : IsText (line nl (FetchArg.string k t).render)) :
    ∃ s : String, t = utf8 s := by
  have hrender : IsText (FetchArg.string k t).render := by
    cases nl
    · exact h
    · obtain ⟨cs, hcs⟩ := h
      exact Utf8.exists_of_encode_cons (by decide) hcs
  obtain ⟨cs, hcs⟩ := hrender
  obtain ⟨ds, hds⟩ := (isText_ascii_word (.string k)).append
    (isText_ascii (List.forall_mem_singleton.mpr (by decide : (32 : UInt8).toNat < 128)))
  have hsplit : (FetchArg.string k t).render = ascii (ArgKey.string k).word ++ [32] ++ t := by
    rw [List.append_assoc]
    rfl
  rw [hsplit, ← hds] at hcs
  obtain ⟨cs', rfl⟩ := Utf8.exists_of_append_encode hcs
  exact ⟨String.ofList cs', by rw [utf8, String.toList_ofList]⟩

end Texts

section Claim

open FetchArg (oids strings numbers)

variable {ls : List (FetchArg × Bool)} {a : FetchArg}

/-- The packets of the request that is handed on. -/
def rebuiltPackets (ls : List (FetchArg × Bool)) : List PktLine :=
  [.data (ascii "command=fetch\n"), .delim] ++
    (rebuiltArgs ls).map (fun a => .data (a.render ++ [10])) ++ [.flush]

theorem argPackets_lines (args : List FetchArg) :
    argPackets (args.map (·, true)) = args.map fun a => .data (a.render ++ [10]) :=
  List.map_map

theorem length_render_key : (ascii a.word).length ≤ 15 := by
  have hshort : ∀ k ∈ ArgKey.all, (ascii k.word).length ≤ 15 :=
    List.forall_iff_forall_mem.mp (by decide)
  exact hshort _ (mem_all a.key)

theorem mem_of_rebuilt_string {k : StringKey} {t : Bytes} (hvalid : ∀ a ∈ argsOf ls, a.Valid)
    (htext : ∀ k t, .string k t ∈ argsOf ls → ∃ s : String, t = utf8 s)
    (h : .string k t ∈ rebuiltArgs ls) : .string k t ∈ argsOf ls := by
  rw [← mem_strings, strings_rebuilt] at h
  obtain ⟨s, hs, rfl⟩ := List.mem_map.mp h
  have hread : s ∈ readStrings k ls := by
    cases k
    · exact List.mem_of_getLast? (Option.mem_toList.mp hs)
    · exact hs
    · exact hs
    · exact List.mem_of_getLast? (Option.mem_toList.mp hs)
  rw [readStrings_eq] at hread
  obtain ⟨x, hx, rfl⟩ := List.mem_map.mp hread
  have hmem : .string k x.1 ∈ argsOf ls :=
    mem_strings.mp (strings_argsOf ▸ List.mem_map_of_mem hx)
  rwa [(utf8_readString (hvalid _ hmem)).mpr (htext k x.1 hmem)]

theorem lt_of_rebuilt_number {k : NumberKey} {n : ℕ} (h : .number k n ∈ rebuiltArgs ls) :
    n < 2 ^ 63 := by
  rw [← mem_numbers, numbers_rebuilt, Option.mem_toList, Option.filter_eq_some_iff] at h
  cases k
  · exact (of_decide_eq_true h.2 : n < 2 ^ 32).trans (by decide)
  · exact of_decide_eq_true h.2

theorem valid_rebuilt (hvalid : ∀ a ∈ argsOf ls, a.Valid)
    (htext : ∀ k t, .string k t ∈ argsOf ls → ∃ s : String, t = utf8 s) :
    ∀ a ∈ rebuiltArgs ls, a.Valid ∧
      (a.render.length ≤ 80 ∨ ∃ k t, a = .string k t ∧ a ∈ argsOf ls) := by
  have hshort : ∀ {a : FetchArg} {v : Bytes}, a.value = some v → v.length ≤ 64 →
      a.render.length ≤ 80 := by
    intro a v hv hlen
    have hword := @length_render_key a
    rw [FetchArg.render, hv, Option.elim_some, List.length_append, List.length_cons]
    omega
  intro a ha
  cases a with
  | flag k =>
    have hword := @length_render_key (.flag k)
    refine ⟨trivial, .inl ?_⟩
    rw [FetchArg.render, FetchArg.value, Option.elim_none, List.append_nil]
    omega
  | oid k hex =>
    obtain ⟨hex₀, hmem, rfl⟩ := mem_oids.mp (mem_rebuilt_oid ha)
    obtain ⟨hsome, hlen⟩ := length_utf8_hex (hvalid _ hmem)
    exact ⟨hsome, .inl (hshort rfl hlen)⟩
  | string k t =>
    have hmem := mem_of_rebuilt_string hvalid htext ha
    exact ⟨hvalid _ hmem, .inr ⟨k, t, rfl, hmem⟩⟩
  | number k n =>
    have hlen := length_utf8_nat (lt_of_rebuilt_number ha)
    exact ⟨trivial, .inl (hshort rfl (hlen.trans (by decide)))⟩

theorem framed_rebuilt (hshort : ∀ a ∈ rebuiltArgs ls, a.render.length ≤ maxPktData) :
    Framed (rebuiltPackets ls) (buildV2FetchRequest (requested ls)) := by
  have hlines : ∀ p ∈ (rebuiltArgs ls).map fun a => PktLine.data (a.render ++ [10]),
      p.code < 16 ^ 4 := by
    intro p hp
    obtain ⟨a, ha, rfl⟩ := List.mem_map.mp hp
    have hlen := hshort a ha
    rw [maxPktData] at hlen
    rw [PktLine.code, List.length_append, List.length_singleton]
    omega
  have hcode : ∀ p ∈ rebuiltPackets ls, p.code < 16 ^ 4 :=
    List.forall_mem_append.mpr ⟨List.forall_mem_append.mpr
      ⟨List.forall_iff_forall_mem.mp (by decide), hlines⟩,
      List.forall_mem_singleton.mpr (by decide)⟩
  have hframed := framed_encode hcode
  have hbytes : ((rebuiltArgs ls).map fun a => PktLine.data (a.render ++ [10])).flatMap
      PktLine.encode = linesOf (rebuiltArgs ls) := by
    rw [List.flatMap_map, linesOf]
    refine List.flatMap_congr fun a _ => ?_
    rw [encodeData_eq]
    rfl
  rw [buildV2FetchRequest_eq]
  convert hframed using 1
  rw [rebuiltPackets, List.flatMap_append, List.flatMap_append, hbytes]
  rfl

theorem rebuilt_of_requests (hvalid : ∀ a ∈ argsOf ls, a.Valid)
    (hfits : ∀ p ∈ argPackets ls, p.Fits) {args : List FetchArg}
    (h : Requests args (buildV2FetchRequest (requested ls)))
    (hsame : SameArgs (argsOf ls) args) :
    args = rebuiltArgs ls ∧ ∀ a ∈ rebuiltArgs ls, a.render.length < maxPktData := by
  obtain ⟨ls', rfl, hframed, hfits'⟩ := h.framed
  have htext : ∀ k t, .string k t ∈ argsOf ls → ∃ s : String, t = utf8 s := by
    intro k t ht
    rw [← mem_strings, hsame.strings, mem_strings] at ht
    obtain ⟨⟨_, nl⟩, hmem, rfl⟩ := List.mem_map.mp ht
    have hpacket : PktLine.data (line nl (FetchArg.string k t).render) ∈ argPackets ls' :=
      List.mem_map.mpr ⟨_, hmem, rfl⟩
    have hpayload := isText_of_framed hframed isText_build _
      (List.mem_append_left _ (List.mem_append_right _ hpacket))
    exact exists_utf8_of_line hpayload
  have hlen : ∀ a ∈ rebuiltArgs ls, a.render.length ≤ maxPktData := by
    intro a ha
    rcases (valid_rebuilt hvalid htext a ha).2 with hshort | ⟨k, t, -, hmem⟩
    · exact hshort.trans (by decide)
    · obtain ⟨x, hx, rfl⟩ := List.mem_map.mp hmem
      have hfit := hfits _ (List.mem_map.mpr ⟨x, hx, rfl⟩)
      refine Nat.le_trans ?_ hfit
      rw [PktLine.payload, line]
      split_ifs
      · rw [List.length_append]
        exact Nat.le_add_right _ _
      · exact Nat.le_refl _
  have hpackets := List.append_cancel_left (List.append_cancel_right
    (hframed.unique (framed_rebuilt hlen)))
  refine ⟨argsOf_eq_of_packets h.valid hpackets, fun a ha => ?_⟩
  have hfit := hfits' _ (hpackets ▸ List.mem_map.mpr ⟨a, ha, rfl⟩)
  rw [PktLine.Fits, PktLine.payload, List.length_append] at hfit
  exact hfit

/-- A fetch reaches git with the same arguments if and only if it has no relative depth, one
value of each option, numbers of the record's width, and texts in UTF-8 whose lines fit. -/
theorem fetch_rebuilt_iff (ls : List (FetchArg × Bool)) (r : Pieces UInt8) (t : Bytes)
    (hvalid : ∀ a ∈ argsOf ls, a.Valid) (hfits : ∀ p ∈ argPackets ls, p.Fits)
    (hall : r.all = (argPackets ls ++ [PktLine.flush]).flatMap PktLine.encode ++ t) :
    (∃ req r' args, parseFetchRequest r = .ok (req, r') ∧
      Requests args (buildV2FetchRequest req) ∧ SameArgs (argsOf ls) args) ↔
      Rebuildable (argsOf ls) := by
  obtain ⟨r', hparse, -⟩ := parseFetchRequest_eq hvalid (fun p hp => (hfits p hp).code_lt) hall
  constructor
  · rintro ⟨req, r'', args, hreq, hrequests, hsame⟩
    rw [hparse] at hreq
    cases hreq
    obtain ⟨rfl, hshort⟩ := rebuilt_of_requests hvalid hfits hrequests hsame
    obtain ⟨habsolute, honce, htext, hsingle, hdeepen, hsince⟩ := (sameArgs_iff hvalid).mp hsame
    refine ⟨habsolute, honce _ (.inl rfl), honce _ (.inr rfl), hsingle, hdeepen, hsince,
      fun k t ht => ⟨htext k t ht, hshort _ ?_⟩⟩
    rw [← mem_strings, ← hsame.strings, mem_strings]
    exact ht
  · intro h
    have htext : ∀ k t, .string k t ∈ argsOf ls → ∃ s : String, t = utf8 s := fun k t ht =>
      (h.text k t ht).1
    have hsame : SameArgs (argsOf ls) (rebuiltArgs ls) := by
      refine (sameArgs_iff hvalid).mpr ⟨h.absolute, ?_, htext, h.single, h.deepen, h.deepenSince⟩
      rintro k (rfl | rfl)
      · exact h.filter
      · exact h.packfileUris
    have hshort : ∀ a ∈ rebuiltArgs ls, a.render.length < maxPktData := by
      intro a ha
      rcases (valid_rebuilt hvalid htext a ha).2 with hshort | ⟨k, t, rfl, hmem⟩
      · exact Nat.lt_of_le_of_lt hshort (by decide)
      · exact (h.text k t hmem).2
    refine ⟨requested ls, r', rebuiltArgs ls, hparse, ⟨fun a ha => ?_, ?_⟩, hsame⟩
    · exact (valid_rebuilt hvalid htext a ha).1
    · refine ⟨(rebuiltArgs ls).map (·, true), ?_, ?_, ?_⟩
      · exact (List.map_map).trans (List.map_id _)
      · rw [argPackets_lines]
        exact framed_rebuilt fun a ha => (hshort a ha).le
      · rw [argPackets_lines]
        intro p hp
        obtain ⟨a, ha, rfl⟩ := List.mem_map.mp hp
        rw [PktLine.Fits, PktLine.payload, List.length_append]
        exact hshort a ha

/-- A blobless fetch of one commit. -/
def onePick : List (FetchArg × Bool) :=
  [(.oid .wanted "aaaaaaaaaaaaaaaaaaaaaaaaaaaaaaaaaaaaaaaa", true), (.number .deepen 1, true),
    (.string .filter (ascii "blob:none"), true), (.flag .done, true)]

theorem fetch_rebuilt_iff_onePick :
    ∃ req r' args, parseFetchRequest
        (.one ((argPackets onePick ++ [PktLine.flush]).flatMap PktLine.encode)) = .ok (req, r') ∧
      Requests args (buildV2FetchRequest req) ∧ SameArgs (argsOf onePick) args := by
  have hvalid : ∀ a ∈ argsOf onePick, a.Valid := by
    refine List.forall_iff_forall_mem.mp ⟨?_, trivial, ?_, trivial⟩
    · change (fromHex "aaaaaaaaaaaaaaaaaaaaaaaaaaaaaaaaaaaaaaaa").isSome = true
      decide
    · change 10 ∉ ascii "blob:none"
      decide
  have hfits : ∀ p ∈ argPackets onePick, p.payload.length ≤ maxPktData :=
    List.forall_iff_forall_mem.mp (by decide)
  refine (fetch_rebuilt_iff onePick _ [] hvalid hfits
    ((Pieces.all_one _).trans (List.append_nil _).symm)).mpr ?_
  refine ⟨by decide, by decide, by decide, fun k => ?_, fun n hn => ?_, fun n hn => ?_,
    fun k t ht => ?_⟩
  · cases k <;> decide
  · rw [← mem_numbers] at hn
    cases List.mem_singleton.mp hn
    decide
  · rw [← mem_numbers] at hn
    cases hn
  · rw [← mem_strings] at ht
    cases k
    · cases List.mem_singleton.mp ht
      exact ⟨⟨"blob:none", by decide⟩, by decide⟩
    · cases ht
    · cases ht
    · cases ht

/-- A fetch that deepens the history by one commit becomes one of depth one. -/
theorem relative_depth_lost :
    ¬ ∃ req r' args, parseFetchRequest (.one ((argPackets [(.number .deepen 1, true),
        (.flag .deepenRelative, true), (.flag .done, true)] ++ [PktLine.flush]).flatMap
          PktLine.encode)) = .ok (req, r') ∧
      Requests args (buildV2FetchRequest req) ∧
      SameArgs [.number .deepen 1, .flag .deepenRelative, .flag .done] args := by
  rintro ⟨req, r', args, hreq, hrequests, hsame⟩
  have hvalid : ∀ a ∈ argsOf [(.number .deepen 1, true), (.flag .deepenRelative, true),
      (.flag .done, true)], a.Valid :=
    List.forall_iff_forall_mem.mp ⟨trivial, trivial, trivial⟩
  have hfits : ∀ p ∈ argPackets [(.number .deepen 1, true), (.flag .deepenRelative, true),
      (.flag .done, true)], p.payload.length ≤ maxPktData :=
    List.forall_iff_forall_mem.mp (by decide)
  obtain ⟨r'', hparse, -⟩ := parseFetchRequest_eq hvalid
    (fun p hp => PktLine.Fits.code_lt (hfits p hp))
    ((Pieces.all_one _).trans (List.append_nil _).symm)
  rw [hparse] at hreq
  cases hreq
  obtain ⟨rfl, -⟩ := rebuilt_of_requests hvalid hfits hrequests hsame
  have hflag := (hsame.flags .deepenRelative).mp (List.mem_cons_of_mem _ List.mem_cons_self)
  exact ((flag_rebuilt _).mp hflag).2 rfl

end Claim

end Walgit.Pkt
