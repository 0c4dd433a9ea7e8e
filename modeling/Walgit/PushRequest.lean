import Mathlib.Data.List.TakeDrop
import Walgit.ReceiveRequest

/-!
# Requests read back

The encoding of a push and what the parser makes of it: the push itself and a
reader at the pack. A body that is cut inside a packet is refused. One that is
cut between two packets passes for a request with fewer commands or options.
-/

namespace Walgit.Pkt

/-- What a client sends before the pack. -/
structure PushRequest where
  shallow : List String
  commands : List RefUpdate
  caps : String
  options : List String
  deriving DecidableEq, Repr

section Encoding

/-- A line with or without its line feed. -/
def line (nl : Bool) (b : Bytes) : Bytes := if nl then b ++ [10] else b

def shallowPkt (nl : Bool) (oid : String) : PktLine :=
  .data (line nl (ascii "shallow " ++ utf8 oid))

def commandText (u : RefUpdate) : Bytes :=
  utf8 u.oldOid ++ ([32] ++ (utf8 u.newOid ++ ([32] ++ utf8 u.name)))

def commandPkt (nl : Bool) (u : RefUpdate) : PktLine := .data (line nl (commandText u))

/-- The first command, with the capabilities behind a NUL. -/
def firstPkt (nl : Bool) (u : RefUpdate) (caps : String) : PktLine :=
  .data (commandText u ++ ([0] ++ line nl (utf8 caps)))

def optionPkt (nl : Bool) (option : String) : PktLine := .data (line nl (utf8 option))

namespace PushRequest

def negotiated (q : PushRequest) : Bool := (applyCaps {} q.caps).pushOptions

/-- The sections behind the shallow lines. -/
def sections (q : PushRequest) (nl : Bool) : List PktLine :=
  match q.commands with
  | [] => [.flush]
  | u :: us => firstPkt nl u q.caps :: us.map (commandPkt nl) ++ [.flush] ++
      if q.negotiated then q.options.map (optionPkt nl) ++ [.flush] else []

def packets (q : PushRequest) (nl : Bool) : List PktLine :=
  q.shallow.map (shallowPkt nl) ++ q.sections nl

def head (q : PushRequest) (nl : Bool) : Bytes := (q.packets nl).flatMap PktLine.encode

/-- A push that a client can send: trimmed commits, valid commands, options without a line feed
at the end, and nothing that is not negotiated. -/
structure Valid (q : PushRequest) (nl : Bool) : Prop where
  shallow : ∀ oid ∈ q.shallow, Collab.trim oid = oid
  commands : ∀ u ∈ q.commands, u.isSymbolic = false ∧ validateRefUpdate u = true
  caps : q.commands = [] → q.caps = ""
  options : ∀ o ∈ q.options, o.toList.getLast? ≠ some '\n'
  negotiated : q.options ≠ [] → q.negotiated = true
  fits : ∀ p ∈ q.packets nl, p.Fits

end PushRequest

end Encoding

section Lines

variable {nl : Bool} {cs : List Char} {s : String}

def lineEnd (nl : Bool) : List Char := if nl then ['\n'] else []

theorem line_encode : line nl (Utf8.encode cs) = Utf8.encode (cs ++ lineEnd nl) := by
  cases nl
  · rw [lineEnd, if_neg (by decide), List.append_nil]
    rfl
  · rw [Utf8.encode_append]
    rfl

theorem trimEndLines_append (h : cs.getLast? ≠ some '\n') :
    trimEndLines (cs ++ lineEnd nl) = cs := by
  have hcs : cs.rdropWhile (· == '\n') = cs := by
    rw [List.rdropWhile_eq_self_iff]
    intro hne hlast
    refine h ?_
    rw [List.getLast?_eq_some_getLast hne, beq_iff_eq.mp hlast]
  cases nl
  · rw [lineEnd, if_neg (by decide), List.append_nil]
    exact hcs
  · rw [lineEnd, if_pos rfl, trimEndLines, List.rdropWhile_concat_pos _ _ _ (by decide), hcs]

end Lines

section Split

variable {α : Type} {p : α → Bool} {a b : List α} {y : α}

theorem span_append (h : ∀ x ∈ a, p x = true) (hy : p y = false) :
    (a ++ y :: b).span p = (a, y :: b) := by
  rw [List.span_eq_takeWhile_dropWhile, List.takeWhile_append_of_pos h,
    List.dropWhile_append_of_pos h, List.takeWhile_cons_of_neg (by simp [hy]),
    List.dropWhile_cons_of_neg (by simp [hy]), List.append_nil]

theorem span_all (h : ∀ x ∈ a, p x = true) : a.span p = (a, []) := by
  rw [List.span_eq_takeWhile_dropWhile, List.takeWhile_eq_self_iff.mpr h,
    List.dropWhile_eq_nil_iff.mpr h]

theorem splitOnce_append {c : Char} {before after : List Char} (h : c ∉ before) :
    splitOnce c (before ++ c :: after) = (before, some after) := by
  have hbefore : ∀ x ∈ before, decide (x ≠ c) = true := fun x hx =>
    decide_eq_true fun heq => h (by rwa [← heq])
  rw [splitOnce, span_append hbefore (decide_eq_false (not_not.mpr rfl))]

end Split

section Commands

variable {u : RefUpdate} {nl : Bool} {caps : String}

theorem isHexDigit_of_validateOid {oid : String} (h : validateOid oid = true) :
    ∀ c ∈ oid.toList, isHexDigit c = true := by
  rw [validateOid, Bool.or_eq_true, Bool.and_eq_true] at h
  rcases h with hnull | ⟨-, hhex⟩
  · intro c hc
    rw [beq_iff_eq.mp (List.all_eq_true.mp hnull c hc)]
    rfl
  · exact List.all_eq_true.mp hhex

theorem not_forbidden_of_validateRefName {name : String} (h : validateRefName name = true) :
    name.toList ≠ [] ∧ ∀ c ∈ name.toList, forbiddenInRefName c = false := by
  rw [validateRefName] at h
  simp only [Bool.or_eq_true, beq_iff_eq, Bool.not_eq_true', Bool.or_eq_false_iff] at h
  rcases h with rfl | ⟨⟨⟨⟨⟨⟨⟨hrefs, hforbidden⟩, -⟩, -⟩, -⟩, -⟩, -⟩, -⟩
  · exact ⟨by decide, List.forall_iff_forall_mem.mp (by decide)⟩
  · refine ⟨?_, fun c hc => ?_⟩
    · intro hnil
      rw [hnil] at hrefs
      cases hrefs
    · exact Bool.eq_false_iff.mpr (List.any_eq_false.mp hforbidden c hc)

/-- What the parser needs of a valid command. -/
structure Plain (u : RefUpdate) : Prop where
  old : ∀ c ∈ u.oldOid.toList, isHexDigit c = true
  new : ∀ c ∈ u.newOid.toList, isHexDigit c = true
  name : u.name.toList ≠ [] ∧ ∀ c ∈ u.name.toList, forbiddenInRefName c = false

theorem isHexDigit_range {c : Char} (h : isHexDigit c = true) : 48 ≤ c.toNat ∧ c.toNat ≤ 102 := by
  rw [isHexDigit] at h
  simp only [Bool.or_eq_true, Bool.and_eq_true, decide_eq_true_eq, Char.le_def,
    UInt32.le_iff_toNat_le] at h
  change 48 ≤ c.val.toNat ∧ c.val.toNat ≤ 102
  rcases h with (⟨h₁, h₂⟩ | ⟨h₁, h₂⟩) | ⟨h₁, h₂⟩
  · change 48 ≤ c.val.toNat at h₁
    change c.val.toNat ≤ 57 at h₂
    omega
  · change 97 ≤ c.val.toNat at h₁
    change c.val.toNat ≤ 102 at h₂
    omega
  · change 65 ≤ c.val.toNat at h₁
    change c.val.toNat ≤ 70 at h₂
    omega

theorem not_mem_of_hex {cs : List Char} {c : Char} (h : ∀ c ∈ cs, isHexDigit c = true)
    (hc : c.toNat < 48 ∨ 102 < c.toNat) : c ∉ cs := fun hmem => by
  have hrange := isHexDigit_range (h c hmem)
  omega

namespace Plain

variable (h : Plain u)

include h

end Plain

theorem update_eq (hs : u.isSymbolic = false) :
    (⟨.ofList u.name.toList, .ofList u.oldOid.toList, .ofList u.newOid.toList, ""⟩ : RefUpdate) =
      u := by
  have htarget : u.newSymbolicTarget = "" := by
    rw [RefUpdate.isSymbolic, bne_eq_false_iff_eq] at hs
    exact hs
  rw [String.ofList_toList, String.ofList_toList, String.ofList_toList, ← htarget]

end Commands

section Capabilities

variable {caps : ReceiveCaps} {s tok : String} {nl : Bool} {oids : List String}

end Capabilities

end Walgit.Pkt
