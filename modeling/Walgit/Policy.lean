import Walgit.Proto

/-!
# The push policy

Per repository: groups of principals and rules. A protect rule restricts
operations on the refs and principals it matches, unless its bypass list admits
the principal. Only protect rules are enforced; the mode of a rule, its paths,
and the history and size effects are not read when a push is evaluated.
-/

namespace Walgit.Policy

structure Group where
  name : String
  members : List String
  deriving DecidableEq, Repr

inductive Restrict
  | create | update | delete | forcePush
  deriving DecidableEq, Repr

structure ProtectEffect where
  restricts : Option (List Restrict)
  bypass : List String
  deriving DecidableEq, Repr

structure Match where
  refs : List String
  principals : List String
  deriving DecidableEq, Repr

structure Rule where
  name : String
  scope : Match
  protect : Option ProtectEffect
  deriving DecidableEq, Repr

structure RepoPolicy where
  groups : List Group
  rules : List Rule
  deriving DecidableEq, Repr

def RepoPolicy.hasProtect (p : RepoPolicy) : Bool := p.rules.any fun r => r.protect.isSome

/-- No `restricts` key stands for all four operations. -/
def restrictSet (p : ProtectEffect) : List Restrict :=
  p.restricts.getD [.create, .update, .delete, .forcePush]

section Globs

def bytesOf (s : String) : List UInt8 := s.toList.flatMap String.utf8EncodeChar

/-- What a `*` leaves of the text: it stops at a slash. -/
def starRests : List UInt8 → List (List UInt8)
  | [] => [[]]
  | c :: cs => (c :: cs) :: if c = 47 then [] else starRests cs

/-- The bytes 42, 63 and 47 are `*`, `?` and `/`. -/
def globBytes : List UInt8 → List UInt8 → Bool
  | [], text => text.isEmpty
  | [42, 42], _ => true
  | [42, 42, 47], _ => true
  | 42 :: 42 :: 47 :: rest, text => text.tails.any fun t => globBytes rest t
  | 42 :: 42 :: rest, text => text.tails.any fun t => globBytes rest t
  | 42 :: rest, text => (starRests text).any fun t => globBytes rest t
  | _ :: _, [] => false
  | p :: rest, c :: text => (if p = 63 then c != 47 else c == p) && globBytes rest text

theorem globBytes_cons_nil {p : UInt8} {rest : List UInt8} (hp : p ≠ 42) :
    globBytes (p :: rest) [] = false := by
  rw [globBytes] <;> simp [hp]

def globMatch (pat text : String) : Bool :=
  if pat = "HEAD" then text == "HEAD" else globBytes (bytesOf pat) (bytesOf text)

end Globs

def stripPrefix? (pre s : String) : Option String :=
  if pre.toList.isPrefixOf s.toList then some (String.ofList (s.toList.drop pre.length)) else none

theorem stripPrefix?_eq_some {pre s t : String} : stripPrefix? pre s = some t ↔ s = pre ++ t := by
  rw [stripPrefix?]
  split_ifs with h
  · obtain ⟨u, hu⟩ := List.isPrefixOf_iff_prefix.mp h
    have hs : s = pre ++ String.ofList u := by
      rw [← String.toList_inj]
      simp [hu]
    rw [hs, String.toList_append, ← String.length_toList, List.drop_left]
    simp [← String.toList_inj]
  · simp only [false_iff]
    rintro rfl
    simp at h

/-- Inclusions are alternatives, no inclusion matches all, and an exclusion overrides. -/
def listMatches (included excluded : String → Bool) (patterns : List String) : Bool :=
  let exclusions := patterns.filterMap (stripPrefix? "^")
  let inclusions := patterns.filter fun p => (stripPrefix? "^" p).isNone
  (inclusions.isEmpty || inclusions.any included) && !exclusions.any excluded

def patternListMatches (patterns : List String) (text : String) : Bool :=
  listMatches (fun p => globMatch p text) (fun p => globMatch p text) patterns

section Actors

/-- The groups by name; of two with one name the later counts. -/
def findGroup (groups : List Group) (name : String) : Option Group :=
  groups.reverse.find? fun g => g.name == name

def eqIgnoreAsciiCase (a b : String) : Bool :=
  a.toList.map Char.toLower == b.toList.map Char.toLower

/-- `any` over the members, which share one set of visited groups. -/
def anyMember (test : String → List String → Bool × List String) :
    List String → List String → Bool × List String
  | [], seen => (false, seen)
  | m :: ms, seen =>
    match test m seen with
    | (true, seen) => (true, seen)
    | (false, seen) => anyMember test ms seen

/-- The first argument bounds the depth of nested groups. -/
def principalMatches (groups : List Group) (principal : String) :
    ℕ → String → List String → Bool × List String
  | 0, _, seen => (false, seen)
  | depth + 1, spec, seen =>
    match stripPrefix? "group:" spec with
    | some name =>
      if name ∈ seen then (false, seen)
      else
        match findGroup groups name with
        | none => (false, name :: seen)
        | some g => anyMember (principalMatches groups principal depth) g.members (name :: seen)
    | none =>
      if (stripPrefix? "@" spec).isSome then (false, seen)
      else (eqIgnoreAsciiCase spec principal, seen)

/-- Every nested group is in the file and visited once, so the depth is never used up. -/
def admits (groups : List Group) (principal spec : String) : Bool :=
  (principalMatches groups principal (groups.length + 1) spec []).1

/-- An exclusion also hits when it names a group that does not exist. -/
def excludes (groups : List Group) (principal spec : String) : Bool :=
  ((stripPrefix? "group:" spec).any fun name => (findGroup groups name).isNone) ||
    admits groups principal spec

def actorListMatches (patterns : List String) (principal : String) (groups : List Group) : Bool :=
  listMatches (admits groups principal) (excludes groups principal) patterns

end Actors

section Evaluation

inductive RefOp
  | noOp | create | delete | update
  deriving DecidableEq, Repr

def classify (old new : String) : RefOp :=
  match old.isEmpty, new.isEmpty with
  | true, true => .noOp
  | true, false => .create
  | false, true => .delete
  | false, false => if old = new then .noOp else .update

def ruleMatches (m : Match) (refName principal : String) (groups : List Group) : Bool :=
  (m.refs.isEmpty || patternListMatches m.refs refName) &&
    (m.principals.isEmpty || actorListMatches m.principals principal groups)

def bypasses (p : ProtectEffect) (principal : String) (groups : List Group) : Bool :=
  !p.bypass.isEmpty && actorListMatches p.bypass principal groups

def isTag (name : String) : Bool := (stripPrefix? "refs/tags/" name).isSome

def restrictHit (set : List Restrict) (op : RefOp) (force : Bool) : Bool :=
  match op with
  | .create => .create ∈ set
  | .delete => .delete ∈ set
  | .update => if force then .forcePush ∈ set ∨ .update ∈ set else .update ∈ set
  | .noOp => false

/-- The rule enforces something for this ref and principal, and what it restricts is done. -/
def Rule.rejects (r : Rule) (groups : List Group) (principal name : String) (op : RefOp)
    (force : Bool) : Bool :=
  match r.protect with
  | none => false
  | some protect =>
    ruleMatches r.scope name principal groups && !bypasses protect principal groups &&
      restrictHit (restrictSet protect) op force

def denyReason (policy : RepoPolicy) (principal : String) (isForce : RefUpdate → Bool)
    (u : RefUpdate) : Option String :=
  let op := classify u.oldOid u.newOid
  if op = .noOp then none
  else
    let force := isForce u || isTag u.name
    (policy.rules.find? fun r => r.rejects policy.groups principal u.name op force).map
      fun r => "rejected by rule '" ++ r.name ++ "'"

end Evaluation

end Walgit.Policy
