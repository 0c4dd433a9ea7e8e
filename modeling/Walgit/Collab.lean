import Walgit.Ci

/-!
# Reviews, reports and boards

What the collab surfaces compute from a set of entries: the view of a pull
request and its merge rule, the report, and the board. Each is a fold over the
threads, an entry counting where its thread puts it.
-/

namespace Walgit.Collab

open Ci Grouping

section Reviews

structure Review where
  actor : String
  decision : String
  ts : ℤ
  oid : String
  deriving DecidableEq, Repr

structure PrView where
  id : String
  base : Option String
  head : Option String
  status : String
  reviews : List Review
  humanApprovals : List Review
  unverified : List String
  deriving DecidableEq, Repr

def strField (r : EntryRef) (key : String) : Option String :=
  (r.entry.body.get key).bind Json.asStr

def mergedField (r : EntryRef) : Bool :=
  ((r.entry.body.get "merged").bind Json.asBool).getD false

/-- A patch entry names the base and the head; one that is left out stays. -/
def PrView.takePatch (pr : PrView) (r : EntryRef) : PrView :=
  match r.entry.refs with
  | some rs =>
    if r.entry.kind = "patch" then
      { pr with base := rs.base.or pr.base, head := rs.head.or pr.head }
    else pr
  | none => pr

def prStatus (status : String) (r : EntryRef) : String :=
  if r.entry.kind = "status" then
    match strField r "status" with
    | some st => if st = "merged" ∨ st = "closed" then st else status
    | none => status
  else if r.entry.kind = "merge_result" ∧ mergedField r = true then "merged"
  else status

def reviewOf (r : EntryRef) : Review :=
  ⟨r.entry.actor, (strField r "decision").getD "comment", r.entry.ts, r.oid⟩

def PrView.take (principals : Principals) (pr : PrView) (r : EntryRef) : PrView :=
  let pr := pr.takePatch r
  let verified := r.isVerified principals
  let pr := if verified then pr else
    { pr with unverified := pr.unverified ++ [r.entry.actor ++ "@" ++ r.oid] }
  let pr := { pr with status := prStatus pr.status r }
  if r.entry.kind = "review" then
    let review := reviewOf r
    { pr with
      humanApprovals :=
        if review.decision = "approve" ∧ verified = true then pr.humanApprovals ++ [review]
        else pr.humanApprovals
      reviews := pr.reviews ++ [review] }
  else pr

def prView (principals : Principals) (entries : List EntryRef) : PrView :=
  let ordered := thread entries
  { ordered.foldl (PrView.take principals) ⟨"", none, none, "open", [], [], []⟩ with
    id := (ordered.head?.map fun r => r.entry.id).getD "" }

def isAgent (actor : String) : Bool := "svc-".toList.isPrefixOf actor.toList

structure MergeRules where
  protect : List String
  requireHumanApprovals : ℕ
  deriving DecidableEq, Repr

structure MergeEval where
  allowed : Bool
  reason : String
  satisfiedBy : List String
  deriving DecidableEq, Repr

def MergeRules.protects (rules : MergeRules) (base : Option String) : Bool :=
  base.any fun b => rules.protect.any fun p => p == b || p.toList.isPrefixOf b.toList

def countedApprovals (pr : PrView) : List Review :=
  pr.humanApprovals.filter fun r => r.decision == "approve" && !isAgent r.actor

def mergeRuleEval (rules : MergeRules) (pr : PrView) : MergeEval :=
  if rules.protects pr.base then
    let approvals := countedApprovals pr
    let satisfiedBy := approvals.map Review.actor
    if rules.requireHumanApprovals ≤ approvals.length then
      ⟨true, toString approvals.length ++ " human approval(s) on protected base", satisfiedBy⟩
    else
      ⟨false, "protected base needs " ++ toString rules.requireHumanApprovals ++
        " human approval(s), got " ++ toString approvals.length, satisfiedBy⟩
  else ⟨true, "base is not protected", []⟩

end Reviews

section Reports

structure ReportThread where
  id : String
  title : String
  entries : ℕ
  verified : ℕ
  lastTs : ℤ
  kinds : List String
  deriving DecidableEq, Repr

structure ReportPr where
  id : String
  title : String
  base : Option String
  head : Option String
  status : String
  approvals : ℕ
  mergeAllowed : Bool
  mergeReason : String
  deriving DecidableEq, Repr

structure ReportRun where
  id : String
  task : String
  repoRef : String
  commit : String
  state : String
  conclusion : Option String
  runner : Option String
  claims : ℕ
  lastTs : ℤ
  deriving DecidableEq, Repr

structure Report where
  threads : List ReportThread
  prs : List ReportPr
  runs : List ReportRun
  totalEntries : ℕ
  verifiedEntries : ℕ
  unverifiedEntries : ℕ
  missingPrincipals : ℕ
  byActor : List (String × ℕ)
  byKind : List (String × ℕ)
  deriving DecidableEq, Repr

def rootTitle (ordered : List EntryRef) : String :=
  (ordered.head?.bind fun r => strField r "title").getD ""

def lastTs (group : List EntryRef) : ℤ := (group.map fun r => r.entry.ts).max?.getD 0

def kindsOf (group : List EntryRef) : List String := sortedKeys (group.map fun r => r.entry.kind)

def byThread (entries : List EntryRef) : List (String × List EntryRef) :=
  groupBy (fun r : EntryRef => r.entry.id) entries

/-- A thread of claims and results only is a CI run. -/
def isRun (group : List EntryRef) : Bool := group.all isCi

def hasPatch (group : List EntryRef) : Bool := group.any fun r => r.entry.kind == "patch"

def reportThread (principals : Principals) (id : String) (group : List EntryRef) : ReportThread :=
  let ordered := thread group
  ⟨id, rootTitle ordered, group.length, (ordered.filter fun r => r.isVerified principals).length,
    lastTs group, kindsOf group⟩

def reportPr (principals : Principals) (rules : MergeRules) (id : String)
    (group : List EntryRef) : ReportPr :=
  let pr := prView principals group
  let eval := mergeRuleEval rules pr
  ⟨id, rootTitle (thread group), pr.base, pr.head, pr.status, pr.humanApprovals.length,
    eval.allowed, eval.reason⟩

/-- Newest activity first, then by id. -/
def threadBefore (a b : ReportThread) : Bool :=
  ((compare b.lastTs a.lastTs).then (compare a.id b.id)).isLE

def statusRank (status : String) : ℕ :=
  if status = "open" then 0 else if status = "merged" then 1 else 2

def prBefore (a b : ℤ × ReportPr) : Bool :=
  ((compare (statusRank a.2.status) (statusRank b.2.status)).then
    ((compare b.1 a.1).then (compare a.2.id b.2.id))).isLE

def counts (names : List String) : List (String × ℕ) :=
  (sortedKeys names).map fun k => (k, names.count k)

def reportRun (run : String × RunView) : ReportRun :=
  ⟨run.1, run.2.task, run.2.repoRef, run.2.commit, run.2.state.asStr,
    run.2.conclusion.map Conclusion.asStr, run.2.runner,
    (run.2.attempts.map fun a => a.claims.length).sum, run.2.lastTs⟩

def buildReport (principals : Principals) (rules : MergeRules) (entries : List EntryRef)
    (now : ℤ) : Report :=
  let groups := byThread entries
  let threads := (groups.filter fun g => !isRun g.2).map fun g => reportThread principals g.1 g.2
  let prs := (groups.filter fun g => hasPatch g.2).map fun g =>
    (lastTs g.2, reportPr principals rules g.1 g.2)
  let unverified := entries.filter fun r => !r.isVerified principals
  { threads := threads.insertionSort fun a b => threadBefore a b
    prs := (prs.insertionSort fun a b => prBefore a b).map Prod.snd
    runs := (collectRuns principals entries now).map reportRun
    totalEntries := entries.length
    verifiedEntries := (entries.filter fun r => r.isVerified principals).length
    unverifiedEntries := unverified.length
    missingPrincipals :=
      (unverified.filter fun r => (principals.get r.entry.actor).isNone).length
    byActor := counts (entries.map fun r => r.entry.actor)
    byKind := counts (entries.map fun r => r.entry.kind) }

end Reports

section Boards

structure BoardColumnDef where
  name : String
  kind : String
  status : String
  merge : String
  unverified : Bool
  deriving DecidableEq, Repr

inductive BoardSortBy
  | ts | id
  deriving DecidableEq, Repr

inductive BoardSortDirection
  | desc | asc
  deriving DecidableEq, Repr

structure BoardDef where
  sortBy : BoardSortBy
  direction : BoardSortDirection
  columns : List BoardColumnDef
  deriving DecidableEq, Repr

structure BoardMergeCard where
  allowed : Bool
  reason : String
  deriving DecidableEq, Repr

structure BoardCard where
  id : String
  title : String
  prose : String
  actor : String
  status : String
  owner : String
  worktree : String
  branch : String
  work : String
  createdTs : ℤ
  lastTs : ℤ
  entries : ℕ
  verified : ℕ
  unverified : ℕ
  kinds : List String
  lastOid : String
  merge : Option BoardMergeCard
  deriving DecidableEq, Repr

structure BoardColumn where
  name : String
  cards : List BoardCard
  deriving DecidableEq, Repr

/-- The last entry of the thread that says something decides. -/
def cardStatus (ordered : List EntryRef) : String :=
  ordered.foldl (fun status r =>
    if r.entry.kind = "status" then (strField r "status").getD status
    else if r.entry.kind = "merge_result" ∧ mergedField r = true then "merged"
    else status) "open"

structure BoardWorkContext where
  owner : String
  worktree : String
  branch : String
  work : String
  deriving DecidableEq, Repr

/-- A field that a status entry leaves out is inherited; the note stands in for the work. -/
def cardWorkContext (ordered : List EntryRef) : BoardWorkContext :=
  ordered.foldl (fun ctx r =>
    if r.entry.kind = "status" then
      ⟨(strField r "owner").getD ctx.owner, (strField r "worktree").getD ctx.worktree,
        (strField r "branch").getD ctx.branch,
        ((strField r "work").or (strField r "note")).getD ctx.work⟩
    else ctx) ⟨"", "", "", ""⟩

/-- Unicode white space. -/
def isWhite (c : Char) : Bool :=
  let n := c.toNat
  (9 ≤ n && n ≤ 13) || (8192 ≤ n && n ≤ 8202) ||
    n ∈ [32, 133, 160, 5760, 8232, 8233, 8239, 8287, 12288]

def trim (s : String) : String :=
  String.ofList ((s.toList.dropWhile isWhite).reverse.dropWhile isWhite).reverse

def entryProse (r : EntryRef) : String :=
  (["text", "body", "note", "message", "summary"].findSome? fun k =>
    ((strField r k).map trim).filter fun s => s != "").getD ""

def cardMatches (card : BoardCard) (col : BoardColumnDef) : Bool :=
  (col.kind == "" || card.kinds.contains col.kind) &&
    (col.status == "" || card.status == col.status) &&
    (col.merge == "" ||
      match card.merge with
      | some m => if col.merge = "allowed" then m.allowed else col.merge == "blocked" && !m.allowed
      | none => false) &&
    !(col.unverified && card.unverified == 0)

def boardCard (principals : Principals) (rules : MergeRules) (id : String)
    (group : List EntryRef) : BoardCard :=
  let ordered := thread group
  let root := ordered.head?
  let verified := (ordered.filter fun r => r.isVerified principals).length
  let work := cardWorkContext ordered
  let eval := mergeRuleEval rules (prView principals group)
  { id := id
    title := rootTitle ordered
    prose := (root.map entryProse).getD ""
    actor := (root.map fun r => r.entry.actor).getD ""
    status := cardStatus ordered
    owner := work.owner
    worktree := work.worktree
    branch := work.branch
    work := work.work
    createdTs := (root.map fun r => r.entry.ts).getD 0
    lastTs := lastTs group
    entries := group.length
    verified := verified
    unverified := group.length - verified
    kinds := kindsOf group
    lastOid := (ordered.getLast?.map EntryRef.oid).getD ""
    merge := if hasPatch group then some ⟨eval.allowed, eval.reason⟩ else none }

/-- The card goes to the first column that takes it, or to none. -/
def placeCard (card : BoardCard) :
    List (BoardColumnDef × List BoardCard) → List (BoardColumnDef × List BoardCard)
  | [] => []
  | (col, cards) :: rest =>
    if cardMatches card col then (col, cards ++ [card]) :: rest
    else (col, cards) :: placeCard card rest

def cardBefore (board : BoardDef) (a b : BoardCard) : Bool :=
  let field := match board.sortBy with
    | .ts => compare a.lastTs b.lastTs
    | .id => compare a.id b.id
  let field := match board.direction with
    | .asc => field
    | .desc => field.swap
  (field.then (compare a.id b.id)).isLE

def buildBoard (principals : Principals) (rules : MergeRules) (board : BoardDef)
    (entries : List EntryRef) : List BoardColumn :=
  let cards := ((byThread entries).filter fun g => !isRun g.2).map fun g =>
    boardCard principals rules g.1 g.2
  let placed := cards.foldl (fun columns card => placeCard card columns)
    (board.columns.map fun col => (col, []))
  placed.map fun c => ⟨c.1.name, c.2.insertionSort fun a b => cardBefore board a b⟩

end Boards

end Walgit.Collab
