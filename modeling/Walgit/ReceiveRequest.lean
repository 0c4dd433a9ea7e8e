import Mathlib.Data.List.DropRight
import Walgit.Collab
import Walgit.PktLine
import Walgit.Policy

/-!
# The receive-pack request

Shallow lines, commands with the capabilities on the first of them, and push
options where these are negotiated, each section closed by a flush packet, and
the pack behind them. The parser reads a section until something other than
data comes, and takes the end of the body for such an end as well.
-/

namespace Walgit.Pkt

structure ReceiveCaps where
  reportStatus : Bool := false
  reportStatusV2 : Bool := false
  sideBand64k : Bool := false
  atomic : Bool := false
  quiet : Bool := false
  pushOptions : Bool := false
  ofsDelta : Bool := false
  agent : Option String := none
  objectFormat : Option String := none
  shallow : List String := []
  deriving DecidableEq, Repr

/-- The transaction of a request, with its push options. -/
structure PushTransaction extends RefTransaction where
  pushOptions : List String
  deriving DecidableEq, Repr

inductive RequestError
  | pkt (e : PktError)
  | unexpectedDelim
  | missingNew
  | missingName
  | invalid (u : RefUpdate)
  deriving DecidableEq, Repr

def RequestError.message : RequestError → Option String
  | .pkt e => some e.message
  | .unexpectedDelim => some "unexpected delim before commands"
  | .missingNew => some "missing new oid"
  | .missingName => some "missing ref name"
  | .invalid _ => none

/-- `String::from_utf8_lossy`. -/
def text (b : Bytes) : String := String.ofList (Utf8.lossy b)

def trimEndLines (cs : List Char) : List Char := cs.rdropWhile (· == '\n')

/-- What stands before the first such character, and after it. -/
def splitOnce (c : Char) (cs : List Char) : List Char × Option (List Char) :=
  match cs.span (· ≠ c) with
  | (before, []) => (before, none)
  | (before, _ :: after) => (before, some after)

def parseCommandLine (b : Bytes) : Except RequestError (RefUpdate × String) :=
  let (cmd, caps) := match b.span (· ≠ 0) with
    | (cmd, []) => (cmd, [])
    | (cmd, _ :: after) => (cmd, after)
  match splitOnce ' ' (trimEndLines (Utf8.lossy cmd)) with
  | (_, none) => .error .missingNew
  | (old, some rest) =>
    match splitOnce ' ' rest with
    | (_, none) => .error .missingName
    | (new, some name) =>
      let update : RefUpdate := ⟨.ofList name, .ofList old, .ofList new, ""⟩
      if validateRefUpdate update then .ok (update, text caps) else .error (.invalid update)

def capTokens (s : String) : List String :=
  (s.toList.splitOnP fun c => c == ' ' || c == '\n').map fun tok =>
    Collab.trim (String.ofList tok)

/-- The tokens with a value; others are ignored. -/
def applyValue (caps : ReceiveCaps) (tok : String) : ReceiveCaps :=
  match Policy.stripPrefix? "agent=" tok, Policy.stripPrefix? "object-format=" tok with
  | some agent, _ => { caps with agent := some agent }
  | none, some format => { caps with objectFormat := some format }
  | none, none => caps

def applyCap (caps : ReceiveCaps) (tok : String) : ReceiveCaps :=
  if tok = "" then caps
  else if tok = "report-status" then { caps with reportStatus := true }
  else if tok = "report-status-v2" then { caps with reportStatusV2 := true }
  else if tok = "side-band-64k" then { caps with sideBand64k := true }
  else if tok = "atomic" then { caps with atomic := true }
  else if tok = "quiet" then { caps with quiet := true }
  else if tok = "push-options" then { caps with pushOptions := true }
  else if tok = "ofs-delta" then { caps with ofsDelta := true }
  else applyValue caps tok

def applyCaps (caps : ReceiveCaps) (s : String) : ReceiveCaps :=
  (capTokens s).foldl applyCap caps

section Parse

/-- A loop over the packets of a source, with what its body makes of a packet and what the end
of the source means. -/
def readLoop {σ α : Type} (body : σ → PktLine → Except RequestError (σ ⊕ α)) (eof : σ → α)
    (s : σ) (r : Pieces UInt8) : Except RequestError (α × Pieces UInt8) :=
  match h : readPktLine r with
  | .error e => .error (.pkt e)
  | .ok (none, r') => .ok (eof s, r')
  | .ok (some p, r') =>
    match body s p with
    | .error e => .error e
    | .ok (.inl s') =>
      have : r'.all.length < r.all.length := readPktLine_lt h
      readLoop body eof s' r'
    | .ok (.inr a) => .ok (a, r')
termination_by r.all.length

def shallowLine? (b : Bytes) : Option String :=
  if (ascii "shallow ").isPrefixOf b then
    some (Collab.trim (text (b.drop (ascii "shallow ").length)))
  else none

def ReceiveCaps.addShallow (caps : ReceiveCaps) (oid : String) : ReceiveCaps :=
  { caps with shallow := caps.shallow ++ [oid] }

/-- Shallow lines, up to the first packet that is none. -/
def firstBody (caps : ReceiveCaps) (p : PktLine) :
    Except RequestError (ReceiveCaps ⊕ (ReceiveCaps × Option PktLine)) :=
  match p with
  | .data b =>
    match shallowLine? b with
    | some oid => .ok (.inl (caps.addShallow oid))
    | none => .ok (.inr (caps, some p))
  | _ => .ok (.inr (caps, some p))

def commandBody (st : ReceiveCaps × List RefUpdate) (p : PktLine) :
    Except RequestError ((ReceiveCaps × List RefUpdate) ⊕ (ReceiveCaps × List RefUpdate)) :=
  match p with
  | .data b =>
    match shallowLine? b with
    | some oid => .ok (.inl (st.1.addShallow oid, st.2))
    | none =>
      match parseCommandLine b with
      | .error e => .error e
      | .ok (update, _) => .ok (.inl (st.1, st.2 ++ [update]))
  | _ => .ok (.inr st)

def optionBody (options : List String) (p : PktLine) :
    Except RequestError (List String ⊕ List String) :=
  match p with
  | .data b => .ok (.inl (options ++ [String.ofList (trimEndLines (Utf8.lossy b))]))
  | _ => .ok (.inr options)

def readOptions (negotiated : Bool) (r : Pieces UInt8) :
    Except RequestError (List String × Pieces UInt8) :=
  if negotiated then readLoop optionBody id [] r else .ok ([], r)

def parseRest (caps : ReceiveCaps) (update : RefUpdate) (r : Pieces UInt8) :
    Except RequestError (PushTransaction × ReceiveCaps × Pieces UInt8) :=
  (readLoop commandBody id (caps, [update]) r).bind fun (st, r) =>
    (readOptions st.1.pushOptions r).bind fun (options, r) =>
      .ok (⟨⟨st.2, caps.atomic⟩, options⟩, st.1, r)

/-- `parse`: the transaction, the capabilities, and a reader at the pack. -/
def parse (r : Pieces UInt8) :
    Except RequestError (PushTransaction × ReceiveCaps × Pieces UInt8) :=
  (readLoop firstBody (·, none) {} r).bind fun (st, r) =>
    match st with
    | (caps, none) | (caps, some .flush) => .ok (⟨⟨[], false⟩, []⟩, caps, r)
    | (_, some .delim) | (_, some .responseEnd) => .error .unexpectedDelim
    | (caps, some (.data b)) =>
      (parseCommandLine b).bind fun (update, capString) =>
        parseRest (applyCaps caps capString) update r

end Parse

section Loops

variable {σ α : Type} {body : σ → PktLine → Except RequestError (σ ⊕ α)} {eof : σ → α} {s s' : σ}
  {r r' : Pieces UInt8} {p : PktLine} {ps : List PktLine} {t : Bytes}

theorem readLoop_next (h : readPktLine r = .ok (some p, r')) (hbody : body s p = .ok (.inl s')) :
    readLoop body eof s r = readLoop body eof s' r' := by
  rw [readLoop]
  split <;> simp_all

theorem readLoop_break {a : α} (h : readPktLine r = .ok (some p, r'))
    (hbody : body s p = .ok (.inr a)) : readLoop body eof s r = .ok (a, r') := by
  rw [readLoop]
  split <;> simp_all

/-- The body goes on over the packets. -/
inductive Goes (body : σ → PktLine → Except RequestError (σ ⊕ α)) : σ → List PktLine → σ → Prop
  | nil (s : σ) : Goes body s [] s
  | cons {s s' s'' : σ} {p : PktLine} {ps : List PktLine} (h : body s p = .ok (.inl s'))
      (hs : Goes body s' ps s'') : Goes body s (p :: ps) s''

theorem Goes.readLoop_eq (eof : σ → α) (h : Goes body s ps s') (hcode : ∀ p ∈ ps, p.code < 16 ^ 4)
    (hall : r.all = ps.flatMap PktLine.encode ++ t) :
    ∃ r', r'.all = t ∧ readLoop body eof s r = readLoop body eof s' r' := by
  induction h generalizing r with
  | nil s => exact ⟨r, hall, rfl⟩
  | @cons s s₁ s₂ p ps hbody _ ih =>
    rw [List.forall_mem_cons] at hcode
    rw [List.flatMap_cons, PktLine.encode, List.append_assoc, List.append_assoc] at hall
    obtain ⟨r₁, hread, hr₁⟩ := readPktLine_framed (headerOf_four hcode.1) hall
    obtain ⟨r', hr', heq⟩ := ih hcode.2 hr₁
    exact ⟨r', hr', (readLoop_next hread hbody).trans heq⟩

theorem Goes.readLoop_stop {a : α} (eof : σ → α) (h : Goes body s ps s')
    (hcode : ∀ q ∈ ps ++ [p], q.code < 16 ^ 4)
    (hbody : body s' p = .ok (.inr a))
    (hall : r.all = (ps ++ [p]).flatMap PktLine.encode ++ t) :
    ∃ r', readLoop body eof s r = .ok (a, r') ∧ r'.all = t := by
  rw [List.forall_mem_append] at hcode
  rw [List.flatMap_append, List.flatMap_singleton, List.append_assoc] at hall
  obtain ⟨r₁, hr₁, heq⟩ := h.readLoop_eq eof hcode.1 hall
  rw [PktLine.encode, List.append_assoc] at hr₁
  obtain ⟨r₂, hread, hr₂⟩ := readPktLine_framed (headerOf_four (hcode.2 p List.mem_cons_self)) hr₁
  exact ⟨r₂, heq.trans (readLoop_break hread hbody), hr₂⟩

end Loops

end Walgit.Pkt
