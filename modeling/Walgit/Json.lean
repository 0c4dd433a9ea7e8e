import Mathlib

/-!
# JSON values

Parsed documents: the numbers `serde_json` keeps as integers, other numbers by
their text, and objects as their fields in key order. The readers give nothing
for a value of another type.
-/

namespace Walgit

inductive Json
  | null
  | bool (b : Bool)
  | int (n : ℤ)
  | float (text : String)
  | string (s : String)
  | array (items : List Json)
  | object (fields : List (String × Json))
  deriving Repr

namespace Json

def get (v : Json) (key : String) : Option Json :=
  match v with
  | .object fields => fields.lookup key
  | _ => none

def asStr : Json → Option String
  | .string s => some s
  | _ => none

def asBool : Json → Option Bool
  | .bool b => some b
  | _ => none

def asU64 : Json → Option ℕ
  | .int n => if 0 ≤ n ∧ n < 2 ^ 64 then some n.toNat else none
  | _ => none

def asI64 : Json → Option ℤ
  | .int n => if -2 ^ 63 ≤ n ∧ n < 2 ^ 63 then some n else none
  | _ => none

def asArray : Json → Option (List Json)
  | .array items => some items
  | _ => none

def asObject : Json → Option (List (String × Json))
  | .object fields => some fields
  | _ => none

/-- The bytes of a character in a compact JSON string. -/
def escapedLen (c : Char) : ℕ :=
  if c = '"' ∨ c = '\\' ∨ c.toNat ∈ [8, 9, 10, 12, 13] then 2
  else if c.toNat < 32 then 6
  else c.utf8Size

def stringCost (s : String) : ℕ := 2 + (s.toList.map escapedLen).sum

/-- What a value costs by itself: brackets, commas and colons, without its items. -/
def cost : Json → ℕ
  | .null => 4
  | .bool b => if b then 4 else 5
  | .int n => (toString n).length
  | .float text => text.length
  | .string s => stringCost s
  | .array items => 2 + (items.length - 1)
  | .object fields => 2 + (fields.length - 1) + fields.length

def spend (remaining amount : ℕ) : Option ℕ :=
  if amount ≤ remaining then some (remaining - amount) else none

mutual

/-- What is left of the budget after the value; nothing once it is exceeded. -/
def walk (remaining : ℕ) : Json → Option ℕ
  | .array items => (spend remaining (cost (.array items))).bind fun r => walkItems r items
  | .object fields => (spend remaining (cost (.object fields))).bind fun r =>
      (walkFields r fields).bind fun r => walkKeys r fields
  | .null => spend remaining (cost .null)
  | .bool b => spend remaining (cost (.bool b))
  | .int n => spend remaining (cost (.int n))
  | .float text => spend remaining (cost (.float text))
  | .string s => spend remaining (cost (.string s))

def walkItems (remaining : ℕ) : List Json → Option ℕ
  | [] => some remaining
  | v :: vs => (walk remaining v).bind fun r => walkItems r vs

def walkFields (remaining : ℕ) : List (String × Json) → Option ℕ
  | [] => some remaining
  | (_, v) :: vs => (walk remaining v).bind fun r => walkFields r vs

def walkKeys (remaining : ℕ) : List (String × Json) → Option ℕ
  | [] => some remaining
  | (k, _) :: vs => (spend remaining (stringCost k)).bind fun r => walkKeys r vs

end

/-- Whether the compact serialization has at most `budget` bytes. -/
def fits (v : Json) (budget : ℕ) : Bool := (walk budget v).isSome

end Json

end Walgit
