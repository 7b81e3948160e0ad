import Spintax.Text.Quoted
import Spintax.Value.Binary64

/-!
# Spintax.Value

Plain values that are no part of any template, but may be handed in where a tree is expected.

* `Value`: nothing, truth values, numbers, text, lists and records.
* `Value.typeName`: the name of a value's type in messages.
* `Value.same`: equality. Numbers are compared by amount, and a truth value is the number 0 or 1.
* `Value.unhashable?`: the type of a value that has no hash.
* `Value.describe`: the form shown to readers.
-/

namespace Spintax

/-- A plain value. A record lists its fields. -/
inductive Value where
  | null
  | bool (b : Bool)
  | int (n : Int)
  | float (x : Binary64)
  | text (s : String)
  | list (items : List Value)
  | record (fields : List (String × Value))
deriving Inhabited

namespace Value

def typeName : Value → String
  | .null => "NoneType"
  | .bool _ => "bool"
  | .int _ => "int"
  | .float _ => "float"
  | .text _ => "str"
  | .list _ => "list"
  | .record _ => "dict"

/-- The amount of a number. -/
def amount? : Value → Option Binary64.Amount
  | .bool b => some (.ofInt (if b then 1 else 0))
  | .int n => some (.ofInt n)
  | .float x => some x.amount
  | _ => none

mutual

/-- Equality of values. The order of fields in a record does not count. -/
def same : Value → Value → Bool
  | .null, .null => true
  | .text a, .text b => a == b
  | .list xs, .list ys => sameItems xs ys
  | .record fs, .record gs => fs.length == gs.length && sameFields fs gs
  | a, b =>
    match a.amount?, b.amount? with
    | some x, some y => x = y
    | _, _ => false

def sameItems : List Value → List Value → Bool
  | [], [] => true
  | x :: xs, y :: ys => same x y && sameItems xs ys
  | _, _ => false

/-- Each of these fields is in the record `gs`, with the same value. -/
def sameFields : List (String × Value) → List (String × Value) → Bool
  | [], _ => true
  | (name, x) :: fs, gs =>
    (match gs.lookup name with
      | some y => same x y
      | none => false) && sameFields fs gs

end

/-- The type of a value that may change, and so has no hash. -/
def unhashable? (v : Value) : Option String :=
  match v with
  | .list _ | .record _ => some v.typeName
  | _ => none

mutual

def describe : Value → String
  | .null => "None"
  | .bool b => if b then "True" else "False"
  | .int n => toString n
  | .float x => x.describe
  | .text s => Text.quote s
  | .list xs => "[" ++ ", ".intercalate (describeItems xs) ++ "]"
  | .record fs => "\x7b" ++ ", ".intercalate (describeFields fs) ++ "\x7d"

def describeItems : List Value → List String
  | [] => []
  | x :: xs => describe x :: describeItems xs

def describeFields : List (String × Value) → List String
  | [] => []
  | (name, x) :: fs => (Text.quote name ++ ": " ++ describe x) :: describeFields fs

end

end Value
end Spintax
