import Pcode.Json.Reader

/-!
# Serialised forms

How values are written as JSON and read back. A structure is an object of its fields in a fixed
order; it is read from an object with its fields in any order, each at most once, and other fields
passed over, or from an array of exactly its fields. A choice is the label of the alternative, alone
or as the single field name before its content. A value that may be missing is `null` then, or left
out.
-/
namespace Pcode

/-- Types with a serialised form. -/
class Serial (α : Type) where
  toJson : α → Json
  ofJson? : Json → Option α

namespace Serial

def write {α : Type} [Serial α] (a : α) : String := (toJson a).render

def read? (α : Type) [Serial α] (text : String) : Option α := (Json.parse? text).bind ofJson?

/-! ## Fields and labels -/

/-- Collects the values of the named fields. `none` where a name is no text or a field occurs
twice. -/
def fieldOfObject? (fields : List (Option String × Json)) (name : String) :
    Option (Option Json) :=
  match fields.filter fun f => f.1 == some name with
  | [] => some none
  | [f] => some (some f.2)
  | _ => none

/-- The values of the named fields of a structure, where they are present. -/
def fields? (names : List String) : Json → Option (List (Option Json))
  | .object fields =>
    if fields.all fun f => f.1.isSome then names.mapM (fieldOfObject? fields) else none
  | .array items => if items.length = names.length then some (items.map some) else none
  | _ => none

def required? {α : Type} [Serial α] (field : Option Json) : Option α := field.bind ofJson?

def label? : Json → Option String
  | .string label => label
  | .object [(label, .null)] => label
  | _ => none

def labelled? : Json → Option (String × Json)
  | .object [(some label, content)] => some (label, content)
  | _ => none

/-! ## Elementary types -/

instance : Serial Bool where
  toJson := .bool
  ofJson?
    | .bool b => some b
    | _ => none

def integer? (least greatest : Int) : Json → Option Int
  | .integer n => if least ≤ n ∧ n ≤ greatest then some n else none
  | _ => none

instance : Serial UInt64 where
  toJson n := .integer n.toNat
  ofJson? j := (integer? 0 0xffffffffffffffff j).map UInt64.ofInt

instance : Serial UInt32 where
  toJson n := .integer n.toNat
  ofJson? j := (integer? 0 0xffffffff j).map UInt32.ofInt

instance : Serial Int32 where
  toJson n := .integer n.toInt
  ofJson? j := (integer? (-0x80000000) 0x7fffffff j).map Int32.ofInt

instance : Serial String where
  toJson := .ofString
  ofJson?
    | .string s => s
    | _ => none

instance : Serial Char where
  toJson c := .ofString c.toString
  ofJson?
    | .string (some s) =>
      match s.toList with
      | [c] => some c
      | _ => none
    | _ => none

variable {α : Type}

instance [Serial α] : Serial (Option α) where
  toJson
    | some a => toJson a
    | none => .null
  ofJson?
    | .null => some none
    | j => (ofJson? j).map some

def optional? [Serial α] : Option Json → Option (Option α)
  | some j => ofJson? j
  | none => some none

instance [Serial α] : Serial (List α) where
  toJson as := .array (as.map toJson)
  ofJson?
    | .array items => items.mapM ofJson?
    | _ => none

end Serial

end Pcode
