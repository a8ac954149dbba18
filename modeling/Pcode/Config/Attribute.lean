import Pcode.Config.Fault

/-!
# Attributes of configuration tags

Texts, integers and truth values read from the attributes of a tag. Each reader has a form for
attributes that may be left out.
-/
namespace Pcode.Xml.Element

def requireName (e : Element) (name : String) : Except Config.Error Unit :=
  if e.name = name then .ok () else .error (.wrongTag e.name)

def text (e : Element) (name : String) : Except Config.Error String :=
  match e.attribute? name with
  | some value => .ok value
  | none => .error (.missingAttribute name)

def textD (e : Element) (name default : String) : String := (e.attribute? name).getD default

def readInt (t : IntType) (value : String) : Except Config.Error Int :=
  (Numeral.read t value).mapError .notInteger

def int (e : Element) (t : IntType) (name : String) : Except Config.Error Int := do
  readInt t (← e.text name)

def intD (e : Element) (t : IntType) (name : String) (default : Int) : Except Config.Error Int :=
  match e.attribute? name with
  | some value => readInt t value
  | none => .ok default

/-- A truth value is exactly `true` or `false`. -/
def readBool (value : String) : Except Config.Error Bool :=
  if value = "true" then .ok true
  else if value = "false" then .ok false
  else .error .notBoolean

def bool (e : Element) (name : String) : Except Config.Error Bool := do
  readBool (← e.text name)

def boolD (e : Element) (name : String) (default : Bool) : Except Config.Error Bool :=
  match e.attribute? name with
  | some value => readBool value
  | none => .ok default

/-! ## Words -/

def word (e : Element) (name : String) : Except Config.Error UInt64 := do
  return UInt64.ofInt (← e.int .u64 name)

def wordD (e : Element) (name : String) (default : UInt64) : Except Config.Error UInt64 := do
  return UInt64.ofInt (← e.intD .u64 name default.toNat)

def word32 (e : Element) (name : String) : Except Config.Error UInt32 := do
  return UInt32.ofInt (← e.int .u32 name)

def int32 (e : Element) (name : String) : Except Config.Error Int32 := do
  return Int32.ofInt (← e.int .i32 name)

end Pcode.Xml.Element
