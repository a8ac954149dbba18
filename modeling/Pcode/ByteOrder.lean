/-!
# Byte order
-/
namespace Pcode

inductive ByteOrder where
  | big
  | little
deriving Repr, DecidableEq, Ord

namespace ByteOrder

/-- Big exactly when `big` holds. -/
def ofBig (big : Bool) : ByteOrder := if big then .big else .little

def isBig : ByteOrder → Bool
  | .big => true
  | .little => false

def isLittle (o : ByteOrder) : Bool := !o.isBig

@[simp] theorem isBig_ofBig (big : Bool) : (ofBig big).isBig = big := by cases big <;> rfl

def abbreviation : ByteOrder → String
  | .big => "BE"
  | .little => "LE"

end ByteOrder

end Pcode
