/-!
# Properties of address spaces

A set of properties is a word whose low nine bits are the flags below. The word may carry other
bits, which have no meaning but are kept.
-/
namespace Pcode

/-- The properties that have a meaning, from the lowest bit on. -/
inductive Property where
  | bigEndian
  | heritaged
  | doesDeadcode
  | programSpecific
  | reverseJustification
  | overlay
  | overlayBase
  | truncated
  | hasPhysical
deriving Repr, DecidableEq

namespace Property

def all : List Property :=
  [.bigEndian, .heritaged, .doesDeadcode, .programSpecific, .reverseJustification, .overlay,
    .overlayBase, .truncated, .hasPhysical]

def bit : Property → UInt64
  | .bigEndian => 1
  | .heritaged => 2
  | .doesDeadcode => 4
  | .programSpecific => 8
  | .reverseJustification => 16
  | .overlay => 32
  | .overlayBase => 64
  | .truncated => 128
  | .hasPhysical => 256

theorem bit_and_bit_eq_zero_iff (p q : Property) : p.bit &&& q.bit = 0 ↔ p ≠ q := by
  cases p <;> cases q <;> decide

def label : Property → String
  | .bigEndian => "BigEndian"
  | .heritaged => "Heritaged"
  | .doesDeadcode => "DoesDeadcode"
  | .programSpecific => "ProgramSpecific"
  | .reverseJustification => "ReverseJustification"
  | .overlay => "Overlay"
  | .overlayBase => "OverlayBase"
  | .truncated => "Truncated"
  | .hasPhysical => "HasPhysical"

end Property

structure Properties where
  bits : UInt64
deriving Repr, DecidableEq, Ord

namespace Properties

def none : Properties := ⟨0⟩

def ofList (ps : List Property) : Properties := ⟨ps.foldl (fun bits p => bits ||| p.bit) 0⟩

def union (p q : Properties) : Properties := ⟨p.bits ||| q.bits⟩

def inter (p q : Properties) : Properties := ⟨p.bits &&& q.bits⟩

def complement (p : Properties) : Properties := ⟨~~~p.bits⟩

/-- Is any bit set, with or without a meaning? -/
def isNonempty (p : Properties) : Bool := p.bits != 0

def has (p : Properties) (q : Property) : Bool := p.bits &&& q.bit != 0

def insert (p : Properties) (q : Property) : Properties := ⟨p.bits ||| q.bit⟩

def erase (p : Properties) (q : Property) : Properties := ⟨p.bits &&& ~~~q.bit⟩

theorem has_insert (s : Properties) (p q : Property) :
    (s.insert p).has q = (s.has q || p == q) := by
  have hsplit : (s.bits ||| p.bit) &&& q.bit = (s.bits &&& q.bit) ||| (p.bit &&& q.bit) := by
    apply UInt64.toNat_inj.mp
    simp only [UInt64.toNat_and, UInt64.toNat_or, Nat.and_or_distrib_right]
  have hbit := p.bit_and_bit_eq_zero_iff q
  unfold has insert
  rw [hsplit, Bool.eq_iff_iff]
  simp only [bne_iff_ne, ne_eq, UInt64.or_eq_zero_iff, hbit, Bool.or_eq_true, beq_iff_eq]
  by_cases h : p = q <;> simp [h]

/-- The properties of the set, from the lowest bit on. -/
def toList (p : Properties) : List Property := Property.all.filter p.has

def describe (p : Properties) : String :=
  if p.isNonempty then
    "SpaceProperty(" ++ String.intercalate " | " (p.toList.map Property.label) ++ ")"
  else "SpaceProperty::default()"

end Properties

end Pcode
