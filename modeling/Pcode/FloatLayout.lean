import Pcode.Config.Attribute
import Pcode.Word

/-!
# Floating point layouts

Where the sign, the exponent and the fraction of a number stand in its encoding, the special
encodings of a layout, and the value of an encoding as a double.

Positions past the end of a word are allowed: nothing is read there and nothing is written.
-/
namespace Pcode

/-- A layout of `size` bytes. Each field is given by its lowest bit and its number of bits; a
layout with a hidden bit leaves out the leading one of a normal mantissa. -/
structure FloatLayout where
  size : UInt64
  signAt : UInt32
  fractionAt : UInt32
  fractionSize : UInt32
  exponentAt : UInt32
  exponentMax : Int32
  exponentSize : UInt32
  bias : Int32
  hiddenBit : Bool
deriving Repr, DecidableEq, Ord

inductive FloatClass where
  | zero
  | subnormal
  | normal
  | infinite
  | nan
deriving Repr, DecidableEq

namespace FloatLayout

def single : FloatLayout where
  size := 4
  signAt := 31
  fractionAt := 0
  fractionSize := 23
  exponentAt := 23
  exponentMax := 255
  exponentSize := 8
  bias := 127
  hiddenBit := true

def double : FloatLayout where
  size := 8
  signAt := 63
  fractionAt := 0
  fractionSize := 52
  exponentAt := 52
  exponentMax := 2047
  exponentSize := 11
  bias := 1023
  hiddenBit := true

def width (f : FloatLayout) : Checked UInt64 := Word.mul f.size 8

def lowBits (n : UInt32) : UInt64 := Word.shiftLeft 1 n - 1

def sign (f : FloatLayout) (x : UInt64) : Bool := Word.shiftRight x f.signAt &&& 1 != 0

/-- The exponent field as a signed number. -/
def exponentOf (f : FloatLayout) (x : UInt64) : Int32 :=
  (Word.shiftRight x f.exponentAt &&& lowBits f.exponentSize).toUInt32.toInt32

/-- The fraction field, at the low end of a word. -/
def fractionOf (f : FloatLayout) (x : UInt64) : UInt64 :=
  Word.shiftRight x f.fractionAt &&& lowBits f.fractionSize

def markSign (f : FloatLayout) (x : UInt64) (sign : Bool) : UInt64 :=
  if sign then x ||| Word.shiftLeft 1 f.signAt else x

/-- Sets the exponent field to ones, as far as it reaches in a word. -/
def withFullExponent (f : FloatLayout) (x : UInt64) : UInt64 :=
  x ||| Word.shiftLeft f.exponentMax.toInt64.toUInt64 f.exponentAt

def zero (f : FloatLayout) (sign : Bool) : UInt64 := f.markSign 0 sign

def infinity (f : FloatLayout) (sign : Bool) : UInt64 :=
  f.markSign (f.withFullExponent 0) sign

/-- A number that is none, with the highest bit of its fraction set. -/
def notANumber (f : FloatLayout) (sign : Bool) : UInt64 :=
  let quiet := Word.shiftLeft 1 (if f.fractionSize = 0 then 0 else f.fractionSize - 1)
  f.markSign (f.withFullExponent (Word.shiftLeft quiet f.fractionAt)) sign

/-! ## Values -/

/-- The difference of two signed numbers, when it is one. -/
def difference (a b : Int32) : Checked Int32 :=
  let d := a.toInt - b.toInt
  if Int32.minValue.toInt ≤ d ∧ d ≤ Int32.maxValue.toInt then .ok (a - b) else .error .overflow

/-- Two to the power `n`, infinite from 1024 on. -/
def powerOfTwo (n : Nat) : Float :=
  if n < 1024 then Float.ofBits (UInt64.ofNat (n + 1023) <<< 52)
  else Float.ofBits 0x7ff0000000000000

/-- Two to the power `n`; a negative power is one divided by the positive one. -/
def scale (n : Int32) : Float :=
  if 0 ≤ n.toInt then powerOfTwo n.toInt.toNat else 1 / powerOfTwo (-n.toInt).toNat

def decode (f : FloatLayout) (encoding : UInt64) : Checked (FloatClass × Float) := do
  let encoding := encoding &&& Word.mask f.size
  let exponent := f.exponentOf encoding
  let fraction := f.fractionOf encoding
  let signed := fun (value : Float) => if f.sign encoding then -value else value
  let part := fraction.toFloat / scale f.fractionSize.toInt32
  if exponent = 0 then
    if fraction = 0 then return (.zero, signed 0)
    return (.subnormal, signed (part * scale (← difference 1 f.bias)))
  if exponent = f.exponentMax then
    if fraction = 0 then return (.infinite, signed (powerOfTwo 1024))
    return (.nan, signed (0 / 0))
  let mantissa := if f.hiddenBit then 1 + part else part * 2
  return (.normal, signed (mantissa * scale (← difference exponent f.bias)))

/-! ## Configuration -/

/-- The highest exponent of a field of `size` bits, each step to it range-checked. -/
def exponentMaxChecked (size : UInt32) : Checked Int32 :=
  if size < 32 then difference (1 <<< size.toInt32) 1 else .error .overflow

/-- A field of less than 31 bits has a highest exponent. -/
theorem exponentMaxChecked_eq {size : UInt32} (h : size.toNat < 31) :
    exponentMaxChecked size = .ok ((1 <<< size.toInt32) - 1) := by
  have hall : ∀ k < 31,
      Int32.minValue.toInt ≤ (1 <<< (UInt32.ofNat k).toInt32 : Int32).toInt - (1 : Int32).toInt ∧
        (1 <<< (UInt32.ofNat k).toInt32 : Int32).toInt - (1 : Int32).toInt ≤
          Int32.maxValue.toInt := by decide +kernel
  have hrange := hall size.toNat h
  rw [UInt32.ofNat_toNat] at hrange
  have hlt : size < 32 := UInt32.lt_iff_toNat_lt.mpr (Nat.lt_succ_of_lt h)
  unfold exponentMaxChecked difference
  rw [if_pos hlt]
  exact if_pos hrange

theorem exists_exponentMaxChecked {size : UInt32} (h : ¬(size = 0 ∨ 31 ≤ size)) :
    ∃ highest, exponentMaxChecked size = .ok highest := by
  rw [not_or, UInt32.le_iff_toNat_le] at h
  exact ⟨_, exponentMaxChecked_eq (Nat.lt_of_not_le h.2)⟩

def ofElement (e : Xml.Element) : Except Config.Error FloatLayout := do
  e.requireName "floatformat"
  let size ← e.word "size"
  let signAt ← e.word32 "signpos"
  let fractionAt ← e.word32 "fracpos"
  let fractionSize ← e.word32 "fracsize"
  let exponentAt ← e.word32 "exppos"
  let exponentSize ← e.word32 "expsize"
  let bias ← e.int32 "bias"
  let hiddenBit ← e.boolD "jbitimplied" false
  if h : exponentSize = 0 ∨ 31 ≤ exponentSize then
    throw (.broken .exponentRange)
  else
    return {
      size
      signAt
      fractionAt
      fractionSize
      exponentAt
      exponentMax := (exponentMaxChecked exponentSize).get (exists_exponentMaxChecked h)
      exponentSize
      bias
      hiddenBit }

end FloatLayout

end Pcode
