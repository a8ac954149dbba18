import Pcode.Blank
import Pcode.Digit

/-!
# Integer numerals

An integer is written in decimal, or in hexadecimal after `0x` or `0X`, with an optional sign that
stands after the `0x`. Blanks around it are passed over. Each type of integer takes the numerals of
its own range; a minus sign belongs to the signed types alone.
-/
namespace Pcode

/-- A range of integers: of words of `bits` bits, with or without a sign. -/
structure IntType where
  signed : Bool
  bits : Nat
deriving Repr, DecidableEq

namespace IntType

def i8 : IntType := ⟨true, 8⟩
def i16 : IntType := ⟨true, 16⟩
def i32 : IntType := ⟨true, 32⟩
def i64 : IntType := ⟨true, 64⟩
def u8 : IntType := ⟨false, 8⟩
def u16 : IntType := ⟨false, 16⟩
def u32 : IntType := ⟨false, 32⟩
def u64 : IntType := ⟨false, 64⟩

def least (t : IntType) : Int := if t.signed then -(Nat.pow 2 (t.bits - 1) : Int) else 0

def greatest (t : IntType) : Int :=
  if t.signed then (Nat.pow 2 (t.bits - 1) : Int) - 1 else (Nat.pow 2 t.bits : Int) - 1

def Fits (t : IntType) (n : Int) : Prop := t.least ≤ n ∧ n ≤ t.greatest

end IntType

inductive NumeralError where
  | empty
  | invalidDigit
  | tooLarge
  | tooSmall
deriving Repr, DecidableEq

def NumeralError.message : NumeralError → String
  | .empty => "cannot parse integer from empty string"
  | .invalidDigit => "invalid digit found in string"
  | .tooLarge => "number too large to fit in target type"
  | .tooSmall => "number too small to fit in target type"

namespace Numeral

/-- Appends digits to `value`, away from zero, as long as the result stays in range. -/
def readDigits (t : IntType) (radix : Nat) (negative : Bool) :
    Int → List Char → Except NumeralError Int
  | value, [] => .ok value
  | value, c :: cs =>
    match Digit.value? radix c with
    | none => .error .invalidDigit
    | some d =>
      let next := if negative then value * radix - d else value * radix + d
      if t.greatest < next then .error .tooLarge
      else if next < t.least then .error .tooSmall
      else readDigits t radix negative next cs

/-- Reads an optional sign and at least one digit. -/
def readSigned (t : IntType) (radix : Nat) : List Char → Except NumeralError Int
  | [] => .error .empty
  | ['+'] | ['-'] => .error .invalidDigit
  | '+' :: cs => readDigits t radix false 0 cs
  | '-' :: cs =>
    if t.signed then readDigits t radix true 0 cs else readDigits t radix false 0 ('-' :: cs)
  | cs => readDigits t radix false 0 cs

/-- Reads a numeral in decimal, or in hexadecimal after `0x` when something follows. -/
def read (t : IntType) (text : String) : Except NumeralError Int :=
  match trimBlank text.toList with
  | '0' :: x :: c :: cs =>
    if x = 'x' ∨ x = 'X' then readSigned t 16 (c :: cs)
    else readSigned t 10 ('0' :: x :: c :: cs)
  | cs => readSigned t 10 cs

end Numeral

end Pcode
