/-!
# Digits

The ASCII digits of a radix up to sixteen, in either case, and the number that a row of digits
stands for. A digit that is printed reads back.
-/
namespace Pcode.Digit

/-- The value of a digit below `radix`. -/
def value? (radix : Nat) (c : Char) : Option Nat :=
  let value? :=
    if '0' ≤ c ∧ c ≤ '9' then some (c.toNat - '0'.toNat)
    else if 'a' ≤ c ∧ c ≤ 'f' then some (c.toNat - 'a'.toNat + 10)
    else if 'A' ≤ c ∧ c ≤ 'F' then some (c.toNat - 'A'.toNat + 10)
    else none
  value?.filter (· < radix)

theorem value?_digitChar {radix d : Nat} (h : d < radix) (hd : d < 16) :
    value? radix d.digitChar = some d := by
  have all : ∀ d < 16, value? 16 d.digitChar = some d := by decide
  have plain := all d hd
  unfold value? at plain ⊢
  simp only [Option.filter_eq_some_iff] at plain ⊢
  exact ⟨plain.1, by simpa using h⟩

def isDigit (radix : Nat) (c : Char) : Bool := (value? radix c).isSome

/-- The number that digits stand for, the most significant one first. -/
def number (radix : Nat) (digits : List Char) : Nat :=
  digits.foldl (fun n c => n * radix + (value? radix c).getD 0) 0

/-- The number at the start, of one digit or more, and what follows it. -/
def number? (radix : Nat) (cs : List Char) : Option (Nat × List Char) :=
  match cs.takeWhile (isDigit radix) with
  | [] => none
  | digits => some (number radix digits, cs.dropWhile (isDigit radix))

end Pcode.Digit
