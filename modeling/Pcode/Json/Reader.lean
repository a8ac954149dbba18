import Pcode.Digit
import Pcode.Json.Basic

/-!
# Reading JSON

Reads one value from a text that holds nothing else. Repeated names and the order of fields are kept
for the types that are read from the value. Each value takes at least one character, so the length
of the text bounds the depth of the recursion.
-/
namespace Pcode.Json

def isBlankChar (c : Char) : Bool := c == ' ' || c == '\t' || c == '\n' || c == '\r'

def skipBlank (cs : List Char) : List Char := cs.dropWhile isBlankChar

def hexUnit? (a b c d : Char) : Option Nat :=
  if [a, b, c, d].all (Digit.isDigit 16) then some (Digit.number 16 [a, b, c, d]) else none

def shortEscape? : Char → Option Char
  | '"' => some '"'
  | '\\' => some '\\'
  | '/' => some '/'
  | 'b' => some '\x08'
  | 'f' => some '\x0c'
  | 'n' => some '\n'
  | 'r' => some '\r'
  | 't' => some '\t'
  | _ => none

/-- Reads a string after its opening quote, as characters and escaped sixteen bit units. -/
def units? : List Char → Option (List (Char ⊕ Nat) × List Char)
  | [] => none
  | '"' :: cs => some ([], cs)
  | '\\' :: 'u' :: a :: b :: c :: d :: cs => do
    let unit ← hexUnit? a b c d
    let (units, rest) ← units? cs
    return (.inr unit :: units, rest)
  | '\\' :: e :: cs => do
    let char ← shortEscape? e
    let (units, rest) ← units? cs
    return (.inl char :: units, rest)
  | c :: cs => do
    guard (c.toNat ≥ 0x20 && c != '\\')
    let (units, rest) ← units? cs
    return (.inl c :: units, rest)

def isHighSurrogate (n : Nat) : Bool := 0xd800 ≤ n && n < 0xdc00

def isLowSurrogate (n : Nat) : Bool := 0xdc00 ≤ n && n < 0xe000

/-- Joins surrogate pairs; half a pair alone is no text. -/
def textOfUnits? : List (Char ⊕ Nat) → Option (List Char)
  | [] => some []
  | .inl c :: us => (textOfUnits? us).map (c :: ·)
  | .inr h :: .inr l :: us =>
    if isHighSurrogate h && isLowSurrogate l then
      (textOfUnits? us).map (Char.ofNat (0x10000 + (h - 0xd800) * 0x400 + (l - 0xdc00)) :: ·)
    else if isHighSurrogate h || isLowSurrogate h then none
    else (textOfUnits? (.inr l :: us)).map (Char.ofNat h :: ·)
  | .inr h :: us =>
    if isHighSurrogate h || isLowSurrogate h then none
    else (textOfUnits? us).map (Char.ofNat h :: ·)

def string? (cs : List Char) : Option (Option String × List Char) := do
  let (units, rest) ← units? cs
  return ((textOfUnits? units).map String.ofList, rest)

def digits? (cs : List Char) : Option (List Char) :=
  if cs.head?.any Char.isDigit then some (cs.dropWhile Char.isDigit) else none

/-- Passes over the digits after a point, if there is one. -/
def decimals? : List Char → Option (List Char)
  | '.' :: cs => digits? cs
  | cs => some cs

/-- Passes over an exponent, if there is one. -/
def exponent? : List Char → Option (List Char)
  | e :: cs =>
    if e = 'e' ∨ e = 'E' then
      match cs with
      | s :: ds => if s = '+' ∨ s = '-' then digits? ds else digits? cs
      | [] => none
    else some (e :: cs)
  | [] => some []

/-- The digits of an integer without leading zeros, and what follows. -/
def integerDigits? : List Char → Option (List Char × List Char)
  | '0' :: cs => some (['0'], cs)
  | cs => do
    let rest ← digits? cs
    return (cs.takeWhile Char.isDigit, rest)

/-- Reads a number without its sign. Minus zero is no integer. -/
def magnitude? (negative : Bool) (cs : List Char) : Option (Json × List Char) := do
  let (digits, rest) ← integerDigits? cs
  let after ← exponent? (← decimals? rest)
  let n := Digit.number 10 digits
  if after.length < rest.length || (negative && n = 0) then return (.real, after)
  return (.integer (if negative then -(n : Int) else n), after)

def number? : List Char → Option (Json × List Char)
  | '-' :: cs => magnitude? true cs
  | cs => magnitude? false cs

mutual

/-- Reads a value. The first argument bounds the depth. -/
def value? : Nat → List Char → Option (Json × List Char)
  | 0, _ => none
  | n + 1, cs =>
    match skipBlank cs with
    | '"' :: rest => (string? rest).map fun r => (.string r.1, r.2)
    | '[' :: rest =>
      match skipBlank rest with
      | ']' :: rest => some (.array [], rest)
      | _ => (items? n rest).map fun r => (.array r.1, r.2)
    | '\x7b' :: rest =>
      match skipBlank rest with
      | '\x7d' :: rest => some (.object [], rest)
      | _ => (fields? n rest).map fun r => (.object r.1, r.2)
    | 'n' :: 'u' :: 'l' :: 'l' :: rest => some (.null, rest)
    | 't' :: 'r' :: 'u' :: 'e' :: rest => some (.bool true, rest)
    | 'f' :: 'a' :: 'l' :: 's' :: 'e' :: rest => some (.bool false, rest)
    | rest => number? rest

def items? : Nat → List Char → Option (List Json × List Char)
  | 0, _ => none
  | n + 1, cs => do
    let (item, rest) ← value? n cs
    match skipBlank rest with
    | ',' :: rest => do
      let (items, rest) ← items? n rest
      return (item :: items, rest)
    | ']' :: rest => return ([item], rest)
    | _ => none

def fields? : Nat → List Char → Option (List (Option String × Json) × List Char)
  | 0, _ => none
  | n + 1, cs =>
    match skipBlank cs with
    | '"' :: rest => do
      let (name, rest) ← string? rest
      match skipBlank rest with
      | ':' :: rest => do
        let (value, rest) ← value? n rest
        match skipBlank rest with
        | ',' :: rest => do
          let (fields, rest) ← fields? n rest
          return ((name, value) :: fields, rest)
        | '\x7d' :: rest => return ([(name, value)], rest)
        | _ => none
      | _ => none
    | _ => none

end

/-- Reads a text that is one value and nothing else. -/
def parse? (text : String) : Option Json := do
  let cs := text.toList
  let (value, rest) ← value? (2 * cs.length + 2) cs
  guard (skipBlank rest).isEmpty
  return value

end Pcode.Json
