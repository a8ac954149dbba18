import Pcode.Config.Fault
import Pcode.Ordered
import Pcode.Outcome

/-!
# Context fields

Fields are runs of bits in a buffer of 32-bit words. Bits are counted from the most significant bit
of the first word, and no field crosses from one word into the next.
-/
namespace Pcode

/-- The bits `first … last` of one word, with the shift that brings them to its low end and the mask
that keeps them there. -/
structure BitField where
  word : Nat
  first : Nat
  last : Nat
  shift : Nat
  mask : UInt32
deriving Repr, DecidableEq

namespace BitField

def bitsPerWord : Nat := 32

/-- A field within one word, given by the numbers of its bits in the buffer. -/
def ofBits (first last : Nat) : BitField :=
  let word := first / bitsPerWord
  let first := first - word * bitsPerWord
  let last := last - word * bitsPerWord
  let shift := bitsPerWord - last - 1
  { word
    first
    last
    shift
    mask := 0xffffffff >>> UInt32.ofNat (first + shift) }

def extract (f : BitField) (word : UInt32) : UInt32 := (word >>> UInt32.ofNat f.shift) &&& f.mask

/-- A word with the field replaced by the low bits of `value`. -/
def replace (f : BitField) (word value : UInt32) : UInt32 :=
  let shift := UInt32.ofNat f.shift
  (word &&& ~~~(f.mask <<< shift)) ||| ((value &&& f.mask) <<< shift)

/-- Reads the field, if the buffer reaches it. -/
def read? (f : BitField) (buffer : List UInt32) : Option UInt32 := (buffer[f.word]?).map f.extract

/-- Writes the field, if the buffer reaches it. -/
def write? (f : BitField) (buffer : List UInt32) (value : UInt32) : Option (List UInt32) :=
  (buffer[f.word]?).map fun word => buffer.set f.word (f.replace word value)

theorem isSome_read? (f : BitField) (buffer : List UInt32) :
    (f.read? buffer).isSome ↔ f.word < buffer.length := by
  simp [read?]

theorem isSome_write? (f : BitField) (buffer : List UInt32) (value : UInt32) :
    (f.write? buffer value).isSome ↔ f.word < buffer.length := by
  simp [write?]

end BitField

/-- Context fields, by increasing name, and the buffer of their default values. -/
structure ContextFields where
  fields : List (String × BitField)
  defaults : List UInt32
deriving Repr, DecidableEq

namespace ContextFields
open Config (Error)

def empty : ContextFields := ⟨[], []⟩

def size (c : ContextFields) : Nat := c.defaults.length

def isEmpty (c : ContextFields) : Bool := c.fields.isEmpty

def field? (c : ContextFields) (name : String) : Option BitField := c.fields.lookup name

/-- One more field, in a buffer long enough for it. -/
def push (c : ContextFields) (name : String) (field : BitField) : ContextFields where
  fields := Ordered.place compare name field c.fields
  defaults := c.defaults ++ List.replicate (field.word + 1 - c.defaults.length) 0

theorem size_push (c : ContextFields) (name : String) (field : BitField) :
    (c.push name field).size = max c.size (field.word + 1) := by
  simp only [size, push, List.length_append, List.length_replicate]
  omega

/-- Defines a field over the bits `first … last`, which are bits of one word. -/
def define (name : String) (first last : UInt64) : Action ContextFields Error Unit := do
  let low := first.toNat
  let high := last.toNat
  if high < low ∨ low / BitField.bitsPerWord ≠ high / BitField.bitsPerWord then
    throw (.fieldSpansWords name first last)
  modify fun c => c.push name (.ofBits low high)

def setDefault (name : String) (value : UInt32) : Action ContextFields Error Unit := do
  let c ← get
  match c.field? name with
  | none => throw (.unknownField name)
  | some field =>
    match field.write? c.defaults value with
    | none => throw (.broken .fieldInBuffer)
    | some defaults => set { c with defaults }

def read? (c : ContextFields) (name : String) (buffer : List UInt32) : Option UInt32 :=
  (c.field? name).bind fun field => field.read? buffer

def write? (c : ContextFields) (name : String) (buffer : List UInt32) (value : UInt32) :
    Option (List UInt32) :=
  (c.field? name).bind fun field => field.write? buffer value

end ContextFields

end Pcode
