import Pcode.Operations.Block

/-!
# Records on the wire

Instructions travel as records of bytes. Each part of a record begins with a mark; numbers of one
byte carry a bias, so that none looks like the mark of an end; offsets are groups of six bits, least
significant first, closed by that mark.

This module holds the marks, the records and the causes of failure of the writer and the reader.
-/
namespace Pcode.Wire

/-- The bytes that tell the parts of a record apart. -/
inductive Mark where
  | unimplemented
  | instruction
  | operation
  | nothing
  | space
  | varnode
  | stop
deriving Repr, DecidableEq

def Mark.byte : Mark → UInt8
  | .unimplemented => 0x20
  | .instruction => 0x21
  | .operation => 0x22
  | .nothing => 0x23
  | .space => 0x24
  | .varnode => 0x25
  | .stop => 0x60

theorem Mark.byte_injective {m n : Mark} (h : m.byte = n.byte) : m = n := by
  cases m <;> cases n <;> first | rfl | (revert h; decide)

/-- Added to every number of one byte. -/
def bias : UInt8 := 0x20

/-- Offsets are written in groups of this many bits. -/
def groupBits : Nat := 6

def groupSize : Nat := 64

/-- The size of the constant that stands for a space. -/
def spaceConstantSize : UInt64 := 8

/-- The parts of a record that begin with a mark. -/
inductive Part where
  | record
  | operation
  | operand
deriving Repr, DecidableEq

def Part.label : Part → String
  | .record => "inst or unimpl"
  | .operation => "op"
  | .operand => "operand"

inductive Quantity where
  | spaceIndex
  | size
  | opcode
deriving Repr, DecidableEq

def Quantity.label : Quantity → String
  | .spaceIndex => "space index"
  | .size => "size"
  | .opcode => "opcode"

inductive Error where
  | wrongMark (expected : Part) (found : UInt8) (position : Nat)
  | cutShort (position : Nat)
  | tooLong (position : Nat)
  | strayByte (byte : UInt8) (position : Nat)
  | unknownSpace (index : Nat)
  | opcode (cause : Opcode.Error)
  | tooLarge (quantity : Quantity) (value : UInt64)
deriving Repr, DecidableEq

def Error.message : Error → String
  | .wrongMark expected found position =>
    s!"expected {expected.label} at position {position}, found {Word.hexByte found}"
  | .cutShort position => s!"packed p-code truncated at position {position}"
  | .tooLong position => s!"bad packed offset at position {position}"
  | .strayByte byte position =>
    s!"invalid packed byte {Word.hexByte byte} at position {position}"
  | .unknownSpace index => s!"space index {index} is not defined"
  | .opcode cause => cause.message
  | .tooLarge quantity value =>
    s!"{quantity.label} of {value.toNat} cannot be packed into a single byte"

/-- What one record stands for: the operations of an instruction, or an instruction of which only the
length is known. -/
inductive Record where
  | decoded (block : Block)
  | unimplemented (length : UInt64)
deriving Repr, DecidableEq

end Pcode.Wire
