import Pcode.FloatLayout
import Pcode.RegisterFile
import Pcode.Registry.Change
import Pcode.Wire.Record

/-!
# Processor models

What every architecture has: its spaces, registers and user operations, its float layouts, and the
byte order and alignment of its instructions, which are fixed once the model is frozen. Only a
frozen model decodes instructions.
-/
namespace Pcode

structure Processor where
  registry : Registry
  registers : RegisterFile
  userOps : List String
  floats : List FloatLayout
  byteOrder : ByteOrder
  alignment : UInt64
  /-- The first offset of the space of temporaries that is free. -/
  firstTemporary : UInt64
  isFrozen : Bool

namespace Processor

inductive Defect where
  | cutShort
  | unknownCode (byte : UInt8)
  | noRegister (number : UInt8)
  | noStackPointer
  | unliftedRecord (length : UInt64)
deriving Repr, DecidableEq

def Defect.message : Defect → String
  | .cutShort => "truncated instruction"
  | .unknownCode byte => s!"unknown opcode {Word.hexByte byte}"
  | .noRegister number => s!"invalid register r{number.toNat}"
  | .noStackPointer => "no stack pointer"
  | .unliftedRecord length => s!"unimplemented record of {length.toNat} bytes"

inductive Error where
  /-- Of the instruction only the length is known. -/
  | unlifted (address : Address) (length : UInt64)
  | defective (address : Address) (defect : Defect)
  | misaligned (offset alignment : UInt64)
  | notFrozen
  | alreadyFrozen
  | config (cause : Config.Error)
  | join (cause : Joined.Error)
  | wire (cause : Wire.Error)
deriving Repr, DecidableEq

def Error.message : Error → String
  | .unlifted address length =>
    let offset := Word.hex address.offset.toNat
    s!"instruction at {offset} is not implemented ({length.toNat} bytes)"
  | .defective address defect =>
    let offset := Word.hex address.offset.toNat
    s!"bad instruction data at {offset}: {defect.message}"
  | .misaligned offset alignment =>
    let offset := Word.hex offset.toNat
    s!"address `{offset}` misaligned; expected alignment is {alignment.toNat}"
  | .notFrozen => "translator used before initialisation"
  | .alreadyFrozen => "processor properties are fixed once the translator is initialised"
  | .config cause => s!"configuration deserialisation error: {cause.message}"
  | .join cause => cause.message
  | .wire cause => cause.message

/-- A model that knows the constant space and nothing else. -/
def start : Processor where
  registry := .start
  registers := .empty
  userOps := []
  floats := []
  byteOrder := .little
  alignment := 1
  firstTemporary := 0
  isFrozen := false

def setByteOrder (byteOrder : ByteOrder) : Action Processor Error Unit := do
  let p ← get
  if p.isFrozen then throw .alreadyFrozen
  set { p with byteOrder }

/-- Sets the alignment of a model that is not frozen. It is at least one. -/
def setAlignment (alignment : UInt64) : Action Processor Error Unit := do
  let p ← get
  if p.isFrozen then throw .alreadyFrozen
  set { p with alignment := max alignment 1 }

/-- Keeps the temporaries below `offset` for the model; what is kept is never given back. -/
def keepTemporaries (p : Processor) (offset : UInt64) : Processor :=
  if p.firstTemporary < offset then { p with firstTemporary := offset } else p

theorem firstTemporary_keepTemporaries (p : Processor) (offset : UInt64) :
    (p.keepTemporaries offset).firstTemporary.toNat =
      max p.firstTemporary.toNat offset.toNat := by
  unfold keepTemporaries
  split <;> rename_i h <;> rw [UInt64.lt_iff_toNat_lt] at h
  · change offset.toNat = _
    omega
  · omega

def float? (p : Processor) (size : UInt64) : Option FloatLayout :=
  p.floats.find? fun f => f.size == size

def addFloat (p : Processor) (f : FloatLayout) : Processor := { p with floats := p.floats ++ [f] }

/-- Takes single and double precision when no layout is known. -/
def addUsualFloats (p : Processor) : Processor :=
  if p.floats.isEmpty then { p with floats := [.single, .double] } else p

def freeze (p : Processor) : Processor := { p with isFrozen := true }

def checkPlace (p : Processor) (address : Address) : Except Error Unit := do
  if !p.isFrozen then throw .notFrozen
  if p.alignment ≠ 1 ∧ address.offset % p.alignment ≠ 0 then
    throw (.misaligned address.offset p.alignment)

/-! ## Parts of a model -/

def onRegistry {ε α : Type} (x : Action Registry ε α) : Action Processor ε α :=
  Action.focus Processor.registry (fun p registry => { p with registry }) x

def onRegisters {ε α : Type} (x : Action RegisterFile ε α) : Action Processor ε α :=
  Action.focus Processor.registers (fun p registers => { p with registers }) x

def addRegister (name : String) (location : Varnode) : Action Processor Error Unit :=
  onRegisters ((RegisterFile.define name location).mapCause .config)

end Processor

end Pcode
