import Pcode.Wire.Record

/-!
# Writing records

A writer appends to the bytes written so far. A record is put together apart and appended when it is
complete, so a writer that fails has written nothing.
-/
namespace Pcode.Wire

/-- An action that appends to the bytes written so far. -/
abbrev Writer := Action (List UInt8) Error

namespace Writer

def push (bytes : List UInt8) : Writer Unit := modify (· ++ bytes)

/-- Writes apart from what is there, and appends the bytes when the writer succeeds. -/
def whole (record : Writer Unit) : Writer Unit := fun bytes =>
  match record.exec [] with
  | (.ok (), written) => (.ok (), bytes ++ written)
  | (.error cause, _) => (.error cause, bytes)

/-- A complete record fails without a trace. -/
theorem whole_of_error {record : Writer Unit} {bytes : List UInt8} {cause : Error}
    (h : ((whole record).exec bytes).1 = .error cause) : ((whole record).exec bytes).2 = bytes := by
  change (whole record bytes).1 = _ at h
  change (whole record bytes).2 = _
  revert h
  unfold whole
  rcases record.exec [] with ⟨_ | _, _⟩ <;> simp

def biased (quantity : Quantity) (value : UInt64) : Except Error UInt8 :=
  if value.toNat + bias.toNat < UInt8.size then .ok (value.toUInt8 + bias)
  else .error (.tooLarge quantity value)

/-- The groups of an offset, least significant first; zero has none. -/
def groups (offset : Nat) : List UInt8 :=
  if offset = 0 then []
  else (bias + UInt8.ofNat (offset % groupSize)) :: groups (offset / groupSize)
termination_by offset
decreasing_by exact Nat.div_lt_self (by omega) (by decide)

def offset (value : UInt64) : Writer Unit := push (groups value.toNat ++ [Mark.stop.byte])

def varnode (v : Varnode) : Writer Unit := do
  let space ← biased .spaceIndex v.space.value.toUInt64
  let size ← biased .size v.size
  push [Mark.varnode.byte, space]
  offset v.offset
  push [size]

def spaceId (id : SpaceId) : Writer Unit := do
  let space ← biased .spaceIndex id.value.toUInt64
  push [Mark.space.byte, space]

def varnodes : List Varnode → Writer Unit
  | [] => pure ()
  | v :: vs => do
    varnode v
    varnodes vs

/-- An operation: its opcode, its output or the mark that there is none, and its inputs. -/
def operation (o : Op) : Writer Unit := whole do
  push [Mark.operation.byte]
  push [← biased .opcode o.opcode.number.toUInt64]
  match o.output with
  | some v => varnode v
  | none => push [Mark.nothing.byte]
  varnodes o.inputs
  push [Mark.stop.byte]

def operations : List Op → Writer Unit
  | [] => pure ()
  | o :: os => do
    operation o
    operations os

/-- The record of an instruction: its length, its address and its operations. -/
def instruction (b : Block) : Writer Unit := whole do
  push [Mark.instruction.byte]
  offset b.length
  push [← biased .spaceIndex b.address.space.value.toUInt64]
  offset b.address.offset
  operations b.operations
  push [Mark.stop.byte]

/-- The record of an instruction of which only the length is known. -/
def unimplemented (length : UInt64) : Writer Unit := do
  push [Mark.unimplemented.byte]
  offset length

def record : Record → Writer Unit
  | .decoded block => instruction block
  | .unimplemented length => unimplemented length

end Writer

end Pcode.Wire
