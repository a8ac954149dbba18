import Pcode.Registry.Basic
import Pcode.Wire.Record

/-!
# Reading records

A reader moves a cursor over bytes. What it has read before it fails stays read, so the cursor then
stands behind the byte that was refused. Spaces are looked up in a registry.
-/
namespace Pcode.Wire

/-- The bytes still to be read, and how many were read before them. -/
structure Cursor where
  position : Nat
  rest : List UInt8
deriving Repr, DecidableEq

namespace Cursor

def ofBytes (bytes : List UInt8) : Cursor := ⟨0, bytes⟩

def isEmpty (c : Cursor) : Bool := c.rest.isEmpty

end Cursor

abbrev Reader := Action Cursor Error

namespace Reader

def position : Reader Nat := return (← get).position

/-- The next byte, which stays unread. -/
def peek : Reader UInt8 := do
  let c ← get
  match c.rest with
  | [] => throw (.cutShort c.position)
  | b :: _ => return b

def next : Reader UInt8 := do
  let c ← get
  match c.rest with
  | [] => throw (.cutShort c.position)
  | b :: bs => do
    set (Cursor.mk (c.position + 1) bs)
    return b

/-- Reads one byte, which must be the mark that the part begins with. -/
def mark (wanted : Mark) (part : Part) : Reader Unit := do
  let start ← position
  let found ← next
  if found ≠ wanted.byte then throw (.wrongMark part found start)

def number : Reader UInt8 := do
  let start ← position
  let byte ← next
  if byte < bias then throw (.strayByte byte start)
  return byte - bias

/-- Reads the index of a space that the registry holds. -/
def space (r : Registry) : Reader SpaceId := do
  let index ← number
  match r.at? index.toNat with
  | some s => return s.id
  | none => throw (.unknownSpace index.toNat)

/-- Reads the groups of an offset that begins at `start`; those already read take `shift` bits and
are worth `value`. The first argument bounds the number of bytes. -/
def groups (start : Nat) : Nat → Nat → UInt64 → Reader UInt64
  | 0, _, _ => throw (.tooLong start)
  | n + 1, shift, value => do
    let here ← position
    let byte ← next
    if byte = Mark.stop.byte then return value
    if byte < bias ∨ Mark.stop.byte < byte then throw (.strayByte byte here)
    if 64 ≤ shift then throw (.tooLong start)
    let group := (byte - bias).toUInt64
    if 64 < shift + groupBits ∧ group >>> UInt64.ofNat (64 - shift) ≠ 0 then
      throw (.tooLong start)
    groups start n (shift + groupBits) (value ||| group <<< UInt64.ofNat shift)

/-- Reads an offset: eleven groups at most, and the mark of their end. -/
def offset : Reader UInt64 := do
  groups (← position) 12 0 0

/-- Reads an operand. A space stands for the constant that denotes it. -/
def varnode (r : Registry) : Reader Varnode := do
  let start ← position
  let found ← next
  if found = Mark.varnode.byte then
    let id ← space r
    let offset ← offset
    let size ← number
    return ⟨id, offset, size.toUInt64⟩
  else if found = Mark.space.byte then
    return .ofAddress (.denoting (← space r)) spaceConstantSize
  else throw (.wrongMark .operand found start)

def opcode : Reader Opcode := do
  let number ← number
  (Opcode.ofNumber number).mapError Error.opcode

/-- Reads items up to the mark of their end. Each item takes at least one byte; the first argument
bounds their number. -/
def untilStop {α : Type} (item : Reader α) : Nat → Reader (List α)
  | 0 => do throw (.cutShort (← position))
  | n + 1 => do
    if (← peek) = Mark.stop.byte then
      let _ ← next
      return []
    else
      let first ← item
      return first :: (← untilStop item n)

def items {α : Type} (item : Reader α) : Reader (List α) := do
  untilStop item ((← get).rest.length + 1)

/-- Reads the output of an operation, or the mark that there is none. -/
def output (r : Registry) : Reader (Option Varnode) := do
  if (← peek) = Mark.nothing.byte then
    let _ ← next
    return none
  else return some (← varnode r)

def operation (r : Registry) : Reader Op := do
  mark .operation .operation
  let opcode ← opcode
  let output ← output r
  let inputs ← items (varnode r)
  return ⟨opcode, output, inputs⟩

def record (r : Registry) : Reader Record := do
  let start ← position
  let found ← next
  if found = Mark.unimplemented.byte then return .unimplemented (← offset)
  else if found = Mark.instruction.byte then
    let length ← offset
    let id ← space r
    let offset ← offset
    let operations ← items (operation r)
    return .decoded ⟨⟨id, offset⟩, operations, length⟩
  else throw (.wrongMark .record found start)

/-- Reads one operation and passes it on with the given address, once it is complete. -/
def emit (r : Registry) (address : Address) : Action (Cursor × List Emission) Error Unit := do
  let o ← Action.focus Prod.fst (fun t c => (c, t.2)) (operation r)
  modify fun t => (t.1, t.2 ++ [⟨address, o⟩])

end Reader

end Pcode.Wire
