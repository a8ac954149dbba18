import Pcode.Architecture.Basic
import Pcode.Wire.Reader

/-!
# A relay

An architecture without a machine code of its own: its instructions are records, written by another
architecture.
-/
namespace Pcode

structure Relay where
  processor : Processor

namespace Relay
open Processor (Error)

def start : Relay := ⟨.start⟩

/-- The record at the start of the bytes, where one may be decoded. -/
def record (t : Relay) (address : Address) (bytes : List UInt8) : Except Error Wire.Record := do
  t.processor.checkPlace address
  let answer := (Wire.Reader.record t.processor.registry).exec (.ofBytes bytes)
  answer.1.mapError .wire

def length : Wire.Record → UInt64
  | .decoded block => block.length
  | .unimplemented length => length

/-- The length and the operations of a record, which keep its own address. -/
def lifted (t : Relay) (address : Address) (bytes : List UInt8) :
    Except Error (UInt64 × List Emission) := do
  match ← t.record address bytes with
  | .decoded block => return (block.length, block.emit)
  | .unimplemented length => throw (.unlifted address length)

/-- The length of a record, and as its text the mnemonics of its operations. -/
def printed (t : Relay) (address : Address) (bytes : List UInt8) :
    Except Error (UInt64 × List Line) := do
  match ← t.record address bytes with
  | .decoded block =>
    let names := block.operations.map fun op => op.opcode.mnemonic
    return (block.length, [⟨block.address, "packed", String.intercalate " " names⟩])
  | .unimplemented length => throw (.defective address (.unliftedRecord length))

instance : Architecture Relay where
  processor := Relay.processor
  withProcessor _ processor := ⟨processor⟩
  measure t address bytes := return length (← t.record address bytes)
  emit t address bytes := .ofExcept (t.lifted address bytes)
  print t address bytes := .ofExcept (t.printed address bytes)

end Relay

end Pcode
