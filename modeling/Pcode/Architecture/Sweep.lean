import Pcode.Architecture.Basic
import Pcode.Listing
import Pcode.Wire.Writer

/-!
# Linear sweeps

Lifts instruction after instruction from the start of some bytes, lists each, and writes the records
of what was lifted. An instruction of which only the length is known is passed over; any other fault
ends the sweep.
-/
namespace Pcode

inductive SweepLine where
  /-- The operations of an instruction. -/
  | text (listing : String)
  /-- The operations that were just listed have no record. -/
  | unwritten (cause : Wire.Error)
  /-- An instruction of which only the length is known. -/
  | unlifted (length : UInt64)
  /-- The fault that ends the sweep. -/
  | failed (cause : Processor.Error)
deriving Repr, DecidableEq

structure Sweep where
  lines : List SweepLine
  records : List UInt8
deriving Repr, DecidableEq

namespace Sweep
variable {β : Type} [Architecture β]

/-- What one instruction adds to a sweep, and its length unless the sweep ends there. -/
def step (b : β) (address : Address) (bytes : List UInt8) (records : List UInt8) :
    Sweep × Option UInt64 :=
  match Architecture.lift b address bytes with
  | .ok block =>
    let text := SweepLine.text ((Architecture.processor b).registry.showBlock block)
    match (Wire.Writer.record (.decoded block)).exec records with
    | (.ok (), records) => (⟨[text], records⟩, some block.length)
    | (.error cause, records) => (⟨[text, .unwritten cause], records⟩, some block.length)
  | .error (.unlifted _ length) =>
    let written := (Wire.Writer.record (.unimplemented length)).exec records
    (⟨[.unlifted length], written.2⟩, some length)
  | .error cause => (⟨[.failed cause], records⟩, none)

/-- Sweeps the bytes from `address` on, behind the records written already. Every step passes over
at least one byte; the first argument bounds their number. -/
def run (b : β) : Nat → Address → List UInt8 → List UInt8 → Sweep
  | 0, _, _, records => ⟨[], records⟩
  | n + 1, address, bytes, records =>
    if bytes.isEmpty then ⟨[], records⟩
    else
      match step b address bytes records with
      | (done, none) => done
      | (done, some length) =>
        let length := max length 1
        let rest := run b n { address with offset := address.offset + length }
          (bytes.drop length.toNat) done.records
        ⟨done.lines ++ rest.lines, rest.records⟩

def ofBytes (b : β) (address : Address) (bytes : List UInt8) : Sweep :=
  run b bytes.length address bytes []

end Sweep

end Pcode
