import Pcode.Locations
import Pcode.Operations.Table

/-!
# Operations and instructions

One operation of the intermediate language, the block of operations that one machine instruction
stands for, and the text of one machine instruction.
-/
namespace Pcode

/-- One operation: what it computes, where the result goes, and from what. -/
structure Op where
  opcode : Opcode
  output : Option Varnode
  inputs : List Varnode
deriving Repr, DecidableEq

/-- An operation as it is passed on, with the address of its instruction. -/
structure Emission where
  address : Address
  op : Op
deriving Repr, DecidableEq

/-- The operations of one machine instruction of `length` bytes. -/
structure Block where
  address : Address
  operations : List Op
  length : UInt64
deriving Repr, DecidableEq

namespace Block

/-- No operations, and no bytes yet. -/
def empty (address : Address) : Block := ⟨address, [], 0⟩

/-- Passes the operations on, in order, with the address of the block. -/
def emit (b : Block) : List Emission := b.operations.map fun op => ⟨b.address, op⟩

/-- Appends operations passed on by another source; their addresses are not kept. -/
def collect (b : Block) (emitted : List Emission) : Block :=
  { b with operations := b.operations ++ emitted.map Emission.op }

/-- What a block passes on is collected with its operations in order. -/
theorem operations_collect_emit (b c : Block) :
    (b.collect c.emit).operations = b.operations ++ c.operations := by
  simp [collect, emit, Function.comp_def]

end Block

structure Line where
  address : Address
  mnemonic : String
  operands : String
deriving Repr, DecidableEq

/-- The text of one machine instruction of `length` bytes. -/
structure Assembly where
  address : Address
  mnemonic : String
  operands : String
  length : UInt64
deriving Repr, DecidableEq

namespace Assembly

def empty (address : Address) : Assembly := ⟨address, "", "", 0⟩

/-- Takes the text that was passed on last, together with its address. -/
def collect (a : Assembly) (emitted : List Line) : Assembly :=
  emitted.foldl (fun a line => { a with
    address := line.address
    mnemonic := line.mnemonic
    operands := line.operands }) a

end Assembly

end Pcode
