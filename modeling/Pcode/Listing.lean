import Pcode.Blank
import Pcode.Operations.Block
import Pcode.Registry.Basic

/-!
# Listings

Addresses, varnodes, operations and instructions as text. A registry supplies the names of spaces;
a space it does not hold is shown by its handle.
-/
namespace Pcode

namespace Registry

def showSpace (r : Registry) (id : SpaceId) : String :=
  match r.find? id with
  | some s => s.name
  | none => id.describe

def showAddress (r : Registry) (a : Address) : String :=
  r.showSpace a.space ++ ":" ++ Word.hex a.offset.toNat

/-- Constants are shown by their value, other varnodes by space and offset. -/
def showVarnode (r : Registry) (v : Varnode) : String :=
  let offset := Word.hex v.offset.toNat
  if (r.find? v.space).any Space.isConstant then
    s!"Constant(value={offset}, size={v.size.toNat})"
  else
    let space := r.showSpace v.space
    s!"Varnode(space={space}, offset={offset}, size={v.size.toNat})"

/-- The mnemonic, and in parentheses the output and the inputs that there are. -/
def showOp (r : Registry) (op : Op) : String :=
  let output :=
    match op.output with
    | some v => ["out=" ++ r.showVarnode v]
    | none => []
  let inputs :=
    if op.inputs.isEmpty then []
    else ["in=[" ++ String.intercalate ", " (op.inputs.map r.showVarnode) ++ "]"]
  op.opcode.mnemonic ++ "(" ++ String.intercalate ", " (output ++ inputs) ++ ")"

def twoDigits (n : Nat) : String := if n < 10 then s!"0{n}" else toString n

/-- One line an operation, numbered from zero; a block without operations is one line. -/
def showBlock (r : Registry) (b : Block) : String :=
  let address := r.showAddress b.address
  if b.operations.isEmpty then address ++ ".00: Nop"
  else
    String.intercalate "\n" <|
      b.operations.mapIdx fun i op => s!"{address}.{twoDigits i}: {r.showOp op}"

/-- The address, the mnemonic and the operands, if any, without the blanks around them. -/
def showAssembly (r : Registry) (a : Assembly) : String :=
  r.showAddress a.address ++ " " ++ trimText a.mnemonic ++
    if a.operands.isEmpty then "" else " " ++ trimText a.operands

end Registry

end Pcode
