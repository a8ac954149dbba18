import Pcode.Locations

/-!
# Joined values

A value spread over several locations, most significant piece first, together with the single
location that stands for it. Joined values are identified by their pieces alone.
-/
namespace Pcode

/-- A value spread over `pieces`, and the location that stands for it. -/
structure Joined where
  pieces : List Varnode
  whole : Varnode
deriving Repr, DecidableEq

namespace Joined

inductive Error where
  | noPieces
  | emptyValue
  | notExtended (size logical : UInt64)
  | noSpace
  | unjoinable
deriving Repr, DecidableEq

def Error.message : Error → String
  | .noPieces => "cannot create a join without pieces"
  | .emptyValue => "cannot create a zero size join"
  | .notExtended size logical =>
    s!"single piece join of {size.toNat} bytes requires a larger logical size " ++
      s!"(got {logical.toNat})"
  | .noSpace => "join space not defined"
  | .unjoinable => "pieces can only be joined from processor or spacebase spaces"

/-- Compares sequences of pieces piece by piece, each by space, offset and size; a sequence comes
before its extensions. -/
def order : List Varnode → List Varnode → Ordering
  | [], [] => .eq
  | [], _ :: _ => .lt
  | _ :: _, [] => .gt
  | p :: ps, q :: qs =>
    (compare p.space.index q.space.index).then <|
      (compare p.offset q.offset).then <|
        (compare p.size q.size).then <|
          order ps qs

instance : Ord Joined := ⟨fun v w => order v.pieces w.pieces⟩

def count (v : Joined) : Nat := v.pieces.length

/-- Is it one piece viewed as a wider value? -/
def isWidening (v : Joined) : Bool := v.count == 1

def totalSize (pieces : List Varnode) : Checked UInt64 :=
  pieces.foldlM (fun total p => Word.add total p.size) 0

/-- The size of the joined value: that of all pieces, or `logical` when larger. A single piece must
be extended. -/
def sizeFor (pieces : List Varnode) (logical : UInt64) : Except (Failure Error) UInt64 := do
  if pieces.isEmpty then throw (.refused .noPieces)
  let total ← Failure.ofChecked (totalSize pieces)
  let size := max total logical
  if size = 0 then throw (.refused .emptyValue)
  if pieces.length = 1 ∧ size ≤ total then throw (.refused (.notExtended total logical))
  return size

end Joined

end Pcode
