import Pcode.Ordered
import Pcode.Registry.Change

/-!
# Joined values of a registry

A joined value is made on the first request for its pieces and found again on every later one.
Joined values are placed one after the other in their space, each on a multiple of sixteen.
-/
namespace Pcode.Registry

/-- Joined values start on multiples of this many bytes. -/
def joinUnit : UInt64 := 16

def isJoinable (r : Registry) (id : SpaceId) : Bool :=
  (r.find? id).any fun s => s.purpose.isJoinable

/-- The joined value of exactly these pieces. -/
def joinOf? (r : Registry) (pieces : List Varnode) : Option Joined :=
  (Ordered.find? Joined.order pieces r.joinIndex).bind fun i => r.joins[i]?

/-- Adds a joined value; the next one is placed from `joinNext` on. -/
def addJoin (r : Registry) (value : Joined) (joinNext : UInt64) : Registry :=
  { r with
    joins := r.joins ++ [value]
    joinIndex := Ordered.place Joined.order value.pieces r.joins.length r.joinIndex
    joinNext }

/-- An action that may need a new joined value. -/
abbrev Joining := Action Registry (Failure Joined.Error)

/-- A joined value of these pieces behind the last one, and where the next one is then placed. -/
def planJoin (r : Registry) (space : SpaceId) (pieces : List Varnode) (logical : UInt64) :
    Except (Failure Joined.Error) (Joined × UInt64) := do
  let size ← Joined.sizeFor pieces logical
  let room ← Failure.ofChecked (Word.alignUp size joinUnit)
  let joinNext ← Failure.ofChecked (Word.add r.joinNext room)
  return (⟨pieces, ⟨space, r.joinNext, size⟩⟩, joinNext)

/-- Places a joined value of these pieces behind the last one. -/
def pushJoin (space : SpaceId) (pieces : List Varnode) (logical : UInt64) : Joining Joined := do
  let r ← get
  let (value, joinNext) ← r.planJoin space pieces logical
  set (r.addJoin value joinNext)
  return value

/-- The joined value of these pieces, made if this is the first request for them. The logical size
matters then only. -/
def join (pieces : List Varnode) (logical : UInt64) : Joining Joined := do
  let r ← get
  match r.idInRole? .joins with
  | none => throw (.refused .noSpace)
  | some space =>
    if !pieces.all fun p => r.isJoinable p.space then throw (.refused .unjoinable)
    match r.joinOf? pieces with
    | some value => return value
    | none => pushJoin space pieces logical

/-- The last joined value that starts no later than `offset`. -/
def lastJoin? (r : Registry) (offset : UInt64) : Option Joined :=
  match Ordered.partitionPoint (fun v => v.whole.offset ≤ offset) r.joins with
  | 0 => none
  | n + 1 => r.joins[n]?

/-- The joined value whose place covers `offset`. -/
def joinAt (r : Registry) (offset : UInt64) : Checked (Option Joined) := do
  match r.lastJoin? offset with
  | none => return none
  | some v =>
    let room ← Word.alignUp v.whole.size joinUnit
    let inside ← Word.sub offset v.whole.offset
    return if inside < room then some v else none

/-- The address of the joined value of these pieces. -/
def joinAddress (pieces : List Varnode) (logical : UInt64) : Joining Address := do
  let value ← join pieces logical
  return value.whole.address

/-- The address of a wider view of the `size` bytes at `real`. -/
def widen (real : Address) (size logical : UInt64) : Joining Address :=
  if logical = size then return real else joinAddress [.ofAddress real size] logical

/-- The address of two pieces that need not be joined: they adjoin in memory, or in registers that
are not reverse justified. -/
def adjoined? (r : Registry) (hi : Address) (hiSize : UInt64) (lo : Address) (loSize : UInt64)
    (hiSpace loSpace : Space) : Option Address :=
  let mapped := hiSpace.purpose == .based || loSpace.purpose == .based ||
    some hi.space == r.defaultId || some lo.space == r.defaultId
  if hi.adjoins hiSize lo loSize hiSpace.info &&
      (mapped || !hiSpace.info.reversesJustification) then
    match hiSpace.info.byteOrder with
    | .big => some hi
    | .little => some lo
  else none

/-- The address of the value formed by the bytes at `hi`, the more significant ones, and those at
`lo`. Pieces that adjoin are addressed where they are, if they can be. -/
def concat (hi : Address) (hiSize : UInt64) (lo : Address) (loSize : UInt64) :
    Joining Address := do
  let r ← get
  match r.find? hi.space, r.find? lo.space with
  | some hiSpace, some loSpace =>
    if !(hiSpace.purpose.isJoinable && loSpace.purpose.isJoinable) then
      throw (.refused .unjoinable)
    match r.adjoined? hi hiSize lo loSize hiSpace loSpace with
    | some address => return address
    | none => joinAddress [.ofAddress hi hiSize, .ofAddress lo loSize] 0
  | _, _ => throw (.refused .unjoinable)

end Pcode.Registry
