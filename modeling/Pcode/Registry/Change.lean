import Pcode.Registry.Basic
import Pcode.Registry.Shortcut

/-!
# Changing the spaces of a registry

Insertion, the choice of the default space, base registers, narrowing and delays, resolvers, and the
adoption of the spaces of another registry.
-/
namespace Pcode.Registry
open Config (Error)

abbrev Change := Action Registry Error

/-- Appends a space and makes it known by its name, its shortcut and its role. -/
def push (r : Registry) (s : Space) : Registry :=
  let assigned := Shortcut.assign r.shortcuts s
  { r with
    spaces := r.spaces ++ [assigned.1]
    resolvers := r.resolvers ++ [none]
    names := r.names ++ [(s.name, s.id)]
    shortcuts := assigned.2
    roles :=
      match Role.ofInfo? s.info with
      | some role => r.roles ++ [(role, s.id)]
      | none => r.roles }

theorem size_push (r : Registry) (s : Space) : (r.push s).size = r.size + 1 := by
  simp [push, size]

/-- The registry that holds the constant space alone. -/
def start : Registry := push ⟨[], [], [], [], [], none, [], [], 0⟩ (.ofConstants "const" 0)

/-- May the space be inserted? Its index must be the next one, its name the one reserved for its
purpose if there is one, and neither its role nor its name may be taken. -/
def checkInsert (r : Registry) (s : Space) : Except Error Unit := do
  if s.info.index.toNat < r.size then throw (.indexTaken s.info.index)
  if r.size < s.info.index.toNat then throw (.indexSkips s.name r.size s.info.index)
  if s.purpose = .constant then throw (.nameTaken s.name)
  match s.purpose.reservedName? with
  | some name => if s.name ≠ name then throw (.unfit s.name name)
  | none => pure ()
  if (Role.ofInfo? s.info).any fun role => (r.idInRole? role).isSome then
    throw (.nameTaken s.name)
  if (r.idNamed? s.name).isSome then throw (.nameTaken s.name)

def insert (s : Space) : Change SpaceId := do
  let r ← get
  r.checkInsert s
  set (r.push s)
  return s.id

/-- Chooses the default space, once. -/
def chooseDefault (id : SpaceId) : Change Unit := do
  let r ← get
  if r.defaultId.isSome then throw (.broken .oneDefault)
  match r.find? id with
  | none => throw (.unknownSpace id.describe)
  | some s =>
    if s.isConstant then throw (.unfit s.name "default")
    set { r with defaultId := some id }

def reverseJustify (r : Registry) (id : SpaceId) : Registry :=
  r.modifyInfo id fun s => { s with properties := s.properties.insert .reverseJustification }

/-- Sets after how many passes unused values of a space are removed. -/
def setDeadcodeWait (r : Registry) (id : SpaceId) (delay : UInt64) : Registry :=
  r.modifyInfo id fun s => { s with deadcodeWait := delay }

def resolveBy (r : Registry) (id : SpaceId) (resolver : Resolver) : Registry :=
  { r with resolvers := r.resolvers.modify id.index fun _ => some resolver }

def narrow (name : String) (size : UInt64) : Change Unit := do
  let r ← get
  match r.idNamed? name with
  | none => throw (.unknownSpace name)
  | some id => set (r.modifyInfo id fun s => s.narrow size)

/-- The space with a base register, of which `size` bytes are used. A register that is already its
base may be given again. -/
def anchored (s : BasedSpace) (register : Varnode) (size : UInt64) (growsDown : Bool)
    (order : ByteOrder) : Except (Failure Error) BasedSpace := do
  let used ← Failure.ofChecked (BasedSpace.narrowed register size order)
  match s.anchor with
  | some known =>
    if known.used ≠ used ∨ s.growsDown ≠ growsDown then
      throw (.refused (.anchored s.info.name))
    return s
  | none =>
    let properties :=
      if used ≠ register then s.info.properties.insert .truncated else s.info.properties
    return { s with
      info := { s.info with properties }
      anchor := some ⟨used, register⟩
      growsDown }

def anchor (id : SpaceId) (register : Varnode) (size : UInt64) (growsDown : Bool) :
    Action Registry (Failure Error) Unit := do
  let r ← get
  match r.find? register.space with
  | none => throw (.refused (.unknownSpace register.space.describe))
  | some registers =>
    match r.find? id with
    | none => throw (.refused (.unknownSpace id.describe))
    | some (.based s) =>
      let s ← anchored s register size growsDown registers.info.byteOrder
      set { r with spaces := r.spaces.set id.index (.based s) }
    | some s => throw (.refused (.unfit s.name "spacebase"))

/-- Inserts spaces in order, up to the first that is refused. -/
def insertAll : List Space → Change Unit
  | [] => pure ()
  | s :: ss => do
    let _ ← insert s
    insertAll ss

/-- Resolves the constants of every space as another registry does at its position. -/
def takeResolvers (source r : Registry) : Registry :=
  { r with resolvers := r.resolvers.mapIdx fun i known => (source.resolvers[i]?).getD known }

/-- Fills a registry that holds the constant space alone with the spaces, the resolvers and the
default space of another. -/
def adopt (source : Registry) : Change Unit := do
  if (← get).size ≠ 1 then throw (.broken .freshTarget)
  insertAll (source.spaces.drop 1)
  modify (takeResolvers source)
  match source.defaultId with
  | some id => chooseDefault id
  | none => pure ()

end Pcode.Registry
