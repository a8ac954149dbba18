import Pcode.Config.Fault
import Pcode.Joined
import Pcode.Spaces.Forms

/-!
# The space registry

A registry owns the address spaces of a processor model, in the order of their indices, and the
joined values made over them. Spaces are found by index, handle, name, shortcut or role. The
constant space is always there and has index zero.

This module holds the registry and how it is read; the operations that change it are actions in the
modules beside it.
-/
namespace Pcode

/-- The address that a constant stands for, with the whole encoding of the constant. -/
structure Resolution where
  address : Address
  encoding : UInt64
deriving Repr, DecidableEq

/-- A rule of one architecture for turning a constant of `size` bytes, observed at `point`, into an
address. The size is zero when it is not known. -/
abbrev Resolver := (value size : UInt64) → (point : Address) → Option Resolution

namespace Resolver

/-- Constants of `size` bytes are offsets into the segment that `mask` selects of the point where
they occur. -/
def segmented (target : SpaceId) (size mask : UInt64) : Resolver := fun value asked point =>
  if asked = size then
    let offset := (point.offset &&& mask) ||| value
    some ⟨⟨target, offset⟩, offset⟩
  else none

end Resolver

/-- The roles that at most one space of a registry has. -/
inductive Role where
  | temporaries
  | callSpecs
  | opReferences
  | joins
  | stack
deriving Repr, DecidableEq

namespace Role

/-- The role that a space takes by its purpose, or as a based space by its name. -/
def ofInfo? (s : SpaceInfo) : Option Role :=
  match s.purpose with
  | .temporary => some .temporaries
  | .callSpec => some .callSpecs
  | .opReference => some .opReferences
  | .joined => some .joins
  | .based => if s.name = "stack" then some .stack else none
  | .constant | .processor => none

end Role

/-- The name that every space of a purpose must have, if there is one. -/
def Purpose.reservedName? : Purpose → Option String
  | .temporary => some "unique"
  | .callSpec => some "fspec"
  | .opReference => some "iop"
  | .joined => some "join"
  | .constant | .processor | .based => none

structure Registry where
  spaces : List Space
  resolvers : List (Option Resolver)
  names : List (String × SpaceId)
  shortcuts : List (Char × SpaceId)
  roles : List (Role × SpaceId)
  defaultId : Option SpaceId
  joins : List Joined
  /-- The position of each joined value, by increasing pieces. -/
  joinIndex : List (List Varnode × Nat)
  /-- Where the next joined value is placed. -/
  joinNext : UInt64

namespace Registry

def size (r : Registry) : Nat := r.spaces.length

def nextIndex (r : Registry) : UInt64 := UInt64.ofNat r.size

def at? (r : Registry) (index : Nat) : Option Space := r.spaces[index]?

def find? (r : Registry) (id : SpaceId) : Option Space := r.at? id.index

def idNamed? (r : Registry) (name : String) : Option SpaceId := r.names.lookup name

def named? (r : Registry) (name : String) : Option Space := (r.idNamed? name).bind r.find?

def withShortcut? (r : Registry) (shortcut : Char) : Option Space :=
  (r.shortcuts.lookup shortcut).bind r.find?

def idInRole? (r : Registry) (role : Role) : Option SpaceId := r.roles.lookup role

def inRole? (r : Registry) (role : Role) : Option Space := (r.idInRole? role).bind r.find?

def default? (r : Registry) : Option Space := r.defaultId.bind r.find?

def pointerSize? (r : Registry) : Option UInt64 := r.default?.map fun s => s.info.pointerSize

/-- The space that a constant stands for. -/
def denoted? (r : Registry) (value : UInt64) : Option Space := r.at? value.toNat

/-- The space after the given one in the order of indices, or the first. -/
def after? (r : Registry) (id : Option SpaceId) : Option SpaceId :=
  (r.at? (id.elim 0 fun id => id.index + 1)).map Space.id

/-- Walks on from a space in the order of indices, for at most the given number of steps. -/
def walk (r : Registry) : Nat → Option SpaceId → List SpaceId
  | 0, _ => []
  | n + 1, id =>
    match r.after? id with
    | some next => next :: r.walk n (some next)
    | none => []

/-- The spaces met by walking in the order of indices from the first. -/
def order (r : Registry) : List SpaceId := r.walk r.size none

/-- The address that `value`, observed at `point`, stands for in a space: by the resolver of the
space, or as an offset counted in words. -/
def resolve? (r : Registry) (id : SpaceId) (value size : UInt64) (point : Address) :
    Option Resolution :=
  match r.resolvers[id.index]? with
  | some (some resolver) => resolver value size point
  | _ => (r.find? id).map fun s => ⟨⟨id, s.info.wrap (s.info.byteOffset value)⟩, value⟩

/-- Changes the description of one space; a handle of no space changes nothing. -/
def modifyInfo (r : Registry) (id : SpaceId) (f : SpaceInfo → SpaceInfo) : Registry :=
  { r with spaces := r.spaces.modify id.index (Space.modifyInfo f) }

theorem size_modifyInfo (r : Registry) (id : SpaceId) (f : SpaceInfo → SpaceInfo) :
    (r.modifyInfo id f).size = r.size := by
  simp [modifyInfo, size]

end Registry

end Pcode
