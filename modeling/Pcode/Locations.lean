import Pcode.Spaces.Info

/-!
# Addresses and varnodes

An address is an offset in a space; a varnode is a run of bytes at an address. Both compare by
space, then offset, then size.
-/
namespace Pcode

structure Address where
  space : SpaceId
  offset : UInt64
deriving Repr, DecidableEq, Ord

namespace Address

/-- The address of `offset` counted around the space. -/
def ofOffset (s : SpaceInfo) (offset : UInt64) : Address := ⟨s.id, s.wrap offset⟩

def constant (value : UInt64) : Address := ⟨.constant, value⟩

def denoting (id : SpaceId) : Address := .constant id.value.toUInt64

/-- Do `size` bytes at `hi` adjoin `loSize` bytes at `lo`, with those at `hi` the more significant
in the byte order of the space? -/
def adjoins (hi : Address) (size : UInt64) (lo : Address) (loSize : UInt64) (s : SpaceInfo) :
    Bool :=
  hi.space == lo.space &&
    match s.byteOrder with
    | .big => s.wrap (hi.offset + size) == lo.offset
    | .little => s.wrap (lo.offset + loSize) == hi.offset

end Address

structure Varnode where
  space : SpaceId
  offset : UInt64
  size : UInt64
deriving Repr, DecidableEq, Ord

namespace Varnode

def ofAddress (a : Address) (size : UInt64) : Varnode := ⟨a.space, a.offset, size⟩

def address (v : Varnode) : Address := ⟨v.space, v.offset⟩

@[simp] theorem ofAddress_address (v : Varnode) : ofAddress v.address v.size = v := rfl

@[simp] theorem address_ofAddress (a : Address) (size : UInt64) :
    (ofAddress a size).address = a := rfl

/-- Do two varnodes of one space share bytes? Ends are cut off at the largest word. -/
def overlaps (v w : Varnode) : Bool :=
  v.space == w.space && v.offset < Word.addSaturating w.offset w.size &&
    w.offset < Word.addSaturating v.offset v.size

end Varnode

end Pcode
