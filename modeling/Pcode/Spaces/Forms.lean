import Pcode.Locations

/-!
# The forms of address space

Constants, temporaries, processor memory and registers, spaces relative to a base register, and the
three spaces of references: to descriptions of calls, to operations and to joined values.
-/
namespace Pcode

/-- The base register of a space: as used for addressing, and as first given. -/
structure Anchor where
  used : Varnode
  whole : Varnode
deriving Repr, DecidableEq, Ord

/-- A space whose offsets are relative to a base register, such as a stack frame. -/
structure BasedSpace where
  info : SpaceInfo
  container : SpaceId
  anchor : Option Anchor
  growsDown : Bool
deriving Repr, DecidableEq, Ord

/-- An address space. The form is chosen where a space is made; the purpose that its description
states need not agree with it. -/
inductive Space where
  | constant (info : SpaceInfo)
  | temporary (info : SpaceInfo)
  | processor (info : SpaceInfo)
  | based (space : BasedSpace)
  | callSpec (info : SpaceInfo)
  | opReference (info : SpaceInfo)
  | joined (info : SpaceInfo)
deriving Repr, DecidableEq, Ord

namespace BasedSpace

/-- The least significant `size` bytes of a register, when that is fewer than it has. -/
def narrowed (register : Varnode) (size : UInt64) (order : ByteOrder) : Checked Varnode :=
  if 0 < size ∧ size < register.size then
    match order with
    | .big => do
      let left ← Word.sub register.size size
      let offset ← Word.add register.offset left
      return { register with offset, size }
    | .little => .ok { register with size }
  else .ok register

/-- The base registers as used for addressing; there is at most one. -/
def bases (s : BasedSpace) : List Varnode := (s.anchor.map Anchor.used).toList

def wholeBases (s : BasedSpace) : List Varnode := (s.anchor.map Anchor.whole).toList

end BasedSpace

namespace Space

def info : Space → SpaceInfo
  | .constant s | .temporary s | .processor s | .callSpec s | .opReference s | .joined s => s
  | .based s => s.info

/-- Changes the description of the space and keeps its form. -/
def modifyInfo (f : SpaceInfo → SpaceInfo) : Space → Space
  | .constant s => .constant (f s)
  | .temporary s => .temporary (f s)
  | .processor s => .processor (f s)
  | .based s => .based { s with info := f s.info }
  | .callSpec s => .callSpec (f s)
  | .opReference s => .opReference (f s)
  | .joined s => .joined (f s)

@[simp] theorem info_modifyInfo (f : SpaceInfo → SpaceInfo) (s : Space) :
    (s.modifyInfo f).info = f s.info := by
  cases s <;> rfl

def id (s : Space) : SpaceId := s.info.id

def name (s : Space) : String := s.info.name

def purpose (s : Space) : Purpose := s.info.purpose

def isConstant : Space → Bool
  | .constant _ => true
  | _ => false

def based? : Space → Option BasedSpace
  | .based s => some s
  | _ => none

/-- Properties of a space that holds values of the program, in the given byte order. -/
def valueProperties (order : ByteOrder) : Properties :=
  .ofList ([.heritaged, .doesDeadcode] ++ if order.isBig then [.bigEndian] else [])

def ofConstants (name : String) (index : UInt64) : Space :=
  .constant (.ofSizes .constant name 8 1 index .none 0)

def ofTemporaries (name : String) (index : UInt64) (order : ByteOrder) : Space :=
  .temporary (.ofSizes .temporary name 4 1 index
    ((valueProperties order).insert .hasPhysical) 0)

/-- Memory or registers of the processor. -/
def ofMemory (name : String) (index pointerSize wordSize : UInt64) (order : ByteOrder)
    (delay : UInt64) : Space :=
  .processor (.ofSizes .processor name pointerSize wordSize index
    ((valueProperties order).insert .hasPhysical) delay)

def ofCallSpecs (index : UInt64) : Space :=
  .callSpec (.ofSizes .callSpec "fspec" 8 1 index .none 1)

def ofOpReferences (index : UInt64) : Space :=
  .opReference (.ofSizes .opReference "iop" 8 1 index .none 1)

def ofJoins (index : UInt64) : Space :=
  .joined (.ofSizes .joined "join" 4 1 index .none 0)

/-- A space relative to a base register, with the byte order and word size of the space that
contains it. -/
def within (container : Space) (name : String) (index pointerSize delay : UInt64) : Space :=
  .based
    { info := .ofSizes .based name pointerSize container.info.wordSize index
        (valueProperties container.info.byteOrder) delay
      container := container.id
      anchor := none
      growsDown := true }

end Space

end Pcode
