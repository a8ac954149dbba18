import Pcode.Config.Documents
import Pcode.Processor.Basic
import Pcode.Registry.Configured

/-!
# Processor models as configured

Fills a model from its configuration documents: byte order and alignment, float layouts, spaces,
narrowings, registers, user operations and the stack pointer, in this order. The whole configuration
is taken or none of it.
-/
namespace Pcode.Processor
open Config (Documents)

abbrev Filling := Action Processor Config.Error

/-- The first tag of a name that the documents must have. -/
def requireTag (d : Documents) (name : String) : Except Config.Error Xml.Element :=
  match d.tag? name with
  | some e => .ok e
  | none => .error (.missingTag name)

/-- Takes byte order, alignment and the first free temporary. -/
def fillProperties (d : Documents) : Filling Unit := do
  let root ← requireTag d "sleigh"
  let big ← root.bool "bigendian"
  let alignment ← root.wordD "align" 1
  let temporary ← root.wordD "uniqbase" 0
  modify fun p =>
    keepTemporaries { p with byteOrder := .ofBig big, alignment := max alignment 1 } temporary

/-- Takes the configured float layouts, or the usual ones. -/
def fillFloats (d : Documents) : Filling Unit := do
  let layouts ← ((d.tags "floatformat").mapM FloatLayout.ofElement : Except Config.Error _)
  modify fun p => addUsualFloats { p with floats := p.floats ++ layouts }

def fillSpaces (d : Documents) : Filling Unit := do
  let spaces ← requireTag d "spaces"
  onRegistry (Registry.fill spaces (← get).byteOrder)

def narrowSpaces : List Xml.Element → Filling Unit
  | [] => pure ()
  | e :: es => do
    let wish ← Narrowing.ofElement e
    onRegistry (Registry.narrow wish.spaceName wish.size)
    narrowSpaces es

def fillRegister (e : Xml.Element) : Filling Unit := do
  e.requireName "register"
  let name ← e.text "name"
  let spaceName ← e.text "space"
  match (← get).registry.named? spaceName with
  | none => throw (.unknownSpace spaceName)
  | some s =>
    let offset ← e.word "offset"
    let size ← e.word "size"
    onRegisters (RegisterFile.define name ⟨s.id, offset, size⟩)

def fillRegisters : List Xml.Element → Filling Unit
  | [] => pure ()
  | e :: es => do
    fillRegister e
    fillRegisters es

/-- Takes user operations, which are numbered from zero on. -/
def fillUserOps : List Xml.Element → Filling Unit
  | [] => pure ()
  | e :: es => do
    let name ← e.text "name"
    let index ← e.word "index"
    if index.toNat ≠ (← get).userOps.length then throw (.broken .orderedUserOps)
    modify fun p => { p with userOps := p.userOps ++ [name] }
    fillUserOps es

/-- The stack pointer as configured: a register by name, the number of bytes of it that are used,
and the direction in which the stack grows. -/
structure StackPointer where
  register : String
  growsDown : Bool
  size : UInt64
deriving Repr, DecidableEq

/-- Reads a stack pointer. A stack grows to lower addresses unless it is said to grow upwards. -/
def StackPointer.ofElement (e : Xml.Element) : Except Config.Error StackPointer := do
  let register ← e.text "register"
  let growsDown := e.textD "growth" "negative" != "positive"
  let size ← e.wordD "size" 0
  return ⟨register, growsDown, size⟩

/-- The stack and the register that a stack pointer brings together. -/
def findStackPointer (p : Processor) (s : StackPointer) :
    Except Config.Error (SpaceId × Varnode) :=
  match p.registers.location? s.register, p.registry.idInRole? .stack with
  | none, _ => .error (.broken .knownStackRegister)
  | some _, none => .error (.noSpaceInRole "stack")
  | some register, some stack => .ok (stack, register)

/-- Makes the register that a tag names the base of the stack. -/
def fillStackPointer (e : Xml.Element) : Action Processor (Failure Config.Error) Unit := do
  let s ← Failure.ofExcept (StackPointer.ofElement e)
  let (stack, register) ← Failure.ofExcept (findStackPointer (← get) s)
  onRegistry (Registry.anchor stack register s.size s.growsDown)

/-- The tags of registers, in the order of the documents. -/
def registerTags (d : Documents) : List Xml.Element :=
  (d.tags "register_data").flatMap Xml.Element.children

/-- All stages but the last, which finds the base of the stack. -/
def fillParts (d : Documents) : Filling Unit := do
  fillProperties d
  fillFloats d
  fillSpaces d
  narrowSpaces (d.tags "truncate_space")
  fillRegisters (registerTags d)
  fillUserOps (d.tags "userop")

/-- Takes everything that the documents configure, up to the first fault. -/
def fillAll (d : Documents) : Action Processor (Failure Config.Error) Unit := do
  Action.refusing (fillParts d)
  match d.tag? "stackpointer" with
  | some e => fillStackPointer e
  | none => pure ()

/-- Fills a model that is not frozen. A configuration with a fault leaves it as it was. -/
def fill (d : Documents) : Action Processor (Failure Config.Error) Unit := fun p =>
  if p.isFrozen then (.error (.refused (.broken .oneConfiguration)), p)
  else
    match (fillAll d).exec p with
    | (.ok (), filled) => (.ok (), filled)
    | (.error cause, _) => (.error cause, p)

end Pcode.Processor
