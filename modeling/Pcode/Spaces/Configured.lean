import Pcode.Config.Attribute
import Pcode.Spaces.Forms

/-!
# Spaces as configured

Reads the description of one space from its tag. The attributes are read in a fixed order, so of two
faulty ones the earlier is reported.
-/
namespace Pcode
open Config (Error)

namespace SpaceInfo

/-- Reads the attributes common to every configured space. Without a `bigendian` attribute the
space has the given byte order. -/
def ofElement (purpose : Purpose) (e : Xml.Element) (order : ByteOrder) :
    Except Error SpaceInfo := do
  let name ← e.text "name"
  let index ← e.word "index"
  let pointerSize ← e.word "size"
  let wordSize ← e.wordD "wordsize" 1
  let delay ← e.wordD "delay" 0
  let deadcodeWait ← e.wordD "deadcodedelay" delay
  if wordSize = 0 then throw (.broken .someWordSize)
  let big ← e.boolD "bigendian" order.isBig
  let physical ← e.boolD "physical" true
  let properties := Space.valueProperties (.ofBig big)
  return {
    index
    purpose
    properties := if physical then properties.insert .hasPhysical else properties
    highest := Word.highest pointerSize wordSize
    name
    shortcut := (e.attribute? "shortcut").bind fun s => s.toList.head?
    pointerSize
    wordSize
    delay
    deadcodeWait }

end SpaceInfo

namespace BasedSpace

/-- Reads a space relative to a base register, given the space that contains it. -/
def ofElement (e : Xml.Element) (container : Space) : Except Error BasedSpace := do
  e.requireName "space_base"
  let info ← SpaceInfo.ofElement .based e container.info.byteOrder
  if info.wordSize ≠ container.info.wordSize then throw (.broken .sameWordSize)
  return {
    info := { info with properties := info.properties.erase .hasPhysical }
    container := container.id
    anchor := none
    growsDown := true }

end BasedSpace

namespace Space

/-- Reads a space that does not refer to another space. -/
def ofElement (e : Xml.Element) (order : ByteOrder) : Except Error Space := do
  if e.name = "space_unique" then return .temporary (← SpaceInfo.ofElement .temporary e order)
  else if e.name = "space" ∨ e.name = "space_other" then
    return .processor (← SpaceInfo.ofElement .processor e order)
  else throw (.wrongTag e.name)

end Space

structure Narrowing where
  spaceName : String
  size : UInt64
deriving Repr, DecidableEq

namespace Narrowing

def ofElement (e : Xml.Element) : Except Error Narrowing := do
  e.requireName "truncate_space"
  let spaceName ← e.text "space"
  let size ← e.word "size"
  return ⟨spaceName, size⟩

end Narrowing

end Pcode
