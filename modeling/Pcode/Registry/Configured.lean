import Pcode.Registry.Change
import Pcode.Spaces.Configured

/-!
# Registries as configured

Inserts the spaces that a `spaces` tag lists, chooses the default space and adds the spaces that
every model has. What was inserted before a fault stays inserted.
-/
namespace Pcode.Registry
open Config (Error)

/-- Reads the space of a tag without inserting it. -/
def readSpace (r : Registry) (e : Xml.Element) (order : ByteOrder) : Except Error Space := do
  if e.name = "space_base" then
    let container ← e.text "contain"
    match r.named? container with
    | none => throw (.unknownSpace container)
    | some s => return .based (← BasedSpace.ofElement e s)
  else Space.ofElement e order

def insertElement (e : Xml.Element) (order : ByteOrder) : Change SpaceId := do
  insert (← (← get).readSpace e order)

/-- Inserts the spaces of several tags, up to the first that is refused. -/
def insertElements (order : ByteOrder) : List Xml.Element → Change Unit
  | [] => pure ()
  | e :: es => do
    let _ ← insertElement e order
    insertElements order es

/-- Inserts the space that `make` describes at the next index. -/
def insertNext (make : UInt64 → Space) : Change Unit := do
  let _ ← insert (make (← get).nextIndex)

def chooseDefaultNamed (name : String) : Change Unit := do
  match (← get).named? name with
  | none => throw (.unknownSpace name)
  | some s => chooseDefault s.id

/-- Adds the temporaries, unless they are configured, and the spaces of references. -/
def insertUsual (order : ByteOrder) : Change Unit := do
  if ((← get).idInRole? .temporaries).isNone then
    insertNext fun index => .ofTemporaries "unique" index order
  insertNext .ofOpReferences
  insertNext .ofCallSpecs
  insertNext .ofJoins

/-- Inserts all configured spaces, chooses the default space, and adds the spaces that every model
has. -/
def fill (e : Xml.Element) (order : ByteOrder) : Change Unit := do
  e.requireName "spaces"
  let defaultName ← e.text "defaultspace"
  insertElements order e.children
  chooseDefaultNamed defaultName
  insertUsual order

end Pcode.Registry
