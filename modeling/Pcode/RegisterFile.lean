import Pcode.Config.Fault
import Pcode.Locations
import Pcode.Outcome

/-!
# Register names

Names of registers and their locations. A name has one location; a location may have several names
and is reported by the first. Only whole registers have a name: a part of a register has none.
-/
namespace Pcode

structure RegisterFile where
  byLocation : List (Varnode × String)
  byName : List (String × Varnode)
deriving Repr, DecidableEq

namespace RegisterFile

def empty : RegisterFile := ⟨[], []⟩

/-- The first name of exactly this location. -/
def name? (f : RegisterFile) (location : Varnode) : Option String := f.byLocation.lookup location

def location? (f : RegisterFile) (name : String) : Option Varnode := f.byName.lookup name

def size (f : RegisterFile) : Nat := f.byName.length

def isEmpty (f : RegisterFile) : Bool := f.byName.isEmpty

def push (f : RegisterFile) (name : String) (location : Varnode) : RegisterFile where
  byLocation :=
    if (f.name? location).isSome then f.byLocation else f.byLocation ++ [(location, name)]
  byName := f.byName ++ [(name, location)]

theorem size_push (f : RegisterFile) (name : String) (location : Varnode) :
    (f.push name location).size = f.size + 1 := by
  simp [size, push]

/-- Names a location. The name may be new, or already have this location. -/
def define (name : String) (location : Varnode) : Action RegisterFile Config.Error Unit := do
  let f ← get
  match f.location? name with
  | some known => if known ≠ location then throw (.registerTaken name)
  | none => set (f.push name location)

/-- Every named location with its first name, in the order of locations. -/
def locations (f : RegisterFile) : List (Varnode × String) :=
  f.byLocation.mergeSort fun a b => (compare a.1 b.1).isLE

/-- Every name with its location, in the order of names. -/
def listing (f : RegisterFile) : List (String × Varnode) :=
  f.byName.mergeSort fun a b => (compare a.1 b.1).isLE

end RegisterFile

end Pcode
