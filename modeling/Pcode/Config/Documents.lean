import Pcode.Outcome
import Pcode.Config.Attribute

/-!
# Configuration documents

The documents that configure one processor model, by their root elements. A tag is looked up by
name anywhere in them, in the order of the documents and within each in document order.
-/
namespace Pcode.Config

structure Documents where
  roots : List Xml.Element

namespace Documents

def empty : Documents := ⟨[]⟩

/-- Adds a document; one that is not well-formed is not kept. -/
def add (text : String) : Action Documents Error Unit := do
  let root ← (Xml.parse text).mapError Error.illFormed
  modify fun d => ⟨d.roots ++ [root]⟩

def size (d : Documents) : Nat := d.roots.length

def isEmpty (d : Documents) : Bool := d.roots.isEmpty

def tags (d : Documents) (name : String) : List Xml.Element :=
  d.roots.flatMap fun root => root.named name

def tag? (d : Documents) (name : String) : Option Xml.Element := (d.tags name).head?

end Documents

end Pcode.Config
