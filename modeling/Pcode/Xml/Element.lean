import Pcode.Xml.Token

/-!
# XML elements

An element is a name, attributes and the elements inside it; character data and comments are not
kept. Names lose their qualifiers: an element is known by its local name, an attribute by its local
name and the namespace its qualifier is bound to.

A document has exactly one root. Elements that are still open where the document ends are closed
there.
-/
namespace Pcode.Xml

/-- Why a text is no XML document. -/
inductive Error where
  /-- The text cannot be cut into tokens. -/
  | malformed
  /-- Character data, a second root or a document type where none may stand. -/
  | misplaced
  /-- An end tag closes another element than the innermost open one. -/
  | mismatched
  /-- There is no root element. -/
  | noRoot
  /-- A qualifier is bound to no namespace. -/
  | unknownNamespace
  /-- A qualifier is bound twice in one tag. -/
  | duplicateNamespace
  /-- A name or namespace that the standard keeps for itself is bound or used. -/
  | reservedNamespace
  /-- Two attributes of a tag have the same local name and namespace. -/
  | duplicateAttribute
deriving Repr, DecidableEq

structure Attribute where
  space : Option String
  name : String
  value : String
deriving Repr, DecidableEq

structure Element where
  name : String
  attributes : List Attribute
  children : List Element

namespace Element

/-- The value of the attribute with this local name that is in no namespace. -/
def attribute? (e : Element) (name : String) : Option String :=
  (e.attributes.find? fun a => a.name == name && a.space.isNone).map Attribute.value

mutual

/-- The element and all elements inside it, in document order. -/
def descendants : Element → List Element
  | ⟨name, attributes, children⟩ => ⟨name, attributes, children⟩ :: descendantsOfAll children

def descendantsOfAll : List Element → List Element
  | [] => []
  | e :: es => descendants e ++ descendantsOfAll es

end

/-- The elements of this name at or inside the element, in document order. -/
def named (e : Element) (name : String) : List Element :=
  e.descendants.filter fun d => d.name == name

end Element

/-! ## Namespaces -/

/-- The namespace of the qualifier `xml`. -/
def xmlNamespace : String := String.join ["http:", "//www.w3.org/XML/1998/namespace"]

/-- The namespace of the qualifier `xmlns`. -/
def xmlnsNamespace : String := String.join ["http:", "//www.w3.org/2000/xmlns/"]

/-- Namespaces by qualifier, innermost binding first. -/
abbrev Scope := List (String × String)

/-- The bindings and the attributes of one tag, as written. -/
structure Declared where
  bindings : Scope
  attributes : List (QName × String)

namespace Declared

/-- Takes one more attribute of the tag: a binding of a qualifier, a binding of the default
namespace, which attributes do not use, or an attribute proper. -/
def add (d : Declared) (name : QName) (value : String) : Except Error Declared :=
  if name.qualifier = "xmlns" then
    if value = xmlnsNamespace then .error .reservedNamespace
    else if name.label = "xml" then
      if value = xmlNamespace then .ok d else .error .reservedNamespace
    else if value = xmlNamespace then .error .reservedNamespace
    else if (d.bindings.lookup name.label).isSome then .error .duplicateNamespace
    else .ok { d with bindings := d.bindings ++ [(name.label, value)] }
  else if name.label = "xmlns" then
    if value = xmlNamespace ∨ value = xmlnsNamespace then .error .reservedNamespace else .ok d
  else .ok { d with attributes := d.attributes ++ [(name, value)] }

def ofAttributes (attributes : List (QName × String)) : Except Error Declared :=
  attributes.foldlM (fun d a => d.add a.1 a.2) ⟨[], []⟩

end Declared

/-- The namespace of a qualifier; a name without a qualifier is in none. -/
def Scope.resolve (scope : Scope) (qualifier : String) : Except Error (Option String) :=
  if qualifier = "" then .ok none
  else
    match scope.lookup qualifier with
    | some space => .ok (some space)
    | none => .error .unknownNamespace

def Scope.attributes (scope : Scope) (attributes : List (QName × String)) :
    Except Error (List Attribute) :=
  attributes.foldlM
    (fun done a => do
      let space ←
        if a.1.qualifier = "xml" then pure (some xmlNamespace) else scope.resolve a.1.qualifier
      if done.any fun b => b.name == a.1.label && b.space == space then
        throw .duplicateAttribute
      return done ++ [⟨space, a.1.label, a.2⟩])
    []

/-! ## Trees -/

/-- An element whose end has not been met; its children stand last first. -/
structure Frame where
  name : QName
  attributes : List Attribute
  scope : Scope
  children : List Element

/-- What has been read of a document: the open elements, innermost first, the root once it is
closed, and whether a document type was met. -/
structure Draft where
  frames : List Frame
  root : Option Element
  typed : Bool

namespace Draft

def start : Draft := ⟨[], none, false⟩

/-- Has no element begun? -/
def isProlog (p : Draft) : Bool := p.frames.isEmpty && p.root.isNone

/-- Places a complete element in the innermost open one, or as the root. -/
def place (p : Draft) (e : Element) : Draft :=
  match p.frames with
  | [] => { p with root := some e }
  | f :: fs => { p with frames := { f with children := e :: f.children } :: fs }

def scope (p : Draft) : Scope :=
  match p.frames with
  | [] => []
  | f :: _ => f.scope

/-- Takes a start tag. One that the document cuts off is read but leaves no element. -/
def openTag (p : Draft) (name : QName) (attributes : List (QName × String)) (ending : TagEnd) :
    Except Error Draft := do
  if p.frames.isEmpty && p.root.isSome then throw .misplaced
  if name.qualifier = "xmlns" then throw .reservedNamespace
  let declared ← Declared.ofAttributes attributes
  let scope : Scope := declared.bindings ++ p.scope
  match ending with
  | .cut => return p
  | .empty =>
    let attributes ← scope.attributes declared.attributes
    let _ ← scope.resolve name.qualifier
    return p.place ⟨name.label, attributes, []⟩
  | .content =>
    let attributes ← scope.attributes declared.attributes
    let _ ← scope.resolve name.qualifier
    return { p with frames := ⟨name, attributes, scope, []⟩ :: p.frames }

def close (f : Frame) : Element := ⟨f.name.label, f.attributes, f.children.reverse⟩

def closeTag (p : Draft) (name : QName) : Except Error Draft :=
  match p.frames with
  | [] => .error .misplaced
  | f :: fs =>
    if f.name = name then .ok (place { p with frames := fs } (close f)) else .error .mismatched

def take (p : Draft) : Token → Except Error Draft
  | .space | .comment | .instruction => .ok p
  | .text | .cdata => if p.frames.isEmpty then .error .misplaced else .ok p
  | .documentType =>
    if p.isProlog && !p.typed then .ok { p with typed := true } else .error .misplaced
  | .startTag name attributes ending => p.openTag name attributes ending
  | .endTag name => p.closeTag name

/-- Closes elements from the innermost on; `inner` is the one just closed. -/
def closeAll (inner : Element) : List Frame → Element
  | [] => inner
  | f :: fs => closeAll (close { f with children := inner :: f.children }) fs

def finish (p : Draft) : Except Error Element :=
  match p.frames, p.root with
  | f :: fs, _ => .ok (closeAll (close f) fs)
  | [], some e => .ok e
  | [], none => .error .noRoot

end Draft

def parse (text : String) : Except Error Element := do
  match Token.ofDocument? text.toList with
  | none => throw .malformed
  | some tokens => (← tokens.foldlM Draft.take .start).finish

end Pcode.Xml
