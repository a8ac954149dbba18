import Pcode.Digit
import Pcode.Xml.Alphabet

/-!
# XML tokens

A document is cut into tags, character data and what stands between: comments, processing
instructions and a document type without declarations. Attribute values are kept as they read,
with references replaced and white space made plain. Each token takes at least one character, so
the length of a document bounds the number of its tokens.

A document may end inside its last tag, between two attributes; such a tag is cut off.
-/
namespace Pcode.Xml

/-- A name with the qualifier before its colon, which is empty when there is none. -/
structure QName where
  qualifier : String
  label : String
deriving Repr, DecidableEq

inductive TagEnd where
  | content
  | empty
  | cut
deriving Repr, DecidableEq

inductive Token where
  | space
  | text
  | cdata
  | comment
  | instruction
  | documentType
  | startTag (name : QName) (attributes : List (QName × String)) (ending : TagEnd)
  | endTag (name : QName)
deriving Repr, DecidableEq

namespace Token

/-- What follows `mark`, when the characters begin with it. -/
def after? : List Char → List Char → Option (List Char)
  | [], cs => some cs
  | _ :: _, [] => none
  | m :: mark, c :: cs => if m = c then after? mark cs else none

/-- The characters before the first `mark`, and those after it. -/
def until? (mark : List Char) : List Char → Option (List Char × List Char)
  | [] => none
  | c :: cs =>
    match after? mark (c :: cs) with
    | some rest => some ([], rest)
    | none => (until? mark cs).map fun r => (c :: r.1, r.2)

def skipSpace (cs : List Char) : List Char := cs.dropWhile isSpace

/-- Passes over white space, of which there must be some. -/
def space? (cs : List Char) : Option (List Char) :=
  if (cs.takeWhile isSpace).isEmpty then none else some (skipSpace cs)

def name? (cs : List Char) : Option (String × List Char) :=
  match cs with
  | c :: _ =>
    if isNameStart c then
      some (String.ofList (cs.takeWhile isNameChar), cs.dropWhile isNameChar)
    else none
  | [] => none

/-- Reads a name with at most one colon, whose two sides are names or, on the left, empty. -/
def qName? (cs : List Char) : Option (QName × List Char) :=
  let word := cs.takeWhile isNameChar
  let rest := cs.dropWhile isNameChar
  let left := word.takeWhile (· != ':')
  let right := (word.dropWhile (· != ':')).drop 1
  if right.contains ':' then none
  else
    let (qualifier, label) := if word.contains ':' then (left, right) else ([], left)
    if qualifier.head?.all isNameStart && label.head?.any isNameStart then
      some (⟨String.ofList qualifier, String.ofList label⟩, rest)
    else none

def equals? (cs : List Char) : Option (List Char) :=
  match skipSpace cs with
  | '=' :: rest => some (skipSpace rest)
  | _ => none

/-- Reads a quoted run of characters that `allowed` accepts. -/
def quoted? (allowed : Char → Bool) : List Char → Option (List Char × List Char)
  | q :: cs =>
    if q = '"' ∨ q = '\'' then
      let inside := fun c => c != q && allowed c
      match cs.dropWhile inside with
      | c :: rest => if c = q then some (cs.takeWhile inside, rest) else none
      | [] => none
    else none
  | [] => none

/-- The character with the given number; a number that is no character stands for the
replacement character. -/
def charOfNumber? (n : Nat) : Option Char :=
  if n < UInt32.size then
    let c := if n.isValidChar then Char.ofNat n else '\ufffd'
    if isChar c then some c else none
  else none

def entity? : String → Option Char
  | "quot" => some '"'
  | "amp" => some '&'
  | "apos" => some '\''
  | "lt" => some '<'
  | "gt" => some '>'
  | _ => none

/-- Reads what a reference stands for, between its ampersand and its semicolon. -/
def referent? (cs : List Char) : Option (Char × List Char) :=
  match cs with
  | '#' :: 'x' :: ds => do
    let (n, rest) ← Digit.number? 16 ds
    return (← charOfNumber? n, rest)
  | '#' :: ds => do
    let (n, rest) ← Digit.number? 10 ds
    return (← charOfNumber? n, rest)
  | _ => do
    let (name, rest) ← name? cs
    return (← entity? name, rest)

def reference? (cs : List Char) : Option (Char × List Char) :=
  match referent? cs with
  | some (c, ';' :: rest) => some (c, rest)
  | _ => none

/-- Replaces references, and turns each line end and tab that is not written as a reference into a
space. The first argument bounds the length. -/
def expand? : Nat → List Char → Option (List Char)
  | _, [] => some []
  | 0, _ :: _ => none
  | n + 1, '&' :: cs => do
    let (c, rest) ← reference? cs
    return c :: (← expand? n rest)
  | n + 1, '\r' :: '\n' :: cs => return ' ' :: (← expand? n cs)
  | n + 1, c :: cs => return (if isSpace c then ' ' else c) :: (← expand? n cs)

/-- Reads the attributes and the end of a start tag. The first argument bounds the length. -/
def attributes? : Nat → List Char → Option (List (QName × String) × TagEnd × List Char)
  | _, [] => some ([], .cut, [])
  | 0, _ :: _ => none
  | n + 1, cs =>
    match skipSpace cs with
    | '/' :: '>' :: rest => some ([], .empty, rest)
    | '>' :: rest => some ([], .content, rest)
    | rest => do
      let _ ← space? cs
      let (name, rest) ← qName? rest
      let rest ← equals? rest
      let (value, rest) ← quoted? (· != '<') rest
      guard (value.all isChar)
      let value ← expand? value.length value
      let (others, ending, rest) ← attributes? n rest
      return ((name, String.ofList value) :: others, ending, rest)

def startTag? (cs : List Char) : Option (Token × List Char) := do
  let (name, rest) ← qName? cs
  let (attributes, ending, rest) ← attributes? rest.length rest
  return (.startTag name attributes ending, rest)

def endTag? (cs : List Char) : Option (Token × List Char) := do
  let (name, rest) ← qName? cs
  match skipSpace rest with
  | '>' :: rest => return (.endTag name, rest)
  | _ => none

/-- A comment holds no two hyphens in a row and does not end with one. -/
def comment? (cs : List Char) : Option (Token × List Char) := do
  let (body, rest) ← until? "-->".toList cs
  guard (body.all isChar && (until? "--".toList body).isNone && body.getLast? != some '-')
  return (.comment, rest)

def cdata? (cs : List Char) : Option (Token × List Char) := do
  let (body, rest) ← until? "]]>".toList cs
  guard (body.all isChar)
  return (.cdata, rest)

/-- The target of a processing instruction is a name; a second declaration is no instruction. -/
def instruction? (cs : List Char) : Option (Token × List Char) := do
  guard (after? "xml ".toList cs).isNone
  let (_, rest) ← name? cs
  let (body, rest) ← until? "?>".toList (skipSpace rest)
  guard (body.all isChar)
  return (.instruction, rest)

def externalId? (cs : List Char) : Option (List Char) :=
  match after? "SYSTEM".toList cs, after? "PUBLIC".toList cs with
  | some rest, _ => do
    let (_, rest) ← quoted? (fun _ => true) (← space? rest)
    return rest
  | none, some rest => do
    let (_, rest) ← quoted? (fun _ => true) (← space? rest)
    let (_, rest) ← quoted? (fun _ => true) (← space? rest)
    return rest
  | none, none => some cs

/-- A document type is allowed as long as it declares nothing. -/
def documentType? (cs : List Char) : Option (Token × List Char) := do
  let (_, rest) ← name? (← space? cs)
  let rest ← externalId? (skipSpace rest)
  match skipSpace rest with
  | '>' :: rest => return (.documentType, rest)
  | _ => none

/-- Character data up to the next tag. It does not hold the end mark of a CDATA section. -/
def text? (cs : List Char) : Option (Token × List Char) :=
  let data := cs.takeWhile (· != '<')
  let rest := cs.dropWhile (· != '<')
  if data.all isSpace then some (.space, rest)
  else if data.all isChar && (until? "]]>".toList data).isNone &&
      (expand? data.length data).isSome then
    some (.text, rest)
  else none

def next? (cs : List Char) : Option (Token × List Char) :=
  match cs with
  | '<' :: '/' :: rest => endTag? rest
  | '<' :: '?' :: rest => instruction? rest
  | '<' :: '!' :: rest =>
    match after? "--".toList rest, after? "[CDATA[".toList rest, after? "DOCTYPE".toList rest with
    | some rest, _, _ => comment? rest
    | _, some rest, _ => cdata? rest
    | _, _, some rest => documentType? rest
    | none, none, none => none
  | '<' :: rest => startTag? rest
  | _ => text? cs

/-- Cuts a document into tokens. The first argument bounds the length. -/
def scan? : Nat → List Char → Option (List Token)
  | _, [] => some []
  | 0, _ :: _ => none
  | n + 1, cs => do
    let (token, rest) ← next? cs
    return token :: (← scan? n rest)

/-- One part of the XML declaration: a name, and a value that `accepts` accepts. -/
def setting? (name : String) (accepts : List Char → Bool) (cs : List Char) :
    Option (List Char) := do
  let rest ← equals? (← after? name.toList cs)
  let (value, rest) ← quoted? (fun _ => true) rest
  guard (accepts value)
  return rest

/-- White space between two parts of the declaration; none is needed before its end. -/
def settingSpace? (cs : List Char) : Option (List Char) :=
  match space? cs with
  | some rest => some rest
  | none => if cs.isEmpty || (after? "?>".toList cs).isSome then some cs else none

def isVersion (value : List Char) : Bool :=
  match after? "1.".toList value with
  | some rest => rest.all Char.isDigit
  | none => false

def isEncodingChar (c : Char) : Bool := c.isAlphanum || c == '.' || c == '-' || c == '_'

def isYesNo (value : List Char) : Bool := value == "yes".toList || value == "no".toList

/-- Reads the XML declaration after its opening: a version, then perhaps an encoding, then perhaps
whether the document stands alone. -/
def declaration? (cs : List Char) : Option (List Char) := do
  let rest ← settingSpace? (← setting? "version" isVersion (skipSpace cs))
  let rest ←
    if (after? "encoding".toList rest).isSome then
      settingSpace? (← setting? "encoding" (·.all isEncodingChar) rest)
    else some rest
  let rest ←
    if (after? "standalone".toList rest).isSome then setting? "standalone" isYesNo rest
    else some rest
  after? "?>".toList (skipSpace rest)

/-- Cuts a document into tokens, after an optional byte order mark and an optional declaration. -/
def ofDocument? (cs : List Char) : Option (List Token) := do
  let cs := if cs.head? = some '\ufeff' then cs.drop 1 else cs
  let cs ←
    match after? "<?xml ".toList cs with
    | some rest => declaration? rest
    | none => some cs
  scan? cs.length cs

end Token

end Pcode.Xml
