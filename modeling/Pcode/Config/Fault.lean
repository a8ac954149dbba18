import Pcode.Numeral
import Pcode.Xml.Element

/-!
# Configuration faults

Why a processor model cannot be configured as asked, and the sentence that says so.
-/
namespace Pcode.Config

/-- The rules that the parts of a model must keep. -/
inductive Rule where
  | oneDefault
  | someWordSize
  | sameWordSize
  | freshTarget
  | fieldInBuffer
  | knownStackRegister
  | orderedUserOps
  | exponentRange
  | oneConfiguration
deriving Repr, DecidableEq

namespace Rule

def text : Rule → String
  | oneDefault => "default space set multiple times"
  | someWordSize => "space word size must be non-zero"
  | sameWordSize => "spacebase word size must match its containing space"
  | freshTarget => "spaces can only be copied into an empty manager"
  | fieldInBuffer => "context variable outside of context buffer"
  | knownStackRegister => "stack pointer is not a known register"
  | orderedUserOps => "user operations must be indexed in order"
  | exponentRange => "float format exponent size out of range"
  | oneConfiguration => "translator already initialised"

end Rule

/-- The causes for which a configuration, or a change of a model, is refused. -/
inductive Error where
  /-- The document cannot be read. -/
  | illFormed (cause : Xml.Error)
  | missingTag (name : String)
  | wrongTag (name : String)
  | missingAttribute (name : String)
  | notInteger (cause : NumeralError)
  | notBoolean
  | nameTaken (space : String)
  | indexTaken (index : UInt64)
  | indexSkips (space : String) (expected : Nat) (found : UInt64)
  | unfit (space role : String)
  | noSpaceInRole (role : String)
  | unknownSpace (name : String)
  | anchored (space : String)
  | registerTaken (name : String)
  /-- The bits of a context field are not within one word. -/
  | fieldSpansWords (name : String) (first last : UInt64)
  | unknownField (name : String)
  | broken (rule : Rule)
deriving Repr, DecidableEq

namespace Error

def message : Error → String
  | illFormed _ => "document is not well-formed"
  | missingTag name => s!"tag `{name}` expected"
  | wrongTag name => s!"unexpected tag `{name}`"
  | missingAttribute name => s!"attribute `{name}` expected"
  | notInteger cause => s!"could not parse integer: {cause.message}"
  | notBoolean => "could not parse boolean: provided string was not `true` or `false`"
  | nameTaken space => s!"space `{space}` defined more than once"
  | indexTaken index => s!"space index {index.toNat} assigned more than once"
  | indexSkips space expected found =>
    s!"space `{space}` defined with index {found.toNat}; expected {expected}"
  | unfit space role => s!"space `{space}` cannot be used as the {role} space"
  | noSpaceInRole role => s!"{role} space not defined"
  | unknownSpace name => s!"unknown space `{name}`"
  | anchored space => s!"more than one base register assigned to space `{space}`"
  | registerTaken name => s!"register `{name}` defined more than once"
  | fieldSpansWords name first last =>
    s!"context variable `{name}` spans bits {first.toNat}..={last.toNat}, " ++
      "which is not within a single word"
  | unknownField name => s!"unknown context variable `{name}`"
  | broken rule => s!"invariant not satisfied: {rule.text}"

end Error

end Pcode.Config
