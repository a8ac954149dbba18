import Pcode.ContextFields
import Pcode.Processor.Configured

/-!
# Architectures

What an architecture supplies, and what every architecture can do with it. An architecture decodes
the instruction at the start of some bytes: its length, its operations and its text. Operations and
texts are passed on one by one; what was passed on is known also where decoding fails.
-/
namespace Pcode
open Config (Documents)

/-- What a decode operation passed on, in order, and how it ended. -/
structure Decoding (ι : Type) where
  emitted : List ι
  result : Except Processor.Error UInt64

namespace Decoding
variable {ι : Type}

/-- Decoding that fails before anything is passed on. -/
def failed (cause : Processor.Error) : Decoding ι := ⟨[], .error cause⟩

/-- Decoding that passes on all items of `decoded` and ends, or fails and passes on nothing. -/
def ofExcept (decoded : Except Processor.Error (UInt64 × List ι)) : Decoding ι :=
  match decoded with
  | .ok (length, emitted) => ⟨emitted, .ok length⟩
  | .error cause => failed cause

end Decoding

/-- An architecture: a processor model and three decode operations. Context fields are optional;
without them every request about them is accepted and has no effect. -/
class Architecture (β : Type) where
  processor : β → Processor
  withProcessor : β → Processor → β
  defineField : String → UInt64 → UInt64 → Action β Config.Error Unit := fun _ _ _ => pure ()
  setFieldDefault : String → UInt32 → Action β Config.Error Unit := fun _ _ => pure ()
  /-- Says whether instructions may set context fields. -/
  letSetFields : β → Bool → β := fun b _ => b
  /-- The length of the instruction. -/
  measure : β → Address → List UInt8 → Except Processor.Error UInt64
  /-- Passes on the operations of the instruction; ends with its length. -/
  emit : β → Address → List UInt8 → Decoding Emission
  /-- Passes on the text of the instruction; ends with its length. -/
  print : β → Address → List UInt8 → Decoding Line

namespace Architecture
variable {β : Type} [Architecture β]

def onProcessor {ε α : Type} (x : Action Processor ε α) : Action β ε α :=
  Action.focus processor withProcessor x

def defineFields : List Xml.Element → Action β Config.Error Unit
  | [] => pure ()
  | e :: es => do
    let name ← e.text "name"
    let first ← e.word "startbit"
    let last ← e.word "endbit"
    defineField name first last
    defineFields es

def setFieldDefaults : List Xml.Element → Action β Config.Error Unit
  | [] => pure ()
  | e :: es => do
    let name ← e.text "name"
    let value ← e.word32 "val"
    setFieldDefault name value
    setFieldDefaults es

/-- Defines context fields and their defaults. What was defined before a fault stays. -/
def fillFields (d : Documents) : Action β Config.Error Unit := do
  defineFields (d.tags "context_field")
  setFieldDefaults ((d.tags "context_data").flatMap fun e => e.named "set")

/-- Takes a whole configuration, once. -/
def configure (d : Documents) : Action β (Failure Processor.Error) Unit := do
  onProcessor ((Processor.fill d).mapCause fun f => f.mapCause .config)
  ((fillFields d).mapCause Processor.Error.config).refusing
  modify fun b => withProcessor b (processor b).freeze

def lift (b : β) (address : Address) (bytes : List UInt8) : Except Processor.Error Block := do
  (processor b).checkPlace address
  let d := emit b address bytes
  let length ← d.result
  return { (Block.empty address).collect d.emitted with length }

def disassemble (b : β) (address : Address) (bytes : List UInt8) :
    Except Processor.Error Assembly := do
  (processor b).checkPlace address
  let d := print b address bytes
  let length ← d.result
  return { (Assembly.empty address).collect d.emitted with length }

end Architecture

end Pcode
