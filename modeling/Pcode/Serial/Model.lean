import Pcode.FloatLayout
import Pcode.Joined
import Pcode.Operations.Block
import Pcode.Serial.Basic
import Pcode.Spaces.Configured

/-!
# Serialised forms of the model

The serialised forms of spaces, locations, joined values, float layouts and operations.
-/
namespace Pcode
open Serial

/-- Reads one of `all` by its label. -/
def Serial.choice? {α : Type} (all : List α) (label : α → String) (j : Json) : Option α := do
  let wanted ← label? j
  all.find? fun a => label a == wanted

instance : Serial Opcode where
  toJson o := .ofString o.label
  ofJson? := Serial.choice? Opcode.all Opcode.label

def ByteOrder.label : ByteOrder → String
  | .big => "Big"
  | .little => "Little"

instance : Serial ByteOrder where
  toJson o := .ofString o.label
  ofJson? := Serial.choice? [.big, .little] ByteOrder.label

instance : Serial Purpose where
  toJson p := .ofString p.label
  ofJson? := Serial.choice? Purpose.all Purpose.label

instance : Serial Properties where
  toJson p := toJson p.bits
  ofJson? j := (ofJson? j).map Properties.mk

instance : Serial SpaceId where
  toJson id := toJson id.value
  ofJson? j := (ofJson? j).map SpaceId.mk

instance : Serial SpaceInfo where
  toJson s := .ofFields
    [("index", toJson s.index), ("kind", toJson s.purpose), ("properties", toJson s.properties),
      ("highest", toJson s.highest), ("name", toJson s.name), ("shortcut", toJson s.shortcut),
      ("address_size", toJson s.pointerSize), ("word_size", toJson s.wordSize),
      ("delay", toJson s.delay), ("deadcode_delay", toJson s.deadcodeWait)]
  ofJson? j := do
    match ← fields? ["index", "kind", "properties", "highest", "name", "shortcut", "address_size",
        "word_size", "delay", "deadcode_delay"] j with
    | [index, purpose, properties, highest, name, shortcut, pointerSize, wordSize, delay,
        deadcodeWait] =>
      return {
        index := ← required? index
        purpose := ← required? purpose
        properties := ← required? properties
        highest := ← required? highest
        name := ← required? name
        shortcut := ← optional? shortcut
        pointerSize := ← required? pointerSize
        wordSize := ← required? wordSize
        delay := ← required? delay
        deadcodeWait := ← required? deadcodeWait }
    | _ => none

instance : Serial Address where
  toJson a := .ofFields [("space", toJson a.space), ("offset", toJson a.offset)]
  ofJson? j := do
    match ← fields? ["space", "offset"] j with
    | [space, offset] => return ⟨← required? space, ← required? offset⟩
    | _ => none

instance : Serial Varnode where
  toJson v := .ofFields
    [("space", toJson v.space), ("offset", toJson v.offset), ("size", toJson v.size)]
  ofJson? j := do
    match ← fields? ["space", "offset", "size"] j with
    | [space, offset, size] =>
      return ⟨← required? space, ← required? offset, ← required? size⟩
    | _ => none

instance : Serial Anchor where
  toJson a := .ofFields [("location", toJson a.used), ("original", toJson a.whole)]
  ofJson? j := do
    match ← fields? ["location", "original"] j with
    | [used, whole] => return ⟨← required? used, ← required? whole⟩
    | _ => none

instance : Serial BasedSpace where
  toJson s := .ofFields
    [("space", toJson s.info), ("contain", toJson s.container), ("base", toJson s.anchor),
      ("negative_stack", toJson s.growsDown)]
  ofJson? j := do
    match ← fields? ["space", "contain", "base", "negative_stack"] j with
    | [info, container, anchor, growsDown] =>
      return ⟨← required? info, ← required? container, ← optional? anchor,
        ← required? growsDown⟩
    | _ => none

def Space.label : Space → String
  | .constant _ => "Constant"
  | .temporary _ => "Unique"
  | .processor _ => "Space"
  | .based _ => "Spacebase"
  | .callSpec _ => "Fspec"
  | .opReference _ => "Iop"
  | .joined _ => "Join"

def Space.ofLabelled? (label : String) (content : Json) : Option Space :=
  match label with
  | "Constant" => (ofJson? content).map .constant
  | "Unique" => (ofJson? content).map .temporary
  | "Space" => (ofJson? content).map .processor
  | "Spacebase" => (ofJson? content).map .based
  | "Fspec" => (ofJson? content).map .callSpec
  | "Iop" => (ofJson? content).map .opReference
  | "Join" => (ofJson? content).map .joined
  | _ => none

instance : Serial Space where
  toJson s :=
    let content :=
      match s with
      | .based s => toJson s
      | _ => toJson s.info
    .ofFields [(s.label, content)]
  ofJson? j := do
    let (label, content) ← labelled? j
    Space.ofLabelled? label content

instance : Serial Joined where
  toJson v := .ofFields [("pieces", toJson v.pieces), ("unified", toJson v.whole)]
  ofJson? j := do
    match ← fields? ["pieces", "unified"] j with
    | [pieces, whole] => return ⟨← required? pieces, ← required? whole⟩
    | _ => none

instance : Serial FloatLayout where
  toJson f := .ofFields
    [("size", toJson f.size), ("sign_pos", toJson f.signAt), ("frac_pos", toJson f.fractionAt),
      ("frac_size", toJson f.fractionSize), ("exp_pos", toJson f.exponentAt),
      ("exp_max", toJson f.exponentMax), ("exp_size", toJson f.exponentSize), ("bias", toJson f.bias),
      ("j_bit_implied", toJson f.hiddenBit)]
  ofJson? j := do
    match ← fields? ["size", "sign_pos", "frac_pos", "frac_size", "exp_pos", "exp_max", "exp_size",
        "bias", "j_bit_implied"] j with
    | [size, signAt, fractionAt, fractionSize, exponentAt, exponentMax, exponentSize, bias,
        hiddenBit] =>
      return {
        size := ← required? size
        signAt := ← required? signAt
        fractionAt := ← required? fractionAt
        fractionSize := ← required? fractionSize
        exponentAt := ← required? exponentAt
        exponentMax := ← required? exponentMax
        exponentSize := ← required? exponentSize
        bias := ← required? bias
        hiddenBit := ← required? hiddenBit }
    | _ => none

instance : Serial Narrowing where
  toJson t := .ofFields [("space_name", toJson t.spaceName), ("size", toJson t.size)]
  ofJson? j := do
    match ← fields? ["space_name", "size"] j with
    | [spaceName, size] => return ⟨← required? spaceName, ← required? size⟩
    | _ => none

instance : Serial Op where
  toJson o := .ofFields
    [("opcode", toJson o.opcode), ("output", toJson o.output), ("inputs", toJson o.inputs)]
  ofJson? j := do
    match ← fields? ["opcode", "output", "inputs"] j with
    | [opcode, output, inputs] =>
      return ⟨← required? opcode, ← optional? output, ← required? inputs⟩
    | _ => none

instance : Serial Block where
  toJson b := .ofFields
    [("address", toJson b.address), ("operations", toJson b.operations),
      ("length", toJson b.length)]
  ofJson? j := do
    match ← fields? ["address", "operations", "length"] j with
    | [address, operations, length] =>
      return ⟨← required? address, ← required? operations, ← required? length⟩
    | _ => none

instance : Serial Assembly where
  toJson a := .ofFields
    [("address", toJson a.address), ("mnemonic", toJson a.mnemonic),
      ("operands", toJson a.operands), ("length", toJson a.length)]
  ofJson? j := do
    match ← fields? ["address", "mnemonic", "operands", "length"] j with
    | [address, mnemonic, operands, length] =>
      return ⟨← required? address, ← required? mnemonic, ← required? operands,
        ← required? length⟩
    | _ => none

end Pcode
