import Pcode.Architecture.Basic

/-!
# A small architecture

Instructions begin with one byte:

| byte | operands | meaning |
|---|---|---|
| `00` | | no operation |
| `01` | `ds` | move register `s` to register `d` |
| `02` | `ds` | add register `s` to register `d` |
| `03` | `lo hi` | jump to a 16-bit address |
| `05` | `0s` | push register `s` |
| `06` | | system call |
| `fe` | `xx` | reserved |
-/
namespace Pcode

/-- The small architecture: a processor model, context fields and the leave to set them. -/
structure Mini where
  processor : Processor
  context : ContextFields
  maySetFields : Bool

namespace Mini
open Processor (Error Defect)

def start : Mini := ⟨.start, .empty, false⟩

def generalRegisters : List String := ["r0", "r1", "r2", "r3"]

/-- An address in the default space, or in the constant space when there is none. -/
def memory (m : Mini) (offset : UInt64) : Address :=
  ⟨m.processor.registry.defaultId.getD .constant, offset⟩

def register (m : Mini) (address : Address) (number : UInt8) : Except Error Varnode :=
  match generalRegisters[number.toNat]?.bind m.processor.registers.location? with
  | some location => .ok location
  | none => .error (.defective address (.noRegister number))

def high (b : UInt8) : UInt8 := b >>> 4

def low (b : UInt8) : UInt8 := b &&& 0xf

/-- An instruction, cut out of the bytes at its address. -/
inductive Instruction where
  | idle
  | move (registers : UInt8)
  | add (registers : UInt8)
  | jump (target : UInt64)
  | push (register : UInt8)
  | systemCall
  | reserved (operand : UInt8)
deriving Repr, DecidableEq

namespace Instruction

def length : Instruction → UInt64
  | idle | systemCall => 1
  | move _ | add _ | push _ | reserved _ => 2
  | jump _ => 3

/-- The number of two bytes, the low one first. -/
def word (lo hi : UInt8) : UInt64 := lo.toUInt64 ||| hi.toUInt64 <<< 8

/-- The number of bytes that an instruction with this first byte has. -/
def announced (code : UInt8) : Option UInt64 :=
  match code.toNat with
  | 0x00 | 0x06 => some 1
  | 0x01 | 0x02 | 0x05 | 0xfe => some 2
  | 0x03 => some 3
  | _ => none

section Positions
variable (address : Address) (size : Nat) (fetch : Nat → Option UInt8)

/-- The length of the instruction at the start of a buffer of `size` bytes, which are looked at by
their positions. There is no outcome if a byte that is looked at cannot be fetched. -/
def span : Option (Except Error UInt64) :=
  if size = 0 then some (.error (.defective address .cutShort))
  else do
    let code ← fetch 0
    match announced code with
    | none => return .error (.defective address (.unknownCode code))
    | some length =>
      if size < length.toNat then return .error (.defective address .cutShort)
      else return .ok length

/-- The instruction with the first byte and the operands at their positions. A first byte that
announces no length is taken for the reserved one. -/
def assemble : Option Instruction := do
  let code ← fetch 0
  match code.toNat with
  | 0x00 => return idle
  | 0x01 => return move (← fetch 1)
  | 0x02 => return add (← fetch 1)
  | 0x03 => return jump (word (← fetch 1) (← fetch 2))
  | 0x05 => return push (← fetch 1)
  | 0x06 => return systemCall
  | _ => return reserved (← fetch 1)

/-- Reads the instruction at the start of a buffer of `size` bytes: its length, then its operands. -/
def scan : Option (Except Error Instruction) := do
  match ← span address size fetch with
  | .error cause => return .error cause
  | .ok _ => return .ok (← assemble fetch)

end Positions

/-- No operand lies behind the announced length. -/
theorem exists_assemble {code : UInt8} {length : UInt64} {rest : List UInt8}
    (hlength : announced code = some length) (hle : length.toNat ≤ rest.length + 1) :
    ∃ i, i.length = length ∧
      ∀ fetch, (∀ k < length.toNat, fetch k = (code :: rest)[k]?) → assemble fetch = some i := by
  have hsecond : 2 ≤ length.toNat → 0 < rest.length := by omega
  have hthird : 3 ≤ length.toNat → 1 < rest.length := by omega
  unfold announced at hlength
  split at hlength <;> cases hlength
  case h_1 hn => exact ⟨idle, rfl, fun _ h => by simp [assemble, h 0, hn]⟩
  case h_2 hn => exact ⟨systemCall, rfl, fun _ h => by simp [assemble, h 0, hn]⟩
  all_goals
    rename_i hn
    obtain ⟨o, rest, rfl⟩ := List.exists_cons_of_length_pos (hsecond (by decide))
  · exact ⟨move o, rfl, fun _ h => by simp [assemble, h 0, h 1, hn]⟩
  · exact ⟨add o, rfl, fun _ h => by simp [assemble, h 0, h 1, hn]⟩
  · exact ⟨push o, rfl, fun _ h => by simp [assemble, h 0, h 1, hn]⟩
  · exact ⟨reserved o, rfl, fun _ h => by simp [assemble, h 0, h 1, hn]⟩
  · obtain ⟨hi, rest, rfl⟩ := List.exists_cons_of_length_pos
      (Nat.lt_of_succ_lt_succ (hthird (by decide)))
    exact ⟨jump (word o hi), rfl, fun _ h => by simp [assemble, h 0, h 1, h 2, hn]⟩

/-- A buffer has one outcome, whatever stands behind it. Its length is that of the instruction that
is read. -/
theorem exists_scan (address : Address) (bytes : List UInt8) :
    ∃ outcome, ∀ fetch, (∀ k < bytes.length, fetch k = bytes[k]?) →
      span address bytes.length fetch = some (outcome.map length) ∧
        scan address bytes.length fetch = some outcome := by
  rcases bytes with _ | ⟨code, rest⟩
  · exact ⟨.error (.defective address .cutShort), fun _ _ => ⟨rfl, rfl⟩⟩
  rcases hlength : announced code with _ | length
  · refine ⟨.error (.defective address (.unknownCode code)), fun fetch h => ?_⟩
    simp [scan, span, h 0, hlength, Except.map]
  by_cases hshort : rest.length + 1 < length.toNat
  · refine ⟨.error (.defective address .cutShort), fun fetch h => ?_⟩
    simp [scan, span, h 0, hlength, hshort, Except.map]
  have hle : length.toNat ≤ rest.length + 1 := Nat.le_of_not_lt hshort
  obtain ⟨i, rfl, hassemble⟩ := exists_assemble hlength hle
  refine ⟨.ok i, fun fetch h => ?_⟩
  have hi := hassemble fetch fun k hk => h k (Nat.lt_of_lt_of_le hk hle)
  simp [scan, span, h 0, hlength, hshort, hi, Except.map]

theorem isSome_span (address : Address) (bytes : List UInt8) :
    (span address bytes.length fun k => bytes[k]?).isSome := by
  obtain ⟨_, h⟩ := exists_scan address bytes
  rw [(h _ fun _ _ => rfl).1]
  rfl

theorem isSome_scan (address : Address) (bytes : List UInt8) :
    (scan address bytes.length fun k => bytes[k]?).isSome := by
  obtain ⟨_, h⟩ := exists_scan address bytes
  rw [(h _ fun _ _ => rfl).2]
  rfl

/-- The length of the instruction at the start of the bytes. -/
def measure (address : Address) (bytes : List UInt8) : Except Error UInt64 :=
  (span address bytes.length fun k => bytes[k]?).get (isSome_span address bytes)

/-- The instruction at the start of the bytes. -/
def read (address : Address) (bytes : List UInt8) : Except Error Instruction :=
  (scan address bytes.length fun k => bytes[k]?).get (isSome_scan address bytes)

theorem span_measure (address : Address) (bytes : List UInt8) :
    span address bytes.length (fun k => bytes[k]?) = some (measure address bytes) :=
  (Option.some_get _).symm

theorem scan_read (address : Address) (bytes : List UInt8) :
    scan address bytes.length (fun k => bytes[k]?) = some (read address bytes) :=
  (Option.some_get _).symm

/-- The name of the register with this number, as it is printed. -/
def registerText (number : UInt8) : String := generalRegisters[number.toNat]?.getD "?"

def text : Instruction → String × String
  | idle => ("nop", "")
  | move o => ("mov", registerText (high o) ++ ", " ++ registerText (low o))
  | add o => ("add", registerText (high o) ++ ", " ++ registerText (low o))
  | jump target => ("jmp", Word.hex target.toNat)
  | push o => ("push", registerText (low o))
  | systemCall => ("syscall", "")
  | reserved o => ("unimpl", Word.hexByte o)

end Instruction

def operations (m : Mini) (address : Address) : Instruction → Except Error (List Op)
  | .idle => .ok []
  | .move o => do
    let target ← m.register address (high o)
    let source ← m.register address (low o)
    return [⟨.copy, some target, [source]⟩]
  | .add o => do
    let target ← m.register address (high o)
    let source ← m.register address (low o)
    return [⟨.intAdd, some target, [target, source]⟩]
  | .jump target => .ok [⟨.branch, none, [.ofAddress (m.memory target) 2]⟩]
  | .push o => do
    let source ← m.register address (low o)
    match m.processor.registers.location? "sp" with
    | none => throw (.defective address .noStackPointer)
    | some stack =>
      let space : Varnode := .ofAddress (.denoting (m.memory 0).space) 8
      return [⟨.intSub, some stack, [stack, .ofAddress (.constant 4) 4]⟩,
        ⟨.store, none, [space, stack, source]⟩]
  | .systemCall => .ok [⟨.callOther, none, [.ofAddress (.constant 0) 4]⟩]
  | .reserved o => .error (.unlifted address (Instruction.reserved o).length)

/-- The length of the instruction at the start of the bytes, where one may be decoded. -/
def measured (m : Mini) (address : Address) (bytes : List UInt8) : Except Error UInt64 := do
  m.processor.checkPlace address
  Instruction.measure address bytes

/-- The instruction at the start of the bytes, where one may be decoded. -/
def instruction (m : Mini) (address : Address) (bytes : List UInt8) :
    Except Error Instruction := do
  m.processor.checkPlace address
  Instruction.read address bytes

/-- The length and the operations of the instruction at the start of the bytes. -/
def lifted (m : Mini) (address : Address) (bytes : List UInt8) :
    Except Error (UInt64 × List Emission) := do
  let i ← m.instruction address bytes
  let ops ← m.operations address i
  return (i.length, ops.map fun op => ⟨address, op⟩)

/-- The length and the text of the instruction at the start of the bytes. -/
def printed (m : Mini) (address : Address) (bytes : List UInt8) :
    Except Error (UInt64 × List Line) := do
  let i ← m.instruction address bytes
  let (mnemonic, operands) := i.text
  return (i.length, [⟨address, mnemonic, operands⟩])

def onContext {ε α : Type} (x : Action ContextFields ε α) : Action Mini ε α :=
  Action.focus Mini.context (fun m context => { m with context }) x

instance : Architecture Mini where
  processor := Mini.processor
  withProcessor m processor := { m with processor }
  defineField name first last := onContext (ContextFields.define name first last)
  setFieldDefault name value := onContext (ContextFields.setDefault name value)
  letSetFields m maySetFields := { m with maySetFields }
  measure m address bytes := m.measured address bytes
  emit m address bytes := .ofExcept (m.lifted address bytes)
  print m address bytes := .ofExcept (m.printed address bytes)

end Mini

end Pcode
