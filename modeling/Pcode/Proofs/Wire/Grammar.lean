import Pcode.Registry.Basic
import Pcode.Wire.Record

/-!
# The grammar of records

The words of bytes that stand for records over the spaces of a registry, each with what it stands
for:

    record    = 0x20 offset | 0x21 offset space offset operation* 0x60
    operation = 0x22 opcode (0x23 | operand) operand* 0x60
    operand   = 0x25 space offset size | 0x24 space

Spaces, sizes and opcodes are numbers of one byte from 0x20 on, offsets are groups of six bits,
the least significant first, closed by 0x60.
-/
namespace Pcode.Wire

/-- A language gives words their meanings. -/
abbrev Language (α : Type) := List UInt8 → α → Prop

/-- One byte, from 0x20 on. -/
inductive IsNumber : Language UInt8
  | byte {b : UInt8} : 0x20 ≤ b → IsNumber [b] (b - 0x20)

/-- What groups of six bits are worth, the least significant first. -/
def worth : List UInt8 → Nat
  | [] => 0
  | b :: bs => (b.toNat - 0x20) + 64 * worth bs

/-- At most eleven groups that are worth a word, and the byte that closes them. -/
inductive IsOffset : Language UInt64
  | groups {bs : List UInt8} {value : UInt64} : bs.length ≤ 11 →
      (∀ b ∈ bs, 0x20 ≤ b ∧ b < 0x60) → worth bs = value.toNat → IsOffset (bs ++ [0x60]) value

/-- The index of a space of the registry. -/
inductive IsSpace (r : Registry) : Language SpaceId
  | index {w : List UInt8} {n : UInt8} {id : SpaceId} {s : Space} : IsNumber w n →
      id.index = n.toNat → r.find? id = some s → IsSpace r w id

inductive IsOpcode : Language Opcode
  | number {w : List UInt8} {o : Opcode} : IsNumber w o.number → IsOpcode w o

/-- A location, or a space, which stands for the constant of eight bytes that holds its index. -/
inductive IsOperand (r : Registry) : Language Varnode
  | location {u v w : List UInt8} {id : SpaceId} {offset : UInt64} {size : UInt8} :
      IsSpace r u id → IsOffset v offset → IsNumber w size →
      IsOperand r (0x25 :: (u ++ (v ++ w))) ⟨id, offset, size.toUInt64⟩
  | space {w : List UInt8} {id : SpaceId} : IsSpace r w id →
      IsOperand r (0x24 :: w) ⟨.constant, id.value.toUInt64, 8⟩

inductive IsOutput (r : Registry) : Language (Option Varnode)
  | nothing : IsOutput r [0x23] none
  | operand {w : List UInt8} {v : Varnode} : IsOperand r w v → IsOutput r w (some v)

/-- Words of a language one after the other, and the byte that ends them. -/
inductive IsList {α : Type} (item : Language α) : Language (List α)
  | stop : IsList item [0x60] []
  | cons {u w : List UInt8} {a : α} {as : List α} : item u a → IsList item w as →
      IsList item (u ++ w) (a :: as)

inductive IsOperation (r : Registry) : Language Op
  | parts {u v w : List UInt8} {opcode : Opcode} {output : Option Varnode}
      {inputs : List Varnode} : IsOpcode u opcode → IsOutput r v output →
      IsList (IsOperand r) w inputs →
      IsOperation r (0x22 :: (u ++ (v ++ w))) ⟨opcode, output, inputs⟩

inductive IsRecord (r : Registry) : Language Record
  | unimplemented {w : List UInt8} {length : UInt64} : IsOffset w length →
      IsRecord r (0x20 :: w) (.unimplemented length)
  | decoded {t u v w : List UInt8} {length offset : UInt64} {id : SpaceId}
      {operations : List Op} : IsOffset t length → IsSpace r u id → IsOffset v offset →
      IsList (IsOperation r) w operations →
      IsRecord r (0x21 :: (t ++ (u ++ (v ++ w)))) (.decoded ⟨⟨id, offset⟩, operations, length⟩)

end Pcode.Wire
