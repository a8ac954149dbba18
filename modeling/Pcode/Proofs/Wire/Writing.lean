import Mathlib.Tactic.Common
import Pcode.Proofs.Actions
import Pcode.Wire.Writer

/-!
# What is written

The bytes of every part of a record, and the conditions under which the part is written: the
indices of its spaces and the sizes of its operands must fit in one byte.
-/
namespace Pcode

/-- The output of the operation, if it has one, and its inputs. -/
def Op.operands (o : Op) : List Varnode := o.output.toList ++ o.inputs

namespace Wire

/-- The byte of a number. -/
def byteOf (value : UInt64) : UInt8 := value.toUInt8 + bias

/-- Numbers have one byte up to 223. -/
def Narrow (value : UInt64) : Prop := value.toNat + bias.toNat < UInt8.size

def offsetBytes (value : UInt64) : List UInt8 := Writer.groups value.toNat ++ [Mark.stop.byte]

def varnodeBytes (v : Varnode) : List UInt8 :=
  Mark.varnode.byte :: byteOf v.space.value.toUInt64 :: (offsetBytes v.offset ++ [byteOf v.size])

def outputBytes : Option Varnode → List UInt8
  | some v => varnodeBytes v
  | none => [Mark.nothing.byte]

def operationBytes (o : Op) : List UInt8 :=
  Mark.operation.byte :: byteOf o.opcode.number.toUInt64 ::
    (outputBytes o.output ++ (o.inputs.flatMap varnodeBytes ++ [Mark.stop.byte]))

def recordBytes : Record → List UInt8
  | .decoded b =>
    Mark.instruction.byte :: (offsetBytes b.length ++
      byteOf b.address.space.value.toUInt64 :: (offsetBytes b.address.offset ++
        (b.operations.flatMap operationBytes ++ [Mark.stop.byte])))
  | .unimplemented length => Mark.unimplemented.byte :: offsetBytes length

/-- The operand can be written. -/
def FitsVarnode (v : Varnode) : Prop := Narrow v.space.value.toUInt64 ∧ Narrow v.size

/-- The operation can be written: all its operands can. -/
def FitsOp (o : Op) : Prop := ∀ v ∈ o.operands, FitsVarnode v

/-- The record can be written: the space of its address has an index of one byte, and all its
operations can be written. -/
def FitsRecord : Record → Prop
  | .decoded b => Narrow b.address.space.value.toUInt64 ∧ ∀ o ∈ b.operations, FitsOp o
  | .unimplemented _ => True

theorem narrow_number (o : Opcode) : Narrow o.number.toUInt64 := by
  unfold Narrow
  cases o <;> decide

namespace Writer

theorem biased_of_narrow {quantity : Quantity} {value : UInt64} (h : Narrow value) :
    biased quantity value = .ok (byteOf value) := if_pos h

theorem biased_of_not_narrow {quantity : Quantity} {value : UInt64} (h : ¬Narrow value) :
    biased quantity value = .error (.tooLarge quantity value) := if_neg h

/-- The writer appends exactly these bytes where it succeeds, and succeeds under this condition. -/
def Writes (w : Writer Unit) (fits : Prop) (bytes : List UInt8) : Prop :=
  ∀ written after, w.exec written = (.ok (), after) ↔ fits ∧ after = written ++ bytes

namespace Writes
variable {w w' : Writer Unit} {fits fits' : Prop} {bytes bytes' : List UInt8}

theorem congr (h : Writes w fits bytes) (hfits : fits ↔ fits') : Writes w fits' bytes := by
  intro written after
  rw [← hfits]
  exact h written after

theorem pure : Writes (pure ()) True [] := by
  intro written after
  rw [Action.exec_pure, List.append_nil, true_and, Prod.mk.injEq, eq_comm (a := after)]
  exact and_iff_right rfl

theorem push (bytes : List UInt8) : Writes (push bytes) True bytes := by
  intro written after
  unfold Writer.push
  rw [Action.exec_modify, true_and, Prod.mk.injEq, eq_comm (a := after)]
  exact and_iff_right rfl

theorem bind (h : Writes w fits bytes) (h' : Writes w' fits' bytes') :
    Writes (w >>= fun _ => w') (fits ∧ fits') (bytes ++ bytes') := by
  intro written after
  rw [Action.exec_bind_ok]
  constructor
  · intro hboth
    obtain ⟨_, middle, hw, hw'⟩ := hboth
    obtain ⟨hfits, rfl⟩ := (h _ _).mp hw
    obtain ⟨hfits', rfl⟩ := (h' _ _).mp hw'
    exact ⟨⟨hfits, hfits'⟩, List.append_assoc ..⟩
  · intro hboth
    obtain ⟨⟨hfits, hfits'⟩, rfl⟩ := hboth
    refine ⟨(), written ++ bytes, (h _ _).mpr ⟨hfits, rfl⟩, (h' _ _).mpr ⟨hfits', ?_⟩⟩
    rw [List.append_assoc]

/-- A number is written where it has one byte. -/
theorem biased {k : UInt8 → Writer Unit} {quantity : Quantity} {value : UInt64}
    (h : Writes (k (byteOf value)) fits bytes) :
    Writes (liftM (biased quantity value) >>= k) (Narrow value ∧ fits) bytes := by
  intro written after
  rw [Action.exec_liftM_bind]
  by_cases hnarrow : Narrow value
  · rw [biased_of_narrow hnarrow, and_iff_right hnarrow]
    exact h written after
  · rw [biased_of_not_narrow hnarrow]
    constructor
    · intro hok
      cases hok
    · intro hfits
      exact absurd hfits.1.1 hnarrow

/-- A complete part is written as its parts are. -/
theorem whole (h : Writes w fits bytes) : Writes (whole w) fits bytes := by
  intro written after
  change Writer.whole w written = _ ↔ _
  unfold Writer.whole
  rcases hw : w.exec [] with ⟨_ | _, apart⟩
  · constructor
    · intro hok
      cases hok
    · intro hwhole
      obtain ⟨hfits, -⟩ := hwhole
      rw [(h [] bytes).mpr ⟨hfits, rfl⟩] at hw
      cases hw
  · obtain ⟨hfits, rfl⟩ := (h [] apart).mp hw
    constructor
    · intro hok
      cases hok
      exact ⟨hfits, rfl⟩
    · intro hwhole
      obtain ⟨-, rfl⟩ := hwhole
      rfl

end Writes

theorem writes_offset (value : UInt64) : Writes (offset value) True (offsetBytes value) := .push _

theorem writes_varnode (v : Varnode) : Writes (varnode v) (FitsVarnode v) (varnodeBytes v) := by
  have hparts := (Writes.push [Mark.varnode.byte, byteOf v.space.value.toUInt64]).bind <|
    (writes_offset v.offset).bind <| Writes.push [byteOf v.size]
  have h : Writes (varnode v) (Narrow v.space.value.toUInt64 ∧ Narrow v.size ∧ _)
      (varnodeBytes v) := .biased (.biased hparts)
  exact h.congr (by simp [FitsVarnode])

theorem writes_varnodes (vs : List Varnode) :
    Writes (varnodes vs) (∀ v ∈ vs, FitsVarnode v) (vs.flatMap varnodeBytes) := by
  induction vs with
  | nil => exact Writes.pure.congr (by simp)
  | cons v vs ih =>
      rw [List.flatMap_cons]
      exact ((writes_varnode v).bind ih).congr (by simp)

theorem writes_operation (o : Op) : Writes (operation o) (FitsOp o) (operationBytes o) := by
  rcases o with ⟨opcode, output, inputs⟩
  have hrest := (writes_varnodes inputs).bind (Writes.push [Mark.stop.byte])
  have hnumber := narrow_number opcode
  cases output with
  | none =>
      have hparts := (Writes.push [byteOf opcode.number.toUInt64]).bind <|
        (Writes.push [Mark.nothing.byte]).bind hrest
      have h : Writes (operation ⟨opcode, none, inputs⟩) (True ∧ Narrow opcode.number.toUInt64 ∧ _)
          (operationBytes ⟨opcode, none, inputs⟩) :=
        .whole <| (Writes.push [Mark.operation.byte]).bind <| .biased hparts
      exact h.congr (by simp [FitsOp, Op.operands, hnumber])
  | some v =>
      have hparts := (Writes.push [byteOf opcode.number.toUInt64]).bind <|
        (writes_varnode v).bind hrest
      have h : Writes (operation ⟨opcode, some v, inputs⟩)
          (True ∧ Narrow opcode.number.toUInt64 ∧ _) (operationBytes ⟨opcode, some v, inputs⟩) :=
        .whole <| (Writes.push [Mark.operation.byte]).bind <| .biased hparts
      exact h.congr (by simp [FitsOp, Op.operands, hnumber])

theorem writes_operations (os : List Op) :
    Writes (operations os) (∀ o ∈ os, FitsOp o) (os.flatMap operationBytes) := by
  induction os with
  | nil => exact Writes.pure.congr (by simp)
  | cons o os ih =>
      rw [List.flatMap_cons]
      exact ((writes_operation o).bind ih).congr (by simp)

theorem writes_record (x : Record) : Writes (record x) (FitsRecord x) (recordBytes x) := by
  cases x with
  | unimplemented length =>
      exact ((Writes.push [Mark.unimplemented.byte]).bind (writes_offset length)).congr
        (and_iff_left trivial)
  | decoded b =>
      have hparts := (Writes.push [byteOf b.address.space.value.toUInt64]).bind <|
        (writes_offset b.address.offset).bind <|
          (writes_operations b.operations).bind <| Writes.push [Mark.stop.byte]
      have h : Writes (instruction b) (True ∧ True ∧ Narrow b.address.space.value.toUInt64 ∧ _)
          (recordBytes (.decoded b)) :=
        .whole <| (Writes.push [Mark.instruction.byte]).bind <|
          (writes_offset b.length).bind <| .biased hparts
      exact h.congr (by simp [FitsRecord])

end Writer

end Wire

end Pcode
