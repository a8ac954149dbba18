import Pcode.Proofs.Wire.Writing

/-!
# Writing all or nothing

Operands, spaces, operations and instructions are written exactly where all their space indices and
sizes have one byte. Elsewhere what was written before stays as it was, however much of the part at
fault could be written.
-/
namespace Pcode.Wire
open Pcode.Action (AllOrNothing)

theorem narrow_iff {value : UInt64} : Narrow value ↔ value.toNat ≤ 223 := by
  change value.toNat + 32 < 256 ↔ _
  omega

theorem narrow_index_iff {id : SpaceId} : Narrow id.value.toUInt64 ↔ id.index ≤ 223 := by
  rw [narrow_iff, UInt32.toNat_toUInt64]
  rfl

/-- The index of the space and the size of the operand have one byte. -/
def OneByte (v : Varnode) : Prop := v.space.index ≤ 223 ∧ v.size.toNat ≤ 223

theorem fitsVarnode_iff {v : Varnode} : FitsVarnode v ↔ OneByte v :=
  and_congr narrow_index_iff narrow_iff

theorem fitsOp_iff {o : Op} : FitsOp o ↔ ∀ v ∈ o.operands, OneByte v :=
  forall₂_congr fun _ _ => fitsVarnode_iff

namespace Writer

/-- The writer appends these bytes under this condition, and otherwise fails and appends nothing. -/
def AppendsIff (w : Writer Unit) (fits : Prop) (bytes : List UInt8) : Prop :=
  ∀ written, (fits → w.exec written = (.ok (), written ++ bytes)) ∧
    (¬fits → ∃ cause, w.exec written = (.error cause, written))

section Parts
variable {w : Writer Unit} {fits : Prop} {bytes written : List UInt8}

theorem Writes.appendsIff (h : Writes w fits bytes)
    (hnothing : ∀ written, AllOrNothing w written) : AppendsIff w fits bytes := by
  intro written
  constructor
  · intro hfits
    exact (h written _).mpr ⟨hfits, rfl⟩
  · intro hfits
    rcases hexec : w.exec written with ⟨cause | ⟨⟩, after⟩
    · rw [hnothing written cause after hexec]
      exact ⟨cause, rfl⟩
    · exact absurd ((h written after).mp hexec).1 hfits

theorem Writes.allOrNothing (h : Writes w fits bytes) (hfits : fits) : AllOrNothing w written := by
  intro cause after hexec
  cases hexec.symm.trans ((h written _).mpr ⟨hfits, rfl⟩)

/-- A number that has no byte is found before anything is written. -/
theorem allOrNothing_biased {k : UInt8 → Writer Unit} {quantity : Quantity} {value : UInt64}
    (h : AllOrNothing (k (byteOf value)) written) :
    AllOrNothing (liftM (biased quantity value) >>= k) written := by
  intro cause after hexec
  rw [Action.exec_liftM_bind] at hexec
  by_cases hnarrow : Narrow value
  · rw [biased_of_narrow hnarrow] at hexec
    exact h cause after hexec
  · rw [biased_of_not_narrow hnarrow] at hexec
    cases hexec
    rfl

theorem allOrNothing_whole (w : Writer Unit) (written : List UInt8) :
    AllOrNothing (whole w) written := by
  intro cause after hexec
  have hunchanged := whole_of_error (congrArg Prod.fst hexec)
  rw [hexec] at hunchanged
  exact hunchanged

end Parts

/-- Both numbers of an operand are looked at before the first byte is written. -/
theorem allOrNothing_varnode (v : Varnode) (written : List UInt8) :
    AllOrNothing (varnode v) written := by
  have hparts := (Writes.push [Mark.varnode.byte, byteOf v.space.value.toUInt64]).bind <|
    (writes_offset v.offset).bind <| Writes.push [byteOf v.size]
  exact allOrNothing_biased (allOrNothing_biased (hparts.allOrNothing ⟨trivial, trivial, trivial⟩))

theorem writes_spaceId (id : SpaceId) :
    Writes (spaceId id) (Narrow id.value.toUInt64)
      [Mark.space.byte, byteOf id.value.toUInt64] := by
  have h : Writes (spaceId id) (Narrow id.value.toUInt64 ∧ True) _ := .biased (.push _)
  exact h.congr (and_iff_left trivial)

theorem allOrNothing_spaceId (id : SpaceId) (written : List UInt8) :
    AllOrNothing (spaceId id) written :=
  allOrNothing_biased ((Writes.push _).allOrNothing trivial)

/-- Whatever was written before, the writers of operands, spaces, operations and instructions append
the bytes of what they write exactly where the indices of all spaces in it and all sizes are at most
223. Otherwise they fail, and what was written before is all that is written. -/
theorem writers_all_or_nothing :
    (∀ v, AppendsIff (varnode v) (OneByte v) (varnodeBytes v)) ∧
    (∀ id, AppendsIff (spaceId id) (id.index ≤ 223)
      [Mark.space.byte, byteOf id.value.toUInt64]) ∧
    (∀ o, AppendsIff (operation o) (∀ v ∈ o.operands, OneByte v) (operationBytes o)) ∧
    ∀ b, AppendsIff (instruction b)
      (b.address.space.index ≤ 223 ∧ ∀ o ∈ b.operations, ∀ v ∈ o.operands, OneByte v)
      (recordBytes (.decoded b)) := by
  refine ⟨?_, ?_, ?_, ?_⟩
  · intro v
    exact ((writes_varnode v).congr fitsVarnode_iff).appendsIff (allOrNothing_varnode v)
  · intro id
    exact ((writes_spaceId id).congr narrow_index_iff).appendsIff (allOrNothing_spaceId id)
  · intro o
    exact ((writes_operation o).congr fitsOp_iff).appendsIff fun _ => allOrNothing_whole _ _
  · intro b
    have hfits : FitsRecord (.decoded b) ↔
        b.address.space.index ≤ 223 ∧ ∀ o ∈ b.operations, ∀ v ∈ o.operands, OneByte v :=
      and_congr narrow_index_iff (forall₂_congr fun _ _ => fitsOp_iff)
    exact ((writes_record (.decoded b)).congr hfits).appendsIff fun _ => allOrNothing_whole _ _

end Writer

end Pcode.Wire
