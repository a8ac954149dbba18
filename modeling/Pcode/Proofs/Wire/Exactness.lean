import Pcode.Proofs.Registry.Tables
import Pcode.Proofs.Wire.Recognition

/-!
# Reading is exact

Over every registry that comes about, the words of the grammar are what is read as records, one
operation is passed on for each word of it, and an instruction that was read is written and read
again as itself.
-/
namespace Pcode.Wire

/-! ## What words stand for can be written -/

theorem IsNumber.narrow {w : List UInt8} {n : UInt8} (h : IsNumber w n) : Narrow n.toUInt64 := by
  cases h with
  | @byte b hge =>
      have hlt : b.toNat < 256 := b.toNat_lt
      have hbias : 32 ≤ b.toNat := UInt8.le_iff_toNat_le.mp hge
      have hvalue : (b - 0x20).toUInt64.toNat = b.toNat - 32 := Reader.toNat_group_of_ge hge
      change (b - 0x20).toUInt64.toNat + 32 < 256
      omega

theorem IsSpace.narrow {r : Registry} {w : List UInt8} {id : SpaceId} (h : IsSpace r w id) :
    Narrow id.value.toUInt64 := by
  cases h with
  | @index _ n _ s hn hindex hs =>
      have hvalue : id.value.toUInt64 = n.toUInt64 := by
        apply UInt64.toNat_inj.mp
        rw [UInt32.toNat_toUInt64, UInt8.toNat_toUInt64]
        exact hindex
      rw [hvalue]
      exact hn.narrow

theorem IsSpace.defined {r : Registry} {w : List UInt8} {id : SpaceId} (h : IsSpace r w id) :
    ∃ s, r.find? id = some s := by
  cases h with
  | index hn hindex hs => exact ⟨_, hs⟩

theorem narrow_constant : Narrow SpaceId.constant.value.toUInt64 := by
  unfold Narrow
  decide

theorem narrow_spaceConstantSize : Narrow spaceConstantSize := by
  unfold Narrow
  decide

theorem IsOperand.fits {r : Registry} {w : List UInt8} {v : Varnode} (h : IsOperand r w v) :
    FitsVarnode v := by
  cases h with
  | location hid hoffset hsize => exact ⟨hid.narrow, hsize.narrow⟩
  | space => exact ⟨narrow_constant, narrow_spaceConstantSize⟩

theorem IsList.forall_mem {α : Type} {L : Language α} {P : α → Prop} (hP : ∀ w a, L w a → P a)
    {w : List UInt8} {as : List α} (h : IsList L w as) : ∀ a ∈ as, P a := by
  induction h with
  | stop =>
      intro a ha
      cases ha
  | cons hu _ ih =>
      intro a ha
      rcases List.mem_cons.mp ha with rfl | ha
      · exact hP _ _ hu
      · exact ih a ha

/-- What holds of every operand that is read holds of the operands of an operation. -/
theorem IsOperation.forall_operands {r : Registry} {P : Varnode → Prop}
    (hP : ∀ w v, IsOperand r w v → P v) {w : List UInt8} {o : Op} (h : IsOperation r w o) :
    ∀ v ∈ o.operands, P v := by
  cases h with
  | parts hcode houtput hinputs =>
      intro v hv
      rcases List.mem_append.mp hv with hv | hv
      · cases houtput with
        | nothing => cases hv
        | operand houtput =>
            obtain rfl := List.mem_singleton.mp hv
            exact hP _ _ houtput
      · exact hinputs.forall_mem hP v hv

theorem IsRecord.fits {r : Registry} {w : List UInt8} {x : Record} (h : IsRecord r w x) :
    FitsRecord x := by
  cases h with
  | unimplemented => trivial
  | decoded hlength hid hoffset hoperations =>
      refine ⟨hid.narrow, hoperations.forall_mem fun w o ho => ?_⟩
      exact ho.forall_operands fun w v hv => hv.fits

section Registry
variable {r : Registry} (hconstant : ∃ s, r.find? .constant = some s)
include hconstant

theorem IsOperand.defined {w : List UInt8} {v : Varnode} (h : IsOperand r w v) :
    ∃ s, r.find? v.space = some s := by
  cases h with
  | location hid => exact hid.defined
  | space => exact hconstant

/-- The spaces of a record that is read are those of its address and of its operands. -/
theorem IsRecord.defined {w : List UInt8} {x : Record} (h : IsRecord r w x) :
    ∀ id ∈ x.spaces, ∃ s, r.find? id = some s := by
  cases h with
  | unimplemented =>
      intro id hid
      cases hid
  | decoded hlength haddress hoffset hoperations =>
      intro id hid
      rcases List.mem_cons.mp hid with rfl | hid
      · exact haddress.defined
      · obtain ⟨o, ho, hid⟩ := List.mem_flatMap.mp hid
        obtain ⟨v, hv, rfl⟩ := List.mem_map.mp hid
        have hall := hoperations.forall_mem
          (fun w o ho => ho.forall_operands fun w v hv => hv.defined hconstant) o ho
        exact hall v hv

end Registry

/-! ## Operations passed on -/

namespace Reader

/-- An operation is passed on when it was read, and nothing is otherwise. -/
theorem exec_emit (r : Registry) (address : Address) (c : Cursor) (emitted : List Emission) :
    (emit r address).exec (c, emitted) =
      match (operation r).exec c with
      | (.ok o, c) => (.ok (), c, emitted ++ [⟨address, o⟩])
      | (.error cause, c) => (.error cause, c, emitted) := by
  unfold emit
  rw [Action.exec_bind, Action.exec_focus]
  rcases (operation r).exec c with ⟨_ | o, c⟩ <;> rfl

/-- Reading over the registry is exact. -/
structure Exact (r : Registry) : Prop where
  /-- What is read as a record is a word of the grammar, read as what it stands for. -/
  records : Accepts (record r) (IsRecord r)
  /-- A word of an operation passes this operation on, once. -/
  passed : ∀ {w o}, IsOperation r w o → ∀ address start more emitted,
    (emit r address).exec (⟨start, w ++ more⟩, emitted) =
      (.ok (), ⟨start + w.length, more⟩, emitted ++ [⟨address, o⟩])
  /-- Other bytes fail and pass nothing on. -/
  silent : ∀ {bytes}, (∀ w rest o, bytes = w ++ rest → ¬IsOperation r w o) →
    ∀ address start emitted, ∃ cause c,
      (emit r address).exec (⟨start, bytes⟩, emitted) = (.error cause, c, emitted)
  /-- An instruction that was read can be written, and is read again from what is written. -/
  rewritten : ∀ {start bytes b c}, (record r).exec ⟨start, bytes⟩ = (.ok (.decoded b), c) →
    ∃ written, (Writer.instruction b).exec [] = (.ok (), written) ∧
      ∀ start more, (record r).exec ⟨start, written ++ more⟩ =
        (.ok (.decoded b), ⟨start + written.length, more⟩)

theorem exact_after (history : List Registry.Request) :
    Exact (Registry.start.after history) := by
  have hr := Registry.numbered_after history
  have hconstant : ∃ s, (Registry.start.after history).find? .constant = some s :=
    ⟨_, List.getElem?_eq_getElem (Registry.tabled_after history).pos⟩
  generalize Registry.start.after history = r at hr hconstant
  have hrecord := Accepts.record hr
  have hoperation := Accepts.operation hr
  refine ⟨hrecord, ?passed, ?silent, ?rewritten⟩
  case passed =>
    intro w o hw address start more emitted
    rw [exec_emit, hoperation.reads hw]
  case silent =>
    intro bytes hbytes address start emitted
    rw [exec_emit]
    rcases h : (operation r).exec ⟨start, bytes⟩ with ⟨cause | o, c⟩
    · exact ⟨cause, c, rfl⟩
    · obtain ⟨w, rest, rfl, hw, -⟩ := (hoperation _ _ _ _).mp h
      exact absurd hw (hbytes w rest o rfl)
  case rewritten =>
    intro start bytes b c h
    obtain ⟨w, rest, -, hw, -⟩ := (hrecord _ _ _ _).mp h
    have hwritten := (Writer.writes_record (.decoded b) [] _).mpr ⟨hw.fits, rfl⟩
    exact ⟨_, hwritten, Reads.record hr (hw.defined hconstant) hw.fits⟩

end Reader

end Pcode.Wire
