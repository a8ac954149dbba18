import Pcode.Proofs.Registry.Kept
import Pcode.Proofs.Word

/-!
# Base registers

The base of a space is a register, of which only the least significant bytes may be used. A space
that is given a base register keeps its place and its extent.
-/
namespace Pcode

namespace BasedSpace

/-- The part of a register that is used when `size` bytes of it are asked for: its least significant
bytes, or all of it if none are asked for or no fewer than it has. -/
structure LowPart (order : ByteOrder) (register : Varnode) (size : UInt64) (used : Varnode) :
    Prop where
  space : used.space = register.space
  size : used.size = if 0 < size ∧ size < register.size then size else register.size
  /-- The least significant bytes come first in little endian, and last in big endian. -/
  offset :
    match order with
    | .little => used.offset = register.offset
    | .big => used.offset.toNat + used.size.toNat = register.offset.toNat + register.size.toNat

/-- What is left out of a register can be counted, so only moving its offset may overflow. -/
theorem narrowed_big {register : Varnode} {size : UInt64}
    (hpart : 0 < size ∧ size < register.size) :
    narrowed register size .big = (do
      let offset ← Word.add register.offset (register.size - size)
      return { register with offset, size }) := by
  have hleft : Word.sub register.size size = .ok (register.size - size) :=
    if_pos (UInt64.le_of_lt hpart.2)
  unfold narrowed
  rw [if_pos hpart]
  simp only
  rw [hleft]
  rfl

theorem lowPart_of_narrowed {register used : Varnode} {size : UInt64} {order : ByteOrder}
    (h : narrowed register size order = .ok used) : LowPart order register size used := by
  by_cases hpart : 0 < size ∧ size < register.size
  · cases order with
    | little =>
        unfold narrowed at h
        rw [if_pos hpart] at h
        cases h
        exact ⟨rfl, (if_pos hpart).symm, rfl⟩
    | big =>
        rw [narrowed_big hpart] at h
        obtain ⟨offset, hoffset, h⟩ := bind_eq_ok.mp h
        cases h
        refine ⟨rfl, (if_pos hpart).symm, ?_⟩
        have hle : size ≤ register.size := UInt64.le_of_lt hpart.2
        have hle' := UInt64.le_iff_toNat_le.mp hle
        have hsum := Word.add_eq_ok_iff.mp hoffset
        rw [UInt64.toNat_sub_of_le _ _ hle] at hsum
        change offset.toNat + size.toNat = _
        omega
  · unfold narrowed at h
    rw [if_neg hpart] at h
    cases h
    refine ⟨rfl, (if_neg hpart).symm, ?_⟩
    cases order <;> rfl

/-- A register has one low part at most. -/
theorem LowPart.eq {order : ByteOrder} {register used used' : Varnode} {size : UInt64}
    (h : LowPart order register size used) (h' : LowPart order register size used') :
    used = used' := by
  have hsize := h.size.trans h'.size.symm
  have hspace := h.space.trans h'.space.symm
  have hoffset : used.offset = used'.offset := by
    have hfirst := h.offset
    have hsecond := h'.offset
    cases order with
    | little => exact hfirst.trans hsecond.symm
    | big =>
        simp only at hfirst hsecond
        rw [hsize] at hfirst
        apply UInt64.toNat_inj.mp
        omega
  cases used
  cases used'
  simp_all

/-- The low part of a register is what narrowing makes of it. There is none when the least
significant bytes of a big-endian register lie behind the last offset. -/
theorem narrowed_eq_ok_iff {order : ByteOrder} {register used : Varnode} {size : UInt64} :
    narrowed register size order = .ok used ↔ LowPart order register size used := by
  refine ⟨lowPart_of_narrowed, ?_⟩
  intro h
  obtain ⟨used', hused⟩ : ∃ used', narrowed register size order = .ok used' := by
    by_cases hpart : 0 < size ∧ size < register.size
    · cases order with
      | little => exact ⟨_, if_pos hpart⟩
      | big =>
          have hsize := h.size
          have hend : used.offset.toNat + used.size.toNat = _ := h.offset
          have hle : size ≤ register.size := UInt64.le_of_lt hpart.2
          have hle' := UInt64.le_iff_toNat_le.mp hle
          rw [if_pos hpart] at hsize
          rw [hsize] at hend
          -- the low part has an offset, so moving up to it does not overflow
          have hoffset : Word.add register.offset (register.size - size) = .ok used.offset := by
            rw [Word.add_eq_ok_iff, UInt64.toNat_sub_of_le _ _ hle]
            omega
          rw [narrowed_big hpart, hoffset]
          exact ⟨_, rfl⟩
    · exact ⟨_, if_neg hpart⟩
  rw [hused, h.eq (lowPart_of_narrowed hused)]

end BasedSpace

namespace Registry

section Anchored
variable {b b' : BasedSpace} {register : Varnode} {size : UInt64} {growsDown : Bool}
  {order : ByteOrder} (h : anchored b register size growsDown order = .ok b')
include h

/-- The first base register of a space is recorded as it is given and as it is used. -/
theorem anchor_of_anchored (hb : b.anchor = none) :
    ∃ used, BasedSpace.LowPart order register size used ∧ b'.anchor = some ⟨used, register⟩ ∧
      b'.growsDown = growsDown := by
  unfold anchored at h
  obtain ⟨used, hused, h⟩ := bind_eq_ok.mp h
  rw [hb] at h
  cases h
  exact ⟨used, BasedSpace.lowPart_of_narrowed (Failure.ofChecked_eq_ok.mp hused), rfl, rfl⟩

theorem extent_anchored :
    b'.info.pointerSize = b.info.pointerSize ∧ b'.info.highest = b.info.highest := by
  unfold anchored at h
  obtain ⟨used, -, h⟩ := bind_eq_ok.mp h
  cases hb : b.anchor with
  | none =>
      rw [hb] at h
      cases h
      exact ⟨rfl, rfl⟩
  | some known =>
      rw [hb] at h
      obtain ⟨-, h⟩ := check_eq_ok.mp h
      cases h
      exact ⟨rfl, rfl⟩

end Anchored

theorem exec_anchor_ok {id : SpaceId} {register : Varnode} {size : UInt64} {growsDown : Bool}
    {r t : Registry} :
    (anchor id register size growsDown).exec r = (.ok (), t) ↔
      ∃ registers b b', r.find? register.space = some registers ∧ r.find? id = some (.based b) ∧
        anchored b register size growsDown registers.info.byteOrder = .ok b' ∧
        { r with spaces := r.spaces.set id.index (.based b') } = t := by
  rw [exec_anchor]
  rcases r.find? register.space with _ | registers
  · simp
  · rcases r.find? id with _ | s
    · simp
    · cases s with
      | based b =>
          simp only
          rcases h : anchored b register size growsDown registers.info.byteOrder <;> simp [h]
      | _ => simp

section Anchor
variable {r : Registry} {id : SpaceId} {b b' : BasedSpace} {register : Varnode} {size : UInt64}
  {growsDown : Bool} {order : ByteOrder} (hb : r.find? id = some (.based b))
  (h : anchored b register size growsDown order = .ok b')
include hb

/-- The space that is given a base register is the one that has the handle. -/
theorem find?_set_self :
    ({ r with spaces := r.spaces.set id.index (.based b') } : Registry).find? id =
      some (.based b') := by
  have hlt := (List.getElem?_eq_some_iff.mp hb).1
  change (r.spaces.set id.index (.based b'))[id.index]? = _
  rw [List.getElem?_set_self hlt]

include h in
/-- Every space has the extent it had. -/
theorem extent_set {i : Nat} {s s' : Space} (hs : r.at? i = some s)
    (hs' : ({ r with spaces := r.spaces.set id.index (.based b') } : Registry).at? i = some s') :
    s'.info.pointerSize = s.info.pointerSize ∧ s'.info.highest = s.info.highest := by
  by_cases hi : id.index = i
  · subst hi
    cases hs'.symm.trans (find?_set_self hb)
    cases hs.symm.trans hb
    exact extent_anchored h
  · change (r.spaces.set id.index (.based b'))[i]? = _ at hs'
    rw [List.getElem?_set_ne hi] at hs'
    cases hs'.symm.trans hs
    exact ⟨rfl, rfl⟩

end Anchor

end Registry

end Pcode
