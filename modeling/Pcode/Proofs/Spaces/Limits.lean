import Mathlib.Data.Nat.ModEq
import Pcode.Proofs.Spaces.Described
import Pcode.Proofs.Spaces.Wrapping
import Pcode.Proofs.Word

/-!
# The last offset of a space

Pointers tell units apart, and the last offset of a space is that of the last byte of the last unit.
The product and the sum that give it may wrap. From eight bytes on they give the largest word for
every size of a unit, and the number of offsets is no word then. Nothing computes it there, since an
offset is reduced only where it lies past the last one.
-/
namespace Pcode.SpaceInfo

/-! ## The last offset -/

/-- The last offset for pointers of `size` bytes that count units of `unit` bytes. From eight bytes on
pointers reach all offsets. -/
structure EndsFor (s : SpaceInfo) (size unit : UInt64) : Prop where
  whole : 8 ≤ size → s.highest.toNat = 2 ^ 64 - 1
  part : size < 8 → max unit.toNat 1 * 2 ^ (8 * size.toNat) ≤ 2 ^ 64 →
    s.highest.toNat = max unit.toNat 1 * 2 ^ (8 * size.toNat) - 1

theorem endsFor_of_highest {s : SpaceInfo} {size unit : UInt64}
    (h : s.highest = Word.highest size unit) : s.EndsFor size unit where
  whole hsize := by
    have hpos : 1 ≤ max unit.toNat 1 := Nat.le_max_right ..
    have hge : 8 ≤ size.toNat := UInt64.le_iff_toNat_le.mp hsize
    rw [h, Word.toNat_highest, Nat.min_eq_right (by omega)]
    omega
  part hsize hbound := by
    have hlt : size.toNat < 8 := UInt64.lt_iff_toNat_lt.mp hsize
    rw [h, Word.toNat_highest, Nat.min_eq_left (by omega)]
    exact Nat.mod_eq_of_lt (by omega)

/-- The ways in which a space comes to have pointers of `size` bytes that count units of `unit`
bytes: it is made so, its tag says so, or its pointers are narrowed. -/
inductive Sized : SpaceInfo → UInt64 → UInt64 → Prop
  | made {purpose : Purpose} {name : String} {size unit index : UInt64} {properties : Properties}
      {delay : UInt64} : Sized (ofSizes purpose name size unit index properties delay) size unit
  | configured {purpose : Purpose} {e : Xml.Element} {order : ByteOrder} {s : SpaceInfo}
      {size unit : UInt64} : ofElement purpose e order = .ok s → e.word "size" = .ok size →
      e.wordD "wordsize" 1 = .ok unit → Sized s size unit
  | narrowed {s : SpaceInfo} {size : UInt64} : Sized (s.narrow size) size s.wordSize

namespace Sized
variable {s : SpaceInfo} {size unit : UInt64}

theorem eq (h : Sized s size unit) :
    s.pointerSize = size ∧ s.wordSize = unit ∧ s.highest = Word.highest size unit := by
  cases h with
  | made => exact ⟨rfl, rfl, rfl⟩
  | narrowed => exact ⟨rfl, rfl, rfl⟩
  | configured hs hsize hunit =>
      have hdescribed := ofElement_eq_ok.mp hs
      obtain rfl := Except.ok.inj (hdescribed.pointerSize.symm.trans hsize)
      obtain rfl := Except.ok.inj (hdescribed.wordSize.symm.trans hunit)
      exact ⟨rfl, rfl, hdescribed.highest⟩

theorem endsFor (h : Sized s size unit) : s.EndsFor size unit := endsFor_of_highest h.eq.2.2

end Sized

/-! ## Offsets past the last one -/

theorem wrap_wrap (s : SpaceInfo) (offset : UInt64) : s.wrap (s.wrap offset) = s.wrap offset :=
  wrap_of_le (s.wrap_le_highest offset)

theorem wrap_eq_wrap_iff (s : SpaceInfo) (a b : UInt64) :
    s.wrap a = s.wrap b ↔ a.toNat ≡ b.toNat [MOD s.extent] := by
  rw [← UInt64.toNat_inj, toNat_wrap, toNat_wrap]
  exact Iff.rfl

/-- However a space comes to have its sizes, it ends with the last byte of the last unit that its
pointers reach, and with the last offset of all once they have eight bytes. Whatever its last offset
is, an offset is reduced to the space without leaving the range of words: to itself up to the last
offset, to the same again when it is reduced twice, and to the same as another one exactly when the
two agree modulo the number of offsets. -/
theorem ends_and_wraps_exactly :
    (∀ s size unit, Sized s size unit → s.EndsFor size unit) ∧
    ∀ (s : SpaceInfo) (a : UInt64),
      s.wrapChecked a = .ok (s.wrap a) ∧ s.wrap a ≤ s.highest ∧
      (a ≤ s.highest → s.wrap a = a) ∧ s.wrap (s.wrap a) = s.wrap a ∧
      ∀ b, s.wrap a = s.wrap b ↔ a.toNat ≡ b.toNat [MOD s.highest.toNat + 1] := by
  refine ⟨fun _ _ _ => Sized.endsFor, ?_⟩
  intro s a
  exact ⟨s.wrapChecked_eq a, s.wrap_le_highest a, wrap_of_le, s.wrap_wrap a, s.wrap_eq_wrap_iff a⟩

/-- Three does not divide the number of words, and still the last offset is the largest word. -/
example : (ofSizes .processor "ram" 8 3 1 .none 0).highest = 0xffffffffffffffff := by decide

end Pcode.SpaceInfo
