import Mathlib.Algebra.GroupWithZero.Nat
import Mathlib.Tactic.Common
import Pcode.Locations

/-!
# Order and overlap of varnodes

Varnodes are in a lawful total order, by space, then offset, then size, and no two different ones
are equal in it. Two varnodes overlap where they share a byte other than the last offset of all, or
where one has no bytes and stands inside the other.
-/
namespace Pcode
open Std (TransCmp TransOrd LawfulEqOrd)

namespace SpaceId

theorem compare_eq_compareOn : (compare : SpaceId → SpaceId → Ordering) = compareOn value := by
  funext s t
  change (compare s.value t.value).then .eq = _
  exact Ordering.then_eq

instance : TransOrd SpaceId := by
  unfold TransOrd
  rw [compare_eq_compareOn]
  infer_instance

instance : LawfulEqOrd SpaceId where
  compare_self := by
    intro s
    rw [compare_eq_compareOn]
    exact Std.ReflOrd.compare_self
  eq_of_compare := by
    intro s t h
    rw [compare_eq_compareOn] at h
    rcases s with ⟨s⟩
    rcases t with ⟨t⟩
    obtain rfl : s = t := Std.LawfulEqOrd.eq_of_compare h
    rfl

end SpaceId

namespace Varnode

theorem compare_eq_compareLex : (compare : Varnode → Varnode → Ordering) =
    compareLex (compareOn space) (compareLex (compareOn offset) (compareOn size)) := by
  funext v w
  change (compare v.space w.space).then
    ((compare v.offset w.offset).then ((compare v.size w.size).then .eq)) = _
  rw [Ordering.then_eq]
  rfl

instance : TransOrd Varnode := by
  unfold TransOrd
  rw [compare_eq_compareLex]
  infer_instance

instance : LawfulEqOrd Varnode where
  eq_of_compare := by
    intro v w h
    simp only [compare_eq_compareLex, compareLex_eq_eq, compareOn,
      Std.LawfulEqOrd.compare_eq_iff_eq] at h
    obtain ⟨hspace, hoffset, hsize⟩ := h
    rcases v with ⟨_, _, _⟩
    cases hspace
    cases hoffset
    cases hsize
    rfl

/-! ## Overlap -/

/-- The byte at an offset belongs to the varnode. -/
def HasByte (v : Varnode) (o : Nat) : Prop :=
  v.offset.toNat ≤ o ∧ o < v.offset.toNat + v.size.toNat

/-- Both varnodes have a byte, of the same space, at one of the first `limit` offsets. -/
def ShareBelow (limit : Nat) (v w : Varnode) : Prop :=
  v.space = w.space ∧ ∃ o < limit, v.HasByte o ∧ w.HasByte o

/-- A varnode without bytes lies behind the first byte of another one and before its end. The last
offset of all does not count. -/
structure StandsInside (v w : Varnode) : Prop where
  space : v.space = w.space
  empty : v.size = 0
  after : w.offset < v.offset
  before : v.offset.toNat < w.offset.toNat + w.size.toNat
  notLast : v.offset.toNat < 2 ^ 64 - 1

variable {v w : Varnode}

/-- Each varnode begins before the other one ends. Ends behind the last offset are moved there. -/
theorem overlaps_iff_begin_before_end : v.overlaps w = true ↔
    v.space = w.space ∧
      v.offset.toNat < min (w.offset.toNat + w.size.toNat) (2 ^ 64 - 1) ∧
      w.offset.toNat < min (v.offset.toNat + v.size.toNat) (2 ^ 64 - 1) := by
  have size : UInt64.size = 2 ^ 64 := rfl
  unfold overlaps
  rw [Bool.and_eq_true, Bool.and_eq_true, beq_iff_eq, decide_eq_true_eq, decide_eq_true_eq,
    UInt64.lt_iff_toNat_lt, UInt64.lt_iff_toNat_lt, Word.toNat_addSaturating,
    Word.toNat_addSaturating, size, and_assoc]

theorem overlaps_comm : v.overlaps w = w.overlaps v := by
  rw [Bool.eq_iff_iff, overlaps_iff_begin_before_end, overlaps_iff_begin_before_end, eq_comm,
    and_comm (a := _ < _)]

theorem overlaps_of_shareBelow (h : ShareBelow (2 ^ 64 - 1) v w) : v.overlaps w = true := by
  obtain ⟨hspace, o, ho, ⟨hv, hv'⟩, ⟨hw, hw'⟩⟩ := h
  rw [overlaps_iff_begin_before_end]
  exact ⟨hspace, by omega, by omega⟩

theorem StandsInside.overlaps (h : v.StandsInside w) : v.overlaps w = true := by
  obtain ⟨hspace, hempty, hafter, hbefore, hlast⟩ := h
  rw [UInt64.lt_iff_toNat_lt] at hafter
  rw [overlaps_iff_begin_before_end, hempty]
  exact ⟨hspace, by omega, by change _ < min (_ + 0) _; omega⟩

/-- The later of the two offsets is a byte of both varnodes, unless one of them is empty. -/
theorem shareBelow_or_standsInside (h : v.overlaps w = true) :
    ShareBelow (2 ^ 64 - 1) v w ∨ v.StandsInside w ∨ w.StandsInside v := by
  obtain ⟨hspace, hv, hw⟩ := overlaps_iff_begin_before_end.mp h
  by_cases hempty : v.size = 0
  · right
    left
    rw [hempty] at hw
    change _ < min (_ + 0) _ at hw
    exact ⟨hspace, hempty, UInt64.lt_iff_toNat_lt.mpr (by omega), by omega, by omega⟩
  · by_cases hempty' : w.size = 0
    · right
      right
      rw [hempty'] at hv
      change _ < min (_ + 0) _ at hv
      exact ⟨hspace.symm, hempty', UInt64.lt_iff_toNat_lt.mpr (by omega), by omega, by omega⟩
    · left
      rw [← UInt64.toNat_inj] at hempty hempty'
      change _ ≠ 0 at hempty
      change _ ≠ 0 at hempty'
      exact ⟨hspace, max v.offset.toNat w.offset.toNat, by omega, ⟨by omega, by omega⟩,
        ⟨by omega, by omega⟩⟩

/-- Two varnodes overlap exactly when they share a byte of a space other than the last offset of
all, or when one of them is empty and stands inside the other. Overlap is symmetric; a varnode
overlaps itself exactly when it has a byte before the last offset. -/
theorem overlaps_iff_shareBelow_or_standsInside (v w : Varnode) :
    (v.overlaps w = true ↔
      ShareBelow (2 ^ 64 - 1) v w ∨ v.StandsInside w ∨ w.StandsInside v) ∧
    v.overlaps w = w.overlaps v ∧
    (v.overlaps v = true ↔ v.size ≠ 0 ∧ v.offset.toNat < 2 ^ 64 - 1) := by
  refine ⟨⟨shareBelow_or_standsInside, ?_⟩, overlaps_comm, ?_⟩
  · intro h
    rcases h with hshare | hinside | hinside
    · exact overlaps_of_shareBelow hshare
    · exact hinside.overlaps
    · exact overlaps_comm.trans hinside.overlaps
  · have hempty : v.size ≠ 0 ↔ v.size.toNat ≠ 0 := UInt64.toNat_inj.not.symm
    rw [overlaps_iff_begin_before_end, hempty, and_self, and_iff_right rfl]
    omega

/-- A byte at the last offset of all is not seen, and a varnode without bytes is: the first two
varnodes share the byte at the last offset and do not overlap, the others share no byte and do. -/
theorem overlaps_ne_sharing :
    let last : Varnode := ⟨⟨1⟩, 0xffffffffffffffff, 1⟩
    let empty : Varnode := ⟨⟨1⟩, 5, 0⟩
    let ten : Varnode := ⟨⟨1⟩, 0, 10⟩
    (ShareBelow (2 ^ 64) last last ∧ last.overlaps last = false) ∧
      empty.overlaps ten = true ∧ ¬ShareBelow (2 ^ 64) empty ten := by
  intro last empty ten
  have hbyte : last.HasByte (2 ^ 64 - 1) := ⟨by decide, by decide⟩
  refine ⟨⟨⟨rfl, 2 ^ 64 - 1, by decide, hbyte, hbyte⟩, by decide⟩, by decide, ?_⟩
  intro hshare
  obtain ⟨_, o, _, ⟨hle, hlt⟩, _⟩ := hshare
  exact absurd (Nat.lt_of_le_of_lt hle hlt) (by decide)

end Varnode

end Pcode
