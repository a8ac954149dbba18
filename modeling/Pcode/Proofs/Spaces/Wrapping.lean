import Mathlib.Data.List.Range
import Pcode.Spaces.Info

/-!
# Offsets around a space

Offsets past the end of a space count from its start again, so that a value near the end goes on at
the start. What a space makes of an offset is its remainder by the number of offsets.
-/
namespace Pcode.SpaceInfo

/-- The number of offsets of a space. It need not be a word. -/
def extent (s : SpaceInfo) : Nat := s.highest.toNat + 1

theorem toNat_wrap (s : SpaceInfo) (offset : UInt64) :
    (s.wrap offset).toNat = offset.toNat % s.extent :=
  Checked.of_get (s.exists_wrapChecked offset)

theorem wrap_le_highest (s : SpaceInfo) (offset : UInt64) : s.wrap offset ≤ s.highest := by
  rw [UInt64.le_iff_toNat_le, toNat_wrap]
  exact Nat.le_of_lt_succ (Nat.mod_lt _ (Nat.succ_pos _))

/-- The offsets of `size` bytes from `start` on, counted around the space. -/
def around (s : SpaceInfo) (start size : Nat) : List Nat :=
  (List.range size).map fun j => (start + j) % s.extent

theorem around_add (s : SpaceInfo) (start m n : Nat) :
    s.around start (m + n) = s.around start m ++ s.around (start + m) n := by
  simp [around, List.range_add, Nat.add_assoc, Function.comp_def]

theorem around_mod (s : SpaceInfo) (start size : Nat) :
    s.around (start % s.extent) size = s.around start size := by
  simp [around, Nat.mod_add_mod]

/-- The offsets of the bytes of a value, the most significant byte first. -/
def byteOffsets (s : SpaceInfo) (start size : Nat) : List Nat :=
  match s.byteOrder with
  | .big => s.around start size
  | .little => (s.around start size).reverse

/-- Where a more significant part of a value ends and a less significant one begins, in the byte
order of the space, the bytes of both are those of one value. -/
theorem byteOffsets_append {s : SpaceInfo} {hi hiSize lo loSize : Nat}
    (h : match s.byteOrder with
      | .big => lo = (hi + hiSize) % s.extent
      | .little => hi = (lo + loSize) % s.extent) :
    s.byteOffsets hi hiSize ++ s.byteOffsets lo loSize =
      s.byteOffsets (match s.byteOrder with | .big => hi | .little => lo) (hiSize + loSize) := by
  unfold byteOffsets
  cases horder : s.byteOrder with
  | big =>
      rw [horder] at h
      simp only at h ⊢
      rw [h, around_mod, around_add]
  | little =>
      rw [horder] at h
      simp only at h ⊢
      rw [h, around_mod, Nat.add_comm hiSize, around_add, List.reverse_append]

end Pcode.SpaceInfo
