import Mathlib.Algebra.BigOperators.Ring.Finset
import Pcode.Proofs.Wire.Recognition

/-!
# Written forms of offsets

An offset is read from groups that are worth it in base 64, eleven at most, and from no others. What
is written for it is the shortest of its forms; in the others groups of no worth stand before the
end.
-/
namespace Pcode.Wire

/-! ## The worth of groups -/

theorem worth_eq_sum (bs : List UInt8) :
    worth bs = ∑ i ∈ Finset.range bs.length, ((bs.getD i 0).toNat - 0x20) * 64 ^ i := by
  induction bs with
  | nil => rfl
  | cons b bs ih =>
      rw [worth, ih, List.length_cons, Finset.sum_range_succ', Finset.mul_sum, Nat.add_comm]
      congr 1
      · apply Finset.sum_congr rfl
        intro i _
        rw [List.getD_cons_succ, Nat.pow_succ, Nat.mul_left_comm, Nat.mul_comm (64 ^ i)]
      · exact (Nat.mul_one _).symm

theorem worth_replicate (n : Nat) : worth (List.replicate n 0x20) = 0 := by
  induction n with
  | zero => rfl
  | succ n ih =>
      rw [List.replicate_succ, worth, ih]
      rfl

/-- Groups of no worth behind others add nothing. -/
theorem worth_append_replicate (bs : List UInt8) (n : Nat) :
    worth (bs ++ List.replicate n 0x20) = worth bs := by
  induction bs with
  | nil => exact worth_replicate n
  | cons b bs ih => rw [List.cons_append, worth, ih, worth]

/-- Groups are those that are written for their worth, and groups of no worth behind them. -/
theorem exists_eq_groups_append {bs : List UInt8} (h : ∀ b ∈ bs, 0x20 ≤ b ∧ b < 0x60) :
    ∃ n, bs = Writer.groups (worth bs) ++ List.replicate n 0x20 := by
  induction bs with
  | nil => exact ⟨0, by rw [worth, Writer.groups]; rfl⟩
  | cons b bs ih =>
      obtain ⟨n, hn⟩ := ih fun b' hb' => h b' (List.mem_cons_of_mem _ hb')
      obtain ⟨hge, hlt⟩ := h b List.mem_cons_self
      rw [UInt8.le_iff_toNat_le] at hge
      rw [UInt8.lt_iff_toNat_lt] at hlt
      change 32 ≤ b.toNat at hge
      change b.toNat < 96 at hlt
      have hworth : worth (b :: bs) = b.toNat - 32 + 64 * worth bs := rfl
      rw [Writer.groups]
      split
      next hzero =>
        -- the group and all behind it have no worth
        have hb : b = 0x20 := UInt8.toNat_inj.mp (by change b.toNat = 32; omega)
        have hbs : worth bs = 0 := by omega
        rw [hbs, Writer.groups, if_pos rfl, List.nil_append] at hn
        refine ⟨n + 1, ?_⟩
        rw [hb, hn]
        rfl
      next =>
        have hgroup : bias + UInt8.ofNat (worth (b :: bs) % groupSize) = b := by
          apply UInt8.toNat_inj.mp
          rw [Reader.Reads.toNat_group]
          omega
        have hrest : worth (b :: bs) / groupSize = worth bs := by
          change worth (b :: bs) / 64 = _
          omega
        refine ⟨n, ?_⟩
        rw [hgroup, hrest, List.cons_append, ← hn]

namespace Reader

/-! ## Forms of an offset -/

/-- The first `j` bytes are groups that are worth `value` in base 64, eleven at most, and the next
byte closes them. -/
structure Closes (bytes : List UInt8) (j : Nat) (value : UInt64) : Prop where
  length : j ≤ 11
  range : ∀ b ∈ bytes.take j, 0x20 ≤ b ∧ b < 0x60
  stop : bytes[j]? = some 0x60
  sum : ∑ i ∈ Finset.range j, ((bytes.getD i 0).toNat - 0x20) * 64 ^ i = value.toNat

/-- Bytes that agree at the first places are worth the same there. -/
theorem sum_eq_worth {bytes bs : List UInt8} {j : Nat} (hj : bs.length = j)
    (h : ∀ i < j, bytes[i]? = bs[i]?) :
    ∑ i ∈ Finset.range j, ((bytes.getD i 0).toNat - 0x20) * 64 ^ i = worth bs := by
  rw [worth_eq_sum, hj]
  apply Finset.sum_congr rfl
  intro i hi
  rw [List.getD_eq_getElem?_getD, List.getD_eq_getElem?_getD, h i (Finset.mem_range.mp hi)]

theorem Closes.of_groups {bs : List UInt8} {value : UInt64} (hlength : bs.length ≤ 11)
    (hrange : ∀ b ∈ bs, 0x20 ≤ b ∧ b < 0x60) (hworth : worth bs = value.toNat)
    (rest : List UInt8) : Closes (bs ++ 0x60 :: rest) bs.length value where
  length := hlength
  range := by
    rw [List.take_left]
    exact hrange
  stop := by rw [List.getElem?_append_right (Nat.le_refl _), Nat.sub_self, List.getElem?_cons_zero]
  sum := by
    rw [sum_eq_worth rfl fun i hi => List.getElem?_append_left hi]
    exact hworth

/-- The groups, the byte that closes them, and what follows. -/
theorem Closes.split {bytes : List UInt8} {j : Nat} {value : UInt64} (h : Closes bytes j value) :
    (bytes.take j).length = j ∧ worth (bytes.take j) = value.toNat ∧
      bytes = bytes.take j ++ 0x60 :: bytes.drop (j + 1) := by
  obtain ⟨hj, hstop⟩ := List.getElem?_eq_some_iff.mp h.stop
  have hlength : (bytes.take j).length = j := List.length_take_of_le (Nat.le_of_lt hj)
  refine ⟨hlength, ?_, ?_⟩
  · rw [← h.sum, sum_eq_worth hlength fun i hi => (List.getElem?_take_of_lt hi).symm]
  · rw [← hstop, ← List.drop_eq_getElem_cons hj, List.take_append_drop]

/-- An offset is read from its groups and the byte that closes them. -/
theorem exec_offset_iff {start : Nat} {bytes : List UInt8} {value : UInt64} {c : Cursor} :
    offset.exec ⟨start, bytes⟩ = (.ok value, c) ↔
      ∃ bs, bs.length ≤ 11 ∧ (∀ b ∈ bs, 0x20 ≤ b ∧ b < 0x60) ∧ worth bs = value.toNat ∧
        bytes = bs ++ 0x60 :: c.rest ∧ c.position = start + (bs.length + 1) := by
  rw [Accepts.offset start bytes value c]
  constructor
  · intro h
    obtain ⟨w, rest, rfl, hw, rfl⟩ := h
    cases hw with
    | @groups bs _ hlength hrange hworth =>
        refine ⟨bs, hlength, hrange, hworth, ?_, ?_⟩
        · rw [List.append_assoc, List.singleton_append]
        · rw [List.length_append, List.length_singleton]
  · intro h
    obtain ⟨bs, hlength, hrange, hworth, rfl, hposition⟩ := h
    refine ⟨bs ++ [0x60], c.rest, ?_, .groups hlength hrange hworth, ?_⟩
    · rw [List.append_assoc, List.singleton_append]
    · rw [List.length_append, List.length_singleton, ← hposition]

/-- An offset is read from every number of groups that closes with its worth. -/
theorem exec_offset_iff_closes {start : Nat} {bytes : List UInt8} {value : UInt64} {c : Cursor} :
    offset.exec ⟨start, bytes⟩ = (.ok value, c) ↔
      ∃ j, Closes bytes j value ∧ c = ⟨start + (j + 1), bytes.drop (j + 1)⟩ := by
  rw [exec_offset_iff]
  constructor
  · intro h
    obtain ⟨bs, hlength, hrange, hworth, rfl, hposition⟩ := h
    refine ⟨bs.length, .of_groups hlength hrange hworth c.rest, ?_⟩
    have hrest : (bs ++ 0x60 :: c.rest).drop (bs.length + 1) = c.rest := by
      rw [← List.drop_drop, List.drop_left]
      rfl
    rw [hrest, ← hposition]
  · intro h
    obtain ⟨j, hcloses, rfl⟩ := h
    obtain ⟨hlength, hworth, hsplit⟩ := hcloses.split
    refine ⟨bytes.take j, ?_, hcloses.range, hworth, hsplit, ?_⟩
    · rw [hlength]
      exact hcloses.length
    · rw [hlength]

/-- The groups that are written for an offset are worth it, and are not too many to be read. -/
theorem groups_worth (value : UInt64) :
    (Writer.groups value.toNat).length ≤ 11 ∧
      (∀ b ∈ Writer.groups value.toNat, 0x20 ≤ b ∧ b < 0x60) ∧
      worth (Writer.groups value.toNat) = value.toNat := by
  obtain ⟨bs, hlength, hrange, hworth, hbytes, -⟩ := exec_offset_iff.mp (Reads.offset value 0 [])
  have hbs : Writer.groups value.toNat = bs := by
    rw [List.append_nil] at hbytes
    exact List.append_cancel_right hbytes
  rw [hbs]
  exact ⟨hlength, hrange, hworth⟩

/-- All forms of an offset are what is written for it with groups of no worth before the end. -/
theorem exec_offset_iff_padded {start : Nat} {bytes : List UInt8} {value : UInt64} {c : Cursor} :
    offset.exec ⟨start, bytes⟩ = (.ok value, c) ↔
      ∃ n, (Writer.groups value.toNat).length + n ≤ 11 ∧
        bytes = Writer.groups value.toNat ++ List.replicate n 0x20 ++ 0x60 :: c.rest ∧
        c.position = start + ((Writer.groups value.toNat).length + n + 1) := by
  rw [exec_offset_iff]
  constructor
  · intro h
    obtain ⟨bs, hlength, hrange, hworth, rfl, hposition⟩ := h
    obtain ⟨n, hn⟩ := exists_eq_groups_append hrange
    rw [hworth] at hn
    have hcount : bs.length = (Writer.groups value.toNat).length + n := by
      rw [hn, List.length_append, List.length_replicate]
    exact ⟨n, hcount ▸ hlength, by rw [← hn], hcount ▸ hposition⟩
  · intro h
    obtain ⟨n, hlength, hbytes, hposition⟩ := h
    obtain ⟨-, hrange, hworth⟩ := groups_worth value
    refine ⟨Writer.groups value.toNat ++ List.replicate n 0x20, ?_, ?_, ?_, hbytes, ?_⟩
    · rw [List.length_append, List.length_replicate]
      exact hlength
    · rw [List.forall_mem_append]
      refine ⟨hrange, ?_⟩
      intro b hb
      rw [List.eq_of_mem_replicate hb]
      decide
    · rw [worth_append_replicate, hworth]
    · rw [List.length_append, List.length_replicate]
      exact hposition

/-- What is read as an offset, and what is written for it. -/
structure ExactOffset (value : UInt64) : Prop where
  /-- Exactly the groups that are worth the offset are read as it, none of them in part. -/
  reads_iff : ∀ start bytes c, offset.exec ⟨start, bytes⟩ = (.ok value, c) ↔
    ∃ j, Closes bytes j value ∧ c = ⟨start + (j + 1), bytes.drop (j + 1)⟩
  written : (Writer.offset value).exec [] = (.ok (), Writer.groups value.toNat ++ [0x60])
  readBack : ∀ start rest, offset.exec ⟨start, Writer.groups value.toNat ++ 0x60 :: rest⟩ =
    (.ok value, ⟨start + ((Writer.groups value.toNat).length + 1), rest⟩)
  /-- No string that is read as the offset is shorter than what is written, and no other one is
  equally short. -/
  shortest : ∀ start bytes c, offset.exec ⟨start, bytes⟩ = (.ok value, c) →
    (Writer.groups value.toNat ++ [0x60]).length ≤ bytes.length ∧
      (bytes.length = (Writer.groups value.toNat ++ [0x60]).length →
        bytes = Writer.groups value.toNat ++ [0x60])
  /-- Up to the end of the offset, it is what is written with groups of no worth. -/
  padded_iff : ∀ start bytes c, offset.exec ⟨start, bytes⟩ = (.ok value, c) ↔
    ∃ n, (Writer.groups value.toNat).length + n ≤ 11 ∧
      bytes = Writer.groups value.toNat ++ List.replicate n 0x20 ++ 0x60 :: c.rest ∧
      c.position = start + ((Writer.groups value.toNat).length + n + 1)

/-- Every offset is read from the strings of groups that are worth it and from no others, and is
written as the shortest of them. -/
theorem offsets_are_exact (value : UInt64) : ExactOffset value where
  reads_iff := fun _ _ _ => exec_offset_iff_closes
  written := rfl
  readBack := by
    intro start rest
    obtain ⟨hlength, hrange, hworth⟩ := groups_worth value
    exact exec_offset_iff.mpr ⟨_, hlength, hrange, hworth, rfl, rfl⟩
  shortest := by
    intro start bytes c hread
    obtain ⟨n, -, rfl, -⟩ := exec_offset_iff_padded.mp hread
    simp only [List.length_append, List.length_replicate, List.length_cons, List.length_nil]
    refine ⟨by omega, ?_⟩
    intro hshort
    obtain rfl : n = 0 := by omega
    obtain hnil : c.rest = [] := List.eq_nil_of_length_eq_zero (by omega)
    rw [hnil, List.replicate_zero, List.append_nil]
  padded_iff := fun _ _ _ => exec_offset_iff_padded

end Reader

end Pcode.Wire
