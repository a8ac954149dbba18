import Mathlib.Data.Nat.Factorization.Basic
import Mathlib.Data.Nat.ModEq
import Pcode.Proofs.Spaces.Wrapping

/-!
# Words of a space

Pointers count words. The byte offset of a word is first reduced to sixty-four bits and then to the
offsets of the space. The two reductions together give the place of the word around the space only
where what the first one drops is made up of whole words.
-/
namespace Pcode.SpaceInfo

/-- The number of words that the pointers of a space tell apart. -/
def words (s : SpaceInfo) : Nat := 2 ^ (8 * s.pointerSize.toNat)

/-- The space ends with the last byte of the last word that its pointers reach, and its offsets are
sixty-four bit words. -/
structure Spans (s : SpaceInfo) : Prop where
  word : 1 ≤ s.wordSize
  bound : s.wordSize.toNat * s.words ≤ 2 ^ 64
  highest : s.highest.toNat = s.wordSize.toNat * s.words - 1

/-- The first byte of a word, counted around the space in words. -/
def wordStart (s : SpaceInfo) (value : UInt64) : Nat :=
  s.wordSize.toNat * (value.toNat % s.words)

/-- What sixty-four bits drop of the byte offset of a word. -/
def dropped (s : SpaceInfo) (value : UInt64) : Nat :=
  2 ^ 64 * (s.wordSize.toNat * value.toNat / 2 ^ 64)

theorem toNat_byteOffset (s : SpaceInfo) (value : UInt64) :
    (s.byteOffset value).toNat = s.wordSize.toNat * value.toNat % 2 ^ 64 := by
  unfold byteOffset
  rw [UInt64.toNat_mul, Nat.mul_comm]

theorem toNat_byteOffset_add_dropped (s : SpaceInfo) (value : UInt64) :
    (s.byteOffset value).toNat + s.dropped value = s.wordSize.toNat * value.toNat := by
  rw [toNat_byteOffset]
  exact Nat.mod_add_div _ _

/-- Words larger than one byte have a number whose byte offset passes sixty-four bits once. -/
theorem exists_dropped_eq {s : SpaceInfo} (hword : 1 < s.wordSize.toNat) :
    ∃ value, s.dropped value = 2 ^ 64 := by
  have hlt := s.wordSize.toNat_lt
  have hquotient : (2 ^ 64 - 1) / s.wordSize.toNat ≤ (2 ^ 64 - 1) / 2 :=
    Nat.div_le_div_left hword (by decide)
  have hmod := Nat.mod_lt (2 ^ 64 - 1) (Nat.zero_lt_of_lt hword)
  have hdiv := Nat.div_add_mod (2 ^ 64 - 1) s.wordSize.toNat
  -- the first number whose byte offset is no sixty-four bit word
  refine ⟨.ofNat ((2 ^ 64 - 1) / s.wordSize.toNat + 1), ?_⟩
  unfold dropped
  rw [UInt64.toNat_ofNat_of_lt' (by change _ < 2 ^ 64; omega), Nat.mul_add, Nat.mul_one]
  have hone : (s.wordSize.toNat * ((2 ^ 64 - 1) / s.wordSize.toNat) + s.wordSize.toNat) / 2 ^ 64 =
      1 := by
    omega
  rw [hone, Nat.mul_one]

namespace Spans
variable {s : SpaceInfo} (hs : s.Spans)
include hs

theorem wordSize_pos : 0 < s.wordSize.toNat := UInt64.le_iff_toNat_le.mp hs.word

theorem extent_eq : s.extent = s.wordSize.toNat * s.words := by
  have hpos : 0 < s.wordSize.toNat * s.words := Nat.mul_pos hs.wordSize_pos (Nat.two_pow_pos _)
  unfold extent
  rw [hs.highest]
  omega

theorem wordSize_dvd_extent : s.wordSize.toNat ∣ s.extent := by
  rw [hs.extent_eq]
  exact Nat.dvd_mul_right ..

theorem wordStart_eq (value : UInt64) :
    s.wordStart value = s.wordSize.toNat * value.toNat % s.extent := by
  rw [hs.extent_eq, Nat.mul_mod_mul_left]
  rfl

/-- The odd part of the size of a word has no factor in common with a power of two, and what is left
of the number of offsets is a power of two up to the sixty-fourth. -/
theorem extent_dvd_iff (n : Nat) : s.extent ∣ 2 ^ 64 * n ↔ s.wordSize.toNat ∣ 2 ^ 64 * n := by
  refine ⟨hs.wordSize_dvd_extent.trans, ?_⟩
  intro hdvd
  have hbound := hs.bound
  rw [hs.extent_eq]
  unfold words at hbound ⊢
  obtain ⟨a, m, hodd, hw⟩ := Nat.exists_eq_two_pow_mul_odd hs.wordSize_pos.ne'
  rw [hw] at hdvd hbound ⊢
  have hsplit : 2 ^ a * m * 2 ^ (8 * s.pointerSize.toNat) =
      2 ^ (a + 8 * s.pointerSize.toNat) * m := by
    rw [Nat.pow_add, Nat.mul_right_comm]
  rw [hsplit] at hbound ⊢
  have hm : m ∣ n := by
    have hcoprime : Nat.Coprime m (2 ^ 64) := hodd.coprime_two_right.pow_right 64
    exact hcoprime.dvd_of_dvd_mul_left ((Nat.dvd_mul_left m _).trans hdvd)
  have hle : 2 ^ (a + 8 * s.pointerSize.toNat) ≤ 2 ^ 64 :=
    (Nat.le_mul_of_pos_right _ hodd.pos).trans hbound
  have hexponent : a + 8 * s.pointerSize.toNat ≤ 64 := (Nat.pow_le_pow_iff_right (by decide)).mp hle
  exact Nat.mul_dvd_mul (Nat.pow_dvd_pow 2 hexponent) hm

/-- The two reductions give the place of the word exactly where whole words are dropped. -/
theorem wrap_byteOffset_eq_iff (value : UInt64) :
    (s.wrap (s.byteOffset value)).toNat = s.wordStart value ↔
      s.wordSize.toNat ∣ s.dropped value := by
  have hsum := s.toNat_byteOffset_add_dropped value
  have hle : (s.byteOffset value).toNat ≤ s.wordSize.toNat * value.toNat := by omega
  have hdropped : s.wordSize.toNat * value.toNat - (s.byteOffset value).toNat =
      s.dropped value := by omega
  have hmod := Nat.modEq_iff_dvd' (n := s.extent) hle
  rw [hdropped] at hmod
  rw [toNat_wrap, hs.wordStart_eq]
  exact hmod.trans (hs.extent_dvd_iff _)

/-- Elsewhere they do not even give the first byte of a word. -/
theorem wordSize_dvd_wrap_iff (value : UInt64) :
    s.wordSize.toNat ∣ (s.wrap (s.byteOffset value)).toNat ↔
      s.wordSize.toNat ∣ s.dropped value := by
  have hwhole : s.wordSize.toNat ∣ (s.byteOffset value).toNat + s.dropped value := by
    rw [toNat_byteOffset_add_dropped]
    exact Nat.dvd_mul_right ..
  rw [toNat_wrap, Nat.dvd_mod_iff hs.wordSize_dvd_extent]
  constructor
  · intro h
    exact (Nat.dvd_add_right h).mp hwhole
  · intro h
    exact (Nat.dvd_add_left h).mp hwhole

/-- All words are found at their places exactly where the size of a word is a power of two. -/
theorem forall_wrap_byteOffset_eq_iff :
    (∀ value, (s.wrap (s.byteOffset value)).toNat = s.wordStart value) ↔
      ∃ k, s.wordSize.toNat = 2 ^ k := by
  simp only [hs.wrap_byteOffset_eq_iff]
  constructor
  · intro h
    rcases Nat.lt_or_ge 1 s.wordSize.toNat with hlarge | hsmall
    · obtain ⟨value, hvalue⟩ := exists_dropped_eq hlarge
      have hdvd := h value
      rw [hvalue] at hdvd
      obtain ⟨k, -, hk⟩ := (Nat.dvd_prime_pow Nat.prime_two).mp hdvd
      exact ⟨k, hk⟩
    · have hpos := hs.wordSize_pos
      exact ⟨0, by omega⟩
  · intro h value
    obtain ⟨k, hk⟩ := h
    have hlt := s.wordSize.toNat_lt
    rw [hk] at hlt ⊢
    have hexponent : k < 64 := (Nat.pow_lt_pow_iff_right (by decide)).mp hlt
    exact (Nat.pow_dvd_pow 2 (by omega)).trans (Nat.dvd_mul_right ..)

end Spans

end Pcode.SpaceInfo
