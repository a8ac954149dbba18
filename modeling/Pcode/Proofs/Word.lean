import Mathlib.Algebra.GroupWithZero.Nat
import Mathlib.Tactic.Common
import Pcode.Proofs.Actions
import Pcode.Word

/-!
# Arithmetic of words

What the range-checked operations on words compute, in natural numbers, and which bits the masks and
shifts leave.
-/
namespace Pcode.Word

theorem le_max_left (a b : UInt64) : a ≤ max a b := by
  rw [UInt64.le_iff_toNat_le, toNat_max]
  exact Nat.le_max_left ..

theorem zero_max (a : UInt64) : max 0 a = a := by
  rw [← UInt64.toNat_inj, toNat_max]
  exact Nat.zero_max _

theorem mod_eq_zero_iff {a b : UInt64} : a % b = 0 ↔ b.toNat ∣ a.toNat := by
  rw [Nat.dvd_iff_mod_eq_zero, ← UInt64.toNat_inj, UInt64.toNat_mod]
  exact Iff.rfl

theorem add_eq_error_iff {a b : UInt64} :
    add a b = .error .overflow ↔ 2 ^ 64 ≤ a.toNat + b.toNat := by
  unfold add
  split
  next h => exact iff_of_false nofun (Nat.not_le.mpr h)
  next h => exact iff_of_true rfl (Nat.not_lt.mp h)

theorem sub_eq_ok_iff {a b c : UInt64} : sub a b = .ok c ↔ a.toNat = b.toNat + c.toNat := by
  unfold sub
  split
  next h =>
    have hle := UInt64.le_iff_toNat_le.mp h
    rw [Except.ok.injEq, ← UInt64.toNat_inj, UInt64.toNat_sub_of_le _ _ h]
    omega
  next h =>
    have hlt : ¬b.toNat ≤ a.toNat := fun hle => h (UInt64.le_iff_toNat_le.mpr hle)
    simp only [reduceCtorEq, false_iff]
    omega

section Units
variable {unit : UInt64} {k : Nat}

theorem toNat_sub_one (hk : unit.toNat = 2 ^ k) : (unit - 1).toNat = 2 ^ k - 1 := by
  have hle : (1 : UInt64) ≤ unit := by
    rw [UInt64.le_iff_toNat_le, hk]
    exact Nat.two_pow_pos k
  rw [UInt64.toNat_sub_of_le _ _ hle, hk]
  rfl

/-- Clearing the bits below a power of two leaves the multiple of it that is not above. -/
theorem toNat_and_not_sub_one (hk : unit.toNat = 2 ^ k) (x : UInt64) :
    (x &&& ~~~(unit - 1)).toNat = x.toNat / 2 ^ k * 2 ^ k := by
  have hpow : 2 ^ k < 2 ^ 64 := hk ▸ unit.toNat_lt
  have hpos := Nat.two_pow_pos k
  have hnot : (~~~(unit - 1)).toNat = 2 ^ 64 - ((2 ^ k - 1) + 1) := by
    rw [UInt64.toNat_not, toNat_sub_one hk]
    change 2 ^ 64 - 1 - _ = _
    omega
  apply Nat.eq_of_testBit_eq
  intro i
  rw [UInt64.toNat_and, Nat.testBit_and, hnot, Nat.testBit_two_pow_sub_succ (by omega),
    Nat.testBit_two_pow_sub_one, Nat.testBit_mul_two_pow, Nat.testBit_div_two_pow]
  by_cases hi : i < k
  · simp [hi, Nat.not_le.mpr hi]
  · have hle : k ≤ i := Nat.le_of_not_lt hi
    have hbit : x.toNat.testBit i = true → i < 64 := fun h =>
      (Nat.pow_lt_pow_iff_right (by decide)).mp
        (Nat.lt_of_le_of_lt (Nat.ge_two_pow_of_testBit h) x.toNat_lt)
    rw [Nat.sub_add_cancel hle]
    by_cases hx : x.toNat.testBit i <;> simp [hx, hi, hle, hbit]

/-- A value is rounded up to a multiple of a power of two, unless the sum on the way is no word. -/
theorem alignUp_eq_ok_iff (hk : unit.toNat = 2 ^ k) {value result : UInt64} :
    alignUp value unit = .ok result ↔
      value.toNat + (2 ^ k - 1) < 2 ^ 64 ∧
        result.toNat = (value.toNat + (2 ^ k - 1)) / 2 ^ k * 2 ^ k := by
  have hone := toNat_sub_one hk
  have hsum : (∃ sum, add value (unit - 1) = .ok sum) ↔ value.toNat + (2 ^ k - 1) < 2 ^ 64 := by
    constructor
    · intro h
      obtain ⟨sum, h⟩ := h
      rw [add_eq_ok_iff, hone] at h
      exact h ▸ sum.toNat_lt
    · intro h
      refine ⟨value + (unit - 1), ?_⟩
      rw [add_eq_ok_iff, UInt64.toNat_add, hone, Nat.mod_eq_of_lt h]
  unfold alignUp
  rcases h : add value (unit - 1) with e | sum
  · have hno : ¬value.toNat + (2 ^ k - 1) < 2 ^ 64 := by
      rw [← hsum, h]
      intro hsome
      obtain ⟨_, h'⟩ := hsome
      cases h'
    constructor
    · intro h'
      cases h'
    · intro h'
      exact absurd h'.1 hno
  · have hlt := hsum.mp ⟨sum, h⟩
    rw [add_eq_ok_iff, hone] at h
    change Except.ok (sum &&& ~~~(unit - 1)) = .ok result ↔ _
    rw [Except.ok.injEq, ← UInt64.toNat_inj, toNat_and_not_sub_one hk, ← h, eq_comm]
    exact (and_iff_right hlt).symm

end Units

/-! ## Masks and highest offsets -/

theorem toNat_of_shiftBy_one {amount power : UInt64} (h : shiftBy 1 amount = .ok power) :
    power.toNat = 2 ^ amount.toNat := by
  unfold shiftBy at h
  split at h
  next hamount =>
    cases h
    have hlt : amount.toNat < 64 := UInt64.lt_iff_toNat_lt.mp hamount
    rw [UInt64.toNat_shiftLeft, Nat.mod_eq_of_lt hlt, UInt64.toNat_one, Nat.one_shiftLeft]
    exact Nat.mod_eq_of_lt (Nat.pow_lt_pow_right (by decide) hlt)
  next => cases h

theorem toNat_mask (size : UInt64) : (mask size).toNat = 2 ^ min (8 * size.toNat) 64 - 1 := by
  have h := maskChecked_eq size
  unfold maskChecked at h
  split at h
  next hbig =>
    have hge : 8 ≤ size.toNat := UInt64.le_iff_toNat_le.mp hbig
    rw [← Except.ok.inj h, Nat.min_eq_right (by omega)]
    rfl
  next hsmall =>
    have hlt : size.toNat < 8 := Nat.lt_of_not_le fun hge => hsmall (UInt64.le_iff_toNat_le.mpr hge)
    obtain ⟨width, hwidth, h⟩ := bind_eq_ok.mp h
    obtain ⟨power, hpower, h⟩ := bind_eq_ok.mp h
    have hone : power.toNat = 1 + (mask size).toNat := sub_eq_ok_iff.mp h
    have hbits : size.toNat * 8 = width.toNat := mul_eq_ok_iff.mp hwidth
    rw [toNat_of_shiftBy_one hpower, ← hbits, Nat.mul_comm] at hone
    rw [Nat.min_eq_left (by omega), hone, Nat.add_sub_cancel_left]

/-- The last byte of the last unit, reduced to sixty-four bits. A unit of zero bytes counts as one
byte. -/
theorem toNat_highest (size unit : UInt64) :
    (highest size unit).toNat =
      (max unit.toNat 1 * 2 ^ min (8 * size.toNat) 64 - 1) % 2 ^ 64 := by
  obtain ⟨last, hlast, h⟩ := bind_eq_ok.mp (highestChecked_eq size unit)
  obtain ⟨_, hmask, h⟩ := bind_eq_ok.mp h
  obtain rfl := Except.ok.inj ((maskChecked_eq size).symm.trans hmask)
  have hmax : (max unit 1).toNat = max unit.toNat 1 := toNat_max unit 1
  have hpos : 1 ≤ max unit.toNat 1 := Nat.le_max_right ..
  have hpow : 0 < 2 ^ min (8 * size.toNat) 64 := Nat.two_pow_pos _
  have hunit : max unit.toNat 1 = 1 + last.toNat := hmax ▸ sub_eq_ok_iff.mp hlast
  rw [← Except.ok.inj h, UInt64.toNat_add, UInt64.toNat_mul, toNat_mask, Nat.mod_add_mod, hmax]
  congr 1
  -- all units but the last one, and the last one without its last byte
  calc (2 ^ min (8 * size.toNat) 64 - 1) * max unit.toNat 1 + last.toNat
      = (2 ^ min (8 * size.toNat) 64 - 1) * max unit.toNat 1 + (max unit.toNat 1 - 1) := by
        rw [hunit, Nat.add_sub_cancel_left]
    _ = (2 ^ min (8 * size.toNat) 64 - 1 + 1) * max unit.toNat 1 - 1 := by
        rw [Nat.add_mul, Nat.one_mul, Nat.add_sub_assoc hpos]
    _ = max unit.toNat 1 * 2 ^ min (8 * size.toNat) 64 - 1 := by
        rw [Nat.sub_add_cancel hpow, Nat.mul_comm]

/-! ## Bits -/

theorem testBit_of_ge (x : UInt64) {i : Nat} (hi : 64 ≤ i) : x.toNat.testBit i = false :=
  Nat.testBit_lt_two_pow <|
    Nat.lt_of_lt_of_le x.toNat_lt (Nat.pow_le_pow_right (by decide) hi)

theorem eq_of_testBit {x y : UInt64} (h : ∀ i < 64, x.toNat.testBit i = y.toNat.testBit i) :
    x = y := by
  apply UInt64.toNat_inj.mp
  apply Nat.eq_of_testBit_eq
  intro i
  rcases Nat.lt_or_ge i 64 with hi | hi
  · exact h i hi
  · rw [testBit_of_ge x hi, testBit_of_ge y hi]

theorem testBit_shiftRight (x : UInt64) (n : UInt32) (i : Nat) :
    (shiftRight x n).toNat.testBit i = x.toNat.testBit (n.toNat + i) := by
  unfold shiftRight
  split
  next hn =>
    have hlt : n.toNat < 64 := UInt32.lt_iff_toNat_lt.mp hn
    rw [UInt64.toNat_shiftRight, UInt32.toNat_toUInt64, Nat.mod_eq_of_lt hlt,
      Nat.testBit_shiftRight]
  next hn =>
    have hge : 64 ≤ n.toNat := Nat.le_of_not_lt fun hlt => hn (UInt32.lt_iff_toNat_lt.mpr hlt)
    rw [testBit_of_ge x (Nat.le_trans hge (Nat.le_add_right _ i))]
    exact Nat.zero_testBit i

theorem testBit_shiftLeft (x : UInt64) (n : UInt32) (i : Nat) :
    (shiftLeft x n).toNat.testBit i =
      (decide (i < 64 ∧ n.toNat ≤ i) && x.toNat.testBit (i - n.toNat)) := by
  unfold shiftLeft
  split
  next hn =>
    have hlt : n.toNat < 64 := UInt32.lt_iff_toNat_lt.mp hn
    rw [UInt64.toNat_shiftLeft, UInt32.toNat_toUInt64, Nat.mod_eq_of_lt hlt,
      Nat.testBit_mod_two_pow, Nat.testBit_shiftLeft, ← Bool.and_assoc, ← Bool.decide_and]
  next hn =>
    have hge : 64 ≤ n.toNat := Nat.le_of_not_lt fun hlt => hn (UInt32.lt_iff_toNat_lt.mpr hlt)
    have hout : ¬(i < 64 ∧ n.toNat ≤ i) := by omega
    rw [decide_eq_false hout, Bool.false_and]
    exact Nat.zero_testBit i

theorem testBit_shiftLeft_one (n : UInt32) (i : Nat) :
    (shiftLeft 1 n).toNat.testBit i = decide (i < 64 ∧ i = n.toNat) := by
  have hone : (1 : UInt64).toNat = 2 ^ 0 := rfl
  rw [testBit_shiftLeft, hone, Nat.testBit_two_pow, ← Bool.decide_and]
  congr 1
  rw [eq_iff_iff]
  omega

/-- Below the limit that a mask sets, it keeps a word as it is. -/
theorem and_mask_of_lt {x size : UInt64} (h : x.toNat < 2 ^ (8 * size.toNat)) :
    x &&& mask size = x := by
  apply UInt64.toNat_inj.mp
  rw [UInt64.toNat_and, toNat_mask, Nat.and_two_pow_sub_one_eq_mod]
  apply Nat.mod_eq_of_lt
  rcases Nat.le_total (8 * size.toNat) 64 with hle | hle
  · rw [Nat.min_eq_left hle]
    exact h
  · rw [Nat.min_eq_right hle]
    exact x.toNat_lt

end Pcode.Word
