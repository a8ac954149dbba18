import Pcode.Outcome

/-!
# Sixty-four bit words

Range-checked arithmetic, byte masks, the highest offset of a space and rounding to a multiple. A
result that does not fit a word is reported, but for the product and the sum that give a highest
offset, which wrap. Masks and highest offsets are the answers of range-checked computations that
never fail.
-/
namespace Pcode.Word

/-- The sum of two words, when it is a word. -/
def add (a b : UInt64) : Checked UInt64 :=
  if a.toNat + b.toNat < UInt64.size then .ok (a + b) else .error .overflow

theorem add_eq_ok_iff {a b c : UInt64} : add a b = .ok c ↔ a.toNat + b.toNat = c.toNat := by
  have ha := a.toNat_lt
  have hb := b.toNat_lt
  have hc := c.toNat_lt
  have size : UInt64.size = 2 ^ 64 := rfl
  unfold add
  split
  · rename_i h
    simp only [Except.ok.injEq, ← UInt64.toNat_inj, UInt64.toNat_add]
    rw [Nat.mod_eq_of_lt h]
  · rename_i h
    simp only [reduceCtorEq, false_iff]
    omega

/-- The difference of two words, when it is a word. -/
def sub (a b : UInt64) : Checked UInt64 := if b ≤ a then .ok (a - b) else .error .overflow

/-- The product of two words, when it is a word. -/
def mul (a b : UInt64) : Checked UInt64 :=
  if a.toNat * b.toNat < UInt64.size then .ok (a * b) else .error .overflow

theorem mul_eq_ok_iff {a b c : UInt64} : mul a b = .ok c ↔ a.toNat * b.toNat = c.toNat := by
  unfold mul
  split
  next h =>
    rw [Except.ok.injEq, ← UInt64.toNat_inj, UInt64.toNat_mul]
    rw [Nat.mod_eq_of_lt h]
  next h =>
    refine iff_of_false nofun fun heq => h ?_
    rw [heq]
    exact c.toNat_lt

/-- The remainder by a word other than zero. -/
def rem (a b : UInt64) : Checked UInt64 := if b = 0 then .error .overflow else .ok (a % b)

/-- A shift to the left by fewer places than a word has. -/
def shiftBy (x amount : UInt64) : Checked UInt64 :=
  if amount < 64 then .ok (x <<< amount) else .error .overflow

theorem toNat_max (a b : UInt64) : (max a b).toNat = max a.toNat b.toNat := by
  have h : max a b = if a ≤ b then b else a := rfl
  rw [h, Nat.max_def]
  simp only [UInt64.le_iff_toNat_le]
  split <;> rfl

theorem le_max_right (a b : UInt64) : b ≤ max a b := by
  rw [UInt64.le_iff_toNat_le, toNat_max]
  exact Nat.le_max_right ..

/-! ## Masks and highest offsets -/

/-- A power of two that fits a word is not zero. -/
theorem one_le_one_shiftLeft {amount : UInt64} (h : amount < 64) :
    (1 : UInt64) ≤ 1 <<< amount := by
  have hlt : amount.toNat < 64 := UInt64.lt_iff_toNat_lt.mp h
  rw [UInt64.le_iff_toNat_le, UInt64.toNat_shiftLeft, Nat.mod_eq_of_lt hlt, UInt64.toNat_one,
    Nat.one_shiftLeft, Nat.mod_eq_of_lt (Nat.pow_lt_pow_right (by decide) hlt)]
  exact Nat.one_le_two_pow

/-- The largest value of `size` bytes, each step to it range-checked. -/
def maskChecked (size : UInt64) : Checked UInt64 :=
  if 8 ≤ size then .ok 0xffffffffffffffff
  else do
    let width ← mul size 8
    let power ← shiftBy 1 width
    sub power 1

theorem exists_maskChecked (size : UInt64) : ∃ m, maskChecked size = .ok m := by
  unfold maskChecked
  split
  next => exact ⟨_, rfl⟩
  next hsmall =>
    have hsize : size.toNat < 8 := Nat.lt_of_not_le fun hge =>
      hsmall (UInt64.le_iff_toNat_le.mpr hge)
    obtain ⟨width, hmul⟩ : ∃ width, mul size 8 = .ok width := ⟨_, if_pos (by
      change size.toNat * 8 < 2 ^ 64
      omega)⟩
    have hwidth : width < 64 := by
      rw [UInt64.lt_iff_toNat_lt, ← mul_eq_ok_iff.mp hmul]
      change size.toNat * 8 < 64
      omega
    have hshift : shiftBy 1 width = .ok (1 <<< width) := if_pos hwidth
    refine ⟨1 <<< width - 1, ?_⟩
    rw [hmul]
    change (shiftBy 1 width >>= fun power => sub power 1) = _
    rw [hshift]
    exact if_pos (one_le_one_shiftLeft hwidth)

/-- The largest value of `size` bytes; from eight bytes on, of the whole word. -/
def mask (size : UInt64) : UInt64 := (maskChecked size).get (exists_maskChecked size)

theorem maskChecked_eq (size : UInt64) : maskChecked size = .ok (mask size) :=
  (Checked.ok_get ..).symm

/-- The highest offset. Its product and its sum wrap, all else is range-checked. -/
def highestChecked (size unit : UInt64) : Checked UInt64 := do
  let unit := max unit 1
  let last ← sub unit 1
  return (← maskChecked size) * unit + last

theorem exists_highestChecked (size unit : UInt64) : ∃ h, highestChecked size unit = .ok h := by
  have hsub : sub (max unit 1) 1 = .ok (max unit 1 - 1) := if_pos (le_max_right unit 1)
  unfold highestChecked
  simp only
  rw [hsub, maskChecked_eq]
  exact ⟨_, rfl⟩

/-- The highest byte offset that a pointer of `size` bytes counting units of `unit` bytes reaches.
A unit of zero bytes counts as one byte. -/
def highest (size unit : UInt64) : UInt64 :=
  (highestChecked size unit).get (exists_highestChecked size unit)

theorem highestChecked_eq (size unit : UInt64) :
    highestChecked size unit = .ok (highest size unit) :=
  (Checked.ok_get ..).symm

/-! ## Rounding, saturation and shifts -/

/-- The least multiple of `unit`, a power of two, that is at least `value`. -/
def alignUp (value unit : UInt64) : Checked UInt64 := do
  let sum ← add value (unit - 1)
  return sum &&& ~~~(unit - 1)

/-- Sum that stays at the largest word once it would pass it. -/
def addSaturating (a b : UInt64) : UInt64 :=
  if a.toNat + b.toNat < UInt64.size then a + b else 0xffffffffffffffff

theorem toNat_addSaturating (a b : UInt64) :
    (addSaturating a b).toNat = min (a.toNat + b.toNat) (UInt64.size - 1) := by
  unfold addSaturating
  split
  · rename_i h
    rw [UInt64.toNat_add, Nat.mod_eq_of_lt h]
    omega
  · rename_i h
    change UInt64.size - 1 = _
    omega

/-- Shift to the right by any amount; from 64 on nothing is left. -/
def shiftRight (x : UInt64) (amount : UInt32) : UInt64 :=
  if amount < 64 then x >>> amount.toUInt64 else 0

/-- Shift to the left by any amount; from 64 on nothing is left. -/
def shiftLeft (x : UInt64) (amount : UInt32) : UInt64 :=
  if amount < 64 then x <<< amount.toUInt64 else 0

/-- Hexadecimal text: `0x` and the lower-case digits without leading zeros. -/
def hex (n : Nat) : String := "0x" ++ String.ofList (Nat.toDigits 16 n)

/-- Hexadecimal text of a byte: `0x` and two lower-case digits. -/
def hexByte (b : UInt8) : String :=
  "0x" ++ String.ofList ((if b < 16 then ['0'] else []) ++ Nat.toDigits 16 b.toNat)

end Pcode.Word
