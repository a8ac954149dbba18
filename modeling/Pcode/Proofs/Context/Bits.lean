import Mathlib.Algebra.GroupWithZero.Nat
import Mathlib.Tactic.Common
import Pcode.ContextFields

/-!
# Fields as bits

A buffer is a string of bits that begins with the most significant one of its first word. A field is
read from its own bits and written to them alone, so fields without a bit in common do not disturb
each other.
-/
namespace Pcode.BitField

/-! ## Bits of words -/

/-- Bit `i` of a word, counted from the most significant one. -/
def topBit (w : UInt32) (i : Nat) : Bool := w.toBitVec.getMsbD i

theorem topBit_of_ge (w : UInt32) {i : Nat} (hi : 32 ≤ i) : topBit w i = false :=
  BitVec.getMsbD_of_ge _ _ hi

theorem eq_of_topBit {v w : UInt32} (h : ∀ i < 32, topBit v i = topBit w i) : v = w :=
  UInt32.toBitVec_inj.mp (BitVec.eq_of_getMsbD_eq h)

@[simp] theorem topBit_and (v w : UInt32) (i : Nat) :
    topBit (v &&& w) i = (topBit v i && topBit w i) := by
  unfold topBit
  rw [UInt32.toBitVec_and, BitVec.getMsbD_and]

@[simp] theorem topBit_or (v w : UInt32) (i : Nat) :
    topBit (v ||| w) i = (topBit v i || topBit w i) := by
  unfold topBit
  rw [UInt32.toBitVec_or, BitVec.getMsbD_or]

@[simp] theorem topBit_not (w : UInt32) (i : Nat) :
    topBit (~~~w) i = (decide (i < 32) && !topBit w i) := by
  unfold topBit
  rw [UInt32.toBitVec_not, BitVec.getMsbD_not]

theorem toNat_amount {n : Nat} (hn : n < 32) : ((UInt32.ofNat n).toBitVec % 32).toNat = n := by
  rw [BitVec.toNat_umod, UInt32.toNat_toBitVec, UInt32.toNat_ofNat_of_lt']
  · exact Nat.mod_eq_of_lt hn
  · exact Nat.lt_trans hn (by decide)

theorem topBit_shiftLeft (w : UInt32) {n : Nat} (hn : n < 32) (i : Nat) :
    topBit (w <<< UInt32.ofNat n) i = topBit w (i + n) := by
  unfold topBit
  rw [UInt32.toBitVec_shiftLeft, BitVec.shiftLeft_eq', toNat_amount hn, BitVec.getMsbD_shiftLeft]

theorem topBit_shiftRight (w : UInt32) {n : Nat} (hn : n < 32) (i : Nat) :
    topBit (w >>> UInt32.ofNat n) i =
      (decide (i < 32) && (!decide (i < n) && topBit w (i - n))) := by
  unfold topBit
  rw [UInt32.toBitVec_shiftRight, BitVec.ushiftRight_eq', toNat_amount hn,
    BitVec.getMsbD_ushiftRight]

theorem topBit_ones (i : Nat) : topBit 0xffffffff i = decide (i < 32) := by
  have hones : (0xffffffff : UInt32).toBitVec = BitVec.allOnes 32 := by decide
  unfold topBit
  rw [hones, BitVec.getMsbD_allOnes]

theorem testBit_toNat (w : UInt32) (k : Nat) :
    w.toNat.testBit k = (decide (k < 32) && topBit w (31 - k)) := by
  rw [← UInt32.toNat_toBitVec, BitVec.testBit_toNat, BitVec.getLsbD_eq_getMsbD]
  rfl

/-- A run of bits of one word of a buffer. -/
structure Within (first last : Nat) : Prop where
  le : first ≤ last
  word : first / bitsPerWord = last / bitsPerWord

section Word
variable {first last : Nat} (h : Within first last)
include h

theorem Within.shift_ofBits : (ofBits first last).shift = 31 - last % 32 := by
  have hword : first / 32 = last / 32 := h.word
  change 32 - (last - first / 32 * 32) - 1 = _
  omega

/-- The mask keeps as many low bits as the field has. -/
theorem Within.topBit_mask (i : Nat) :
    topBit (ofBits first last).mask i = decide (31 ≤ i + (last - first) ∧ i < 32) := by
  have hle := h.le
  have hword : first / 32 = last / 32 := h.word
  have hamount : first - first / 32 * 32 + (ofBits first last).shift = 31 - (last - first) := by
    rw [h.shift_ofBits]
    omega
  change topBit (0xffffffff >>> UInt32.ofNat (first - first / 32 * 32 + (ofBits first last).shift)) i
    = _
  rw [hamount, topBit_shiftRight _ (by omega), topBit_ones, Bool.eq_iff_iff]
  simp only [Bool.and_eq_true, Bool.not_eq_true', decide_eq_true_eq, decide_eq_false_iff_not]
  omega

/-- What is extracted has the bits of the field at its low end, and zeros before them. -/
theorem Within.topBit_extract (w : UInt32) (i : Nat) :
    topBit ((ofBits first last).extract w) i =
      (decide (31 ≤ i + (last - first) ∧ i < 32) && topBit w (i - (31 - last % 32))) := by
  have hle := h.le
  have hword : first / 32 = last / 32 := h.word
  unfold extract
  rw [h.shift_ofBits, topBit_and, topBit_shiftRight _ (by omega), h.topBit_mask]
  by_cases hi : 31 ≤ i + (last - first) ∧ i < 32
  · have hlow : ¬i < 31 - last % 32 := by omega
    simp [hi, hlow]
  · simp [hi]

/-- Replacing the field puts the low bits of the value in its place. -/
theorem Within.topBit_replace (w value : UInt32) (i : Nat) :
    topBit ((ofBits first last).replace w value) i =
      if first % 32 ≤ i ∧ i ≤ last % 32 then topBit value (i + (31 - last % 32))
      else topBit w i := by
  have hle := h.le
  have hword : first / 32 = last / 32 := h.word
  have hmask : (31 ≤ i + (31 - last % 32) + (last - first) ∧ i + (31 - last % 32) < 32) ↔
      first % 32 ≤ i ∧ i ≤ last % 32 := by omega
  unfold replace
  rw [h.shift_ofBits]
  simp only [topBit_or, topBit_and, topBit_not,
    topBit_shiftLeft _ (show 31 - last % 32 < 32 by omega), h.topBit_mask, hmask]
  by_cases hi : first % 32 ≤ i ∧ i ≤ last % 32
  · simp [hi]
  · by_cases hlt : i < 32
    · simp [hi, hlt]
    · simp [hi, topBit_of_ge w (Nat.le_of_not_lt hlt)]

end Word

/-! ## Bits of buffers -/

/-- Bit `i` of a buffer, counted from the most significant one of the first word. -/
def bitAt (buffer : List UInt32) (i : Nat) : Bool :=
  (buffer[i / bitsPerWord]?).any fun w => topBit w (i % bitsPerWord)

/-- A buffer as a string of bits. -/
def bits (buffer : List UInt32) : List Bool :=
  (List.range (bitsPerWord * buffer.length)).map (bitAt buffer)

theorem eq_of_bitAt {b b' : List UInt32} (hlength : b.length = b'.length)
    (h : ∀ i, bitAt b i = bitAt b' i) : b = b' := by
  apply List.ext_getElem hlength
  intro n hn hn'
  apply eq_of_topBit
  intro i hi
  have hbit := h (32 * n + i)
  have hword : (32 * n + i) / bitsPerWord = n := by
    change (32 * n + i) / 32 = n
    omega
  have hplace : (32 * n + i) % bitsPerWord = i := by
    change (32 * n + i) % 32 = i
    omega
  unfold bitAt at hbit
  rw [hword, hplace, List.getElem?_eq_getElem hn, List.getElem?_eq_getElem hn'] at hbit
  exact hbit

/-- What the field is in a buffer, zero where the buffer does not reach it. -/
def get (f : BitField) (buffer : List UInt32) : UInt32 := (f.read? buffer).getD 0

/-- The buffer after an attempt to write the field. A buffer that does not reach it stays as it is. -/
def put (f : BitField) (buffer : List UInt32) (value : UInt32) : List UInt32 :=
  (f.write? buffer value).getD buffer

theorem read?_eq (f : BitField) (buffer : List UInt32) :
    f.read? buffer = if f.word < buffer.length then some (f.get buffer) else none := by
  unfold get read?
  split
  next h => rw [List.getElem?_eq_getElem h]; rfl
  next h => rw [List.getElem?_eq_none (Nat.le_of_not_lt h)]; rfl

theorem write?_eq (f : BitField) (buffer : List UInt32) (value : UInt32) :
    f.write? buffer value =
      if f.word < buffer.length then some (f.put buffer value) else none := by
  unfold put write?
  split
  next h => rw [List.getElem?_eq_getElem h]; rfl
  next h => rw [List.getElem?_eq_none (Nat.le_of_not_lt h)]; rfl

@[simp] theorem length_put (f : BitField) (buffer : List UInt32) (value : UInt32) :
    (f.put buffer value).length = buffer.length := by
  unfold put write?
  cases buffer[f.word]? with
  | none => rfl
  | some w => exact List.length_set ..

section Buffer
variable {first last : Nat} (h : Within first last)
include h

/-- A field is read from its bits, the last one as the least significant. -/
theorem Within.topBit_get (buffer : List UInt32) (i : Nat) :
    topBit ((ofBits first last).get buffer) i =
      (decide (31 ≤ i + (last - first) ∧ i < 32) && bitAt buffer (last + i - 31)) := by
  have hle := h.le
  have hword : first / 32 = last / 32 := h.word
  change topBit ((buffer[first / 32]?.map (ofBits first last).extract).getD 0) i = _
  by_cases hi : 31 ≤ i + (last - first) ∧ i < 32
  · have hplace : (last + i - 31) % 32 = i - (31 - last % 32) := by omega
    have hsame : (last + i - 31) / 32 = first / 32 := by omega
    unfold bitAt bitsPerWord
    rw [hplace, hsame]
    cases buffer[first / 32]? with
    | none => simp [topBit]
    | some w => simp [h.topBit_extract, hi]
  · rw [decide_eq_false hi, Bool.false_and]
    cases buffer[first / 32]? with
    | none => simp [topBit]
    | some w => simp [h.topBit_extract, hi]

/-- A write puts the low bits of the value into the field, and leaves all other bits. -/
theorem Within.bitAt_put (buffer : List UInt32) (value : UInt32) (i : Nat) :
    bitAt ((ofBits first last).put buffer value) i =
      if (first ≤ i ∧ i ≤ last) ∧ first / 32 < buffer.length then topBit value (i + 31 - last)
      else bitAt buffer i := by
  have hle := h.le
  have hword : first / 32 = last / 32 := h.word
  change bitAt ((buffer[first / 32]?.map fun w =>
    buffer.set (first / 32) ((ofBits first last).replace w value)).getD buffer) i = _
  rcases hw : buffer[first / 32]? with _ | w
  · have hge := List.getElem?_eq_none_iff.mp hw
    rw [if_neg fun hin => absurd hin.2 (Nat.not_lt.mpr hge)]
    rfl
  · have hlt := (List.getElem?_eq_some_iff.mp hw).1
    change bitAt (buffer.set (first / 32) _) i = _
    unfold bitAt bitsPerWord
    rw [List.getElem?_set, if_pos hlt]
    by_cases hi : first / 32 = i / 32
    · have hrange : (first % 32 ≤ i % 32 ∧ i % 32 ≤ last % 32) ↔ first ≤ i ∧ i ≤ last := by omega
      rw [if_pos hi, Option.any_some, h.topBit_replace, ← hi, hw, Option.any_some]
      simp only [hrange, hlt, and_true]
      split
      next hin =>
        congr 1
        omega
      next => rfl
    · have hrange : ¬(first ≤ i ∧ i ≤ last) := by omega
      rw [if_neg hi, if_neg fun hin => hrange hin.1]

/-- What is read after a write is what the field has room for of the value. -/
theorem Within.topBit_get_put {buffer : List UInt32} (hreach : first / 32 < buffer.length)
    (value : UInt32) (i : Nat) :
    topBit ((ofBits first last).get ((ofBits first last).put buffer value)) i =
      (decide (31 ≤ i + (last - first) ∧ i < 32) && topBit value i) := by
  have hle := h.le
  rw [h.topBit_get, h.bitAt_put]
  by_cases hi : 31 ≤ i + (last - first) ∧ i < 32
  · have hin : first ≤ last + i - 31 ∧ last + i - 31 ≤ last := by omega
    rw [if_pos ⟨hin, hreach⟩]
    congr 2
    omega
  · rw [decide_eq_false hi, Bool.false_and, Bool.false_and]

theorem Within.toNat_get_put {buffer : List UInt32} (hreach : first / 32 < buffer.length)
    (value : UInt32) :
    ((ofBits first last).get ((ofBits first last).put buffer value)).toNat =
      value.toNat % 2 ^ (last + 1 - first) := by
  have hle := h.le
  have hword : first / 32 = last / 32 := h.word
  apply Nat.eq_of_testBit_eq
  intro k
  rw [testBit_toNat, h.topBit_get_put hreach, Nat.testBit_mod_two_pow, testBit_toNat]
  by_cases hk : k < 32
  · have hlow : (31 ≤ 31 - k + (last - first) ∧ 31 - k < 32) ↔ k < last + 1 - first := by omega
    simp only [hk, hlow, decide_true, Bool.true_and]
  · simp only [hk, decide_false, Bool.false_and, Bool.and_false]

/-- To write back what was read changes nothing. -/
theorem Within.put_get (buffer : List UInt32) :
    (ofBits first last).put buffer ((ofBits first last).get buffer) = buffer := by
  have hle := h.le
  have hword : first / 32 = last / 32 := h.word
  apply eq_of_bitAt (length_put ..)
  intro i
  rw [h.bitAt_put]
  split
  next hin =>
    have hlow : 31 ≤ i + 31 - last + (last - first) ∧ i + 31 - last < 32 := by omega
    rw [h.topBit_get, decide_eq_true hlow, Bool.true_and]
    congr 1
    omega
  next => rfl

/-- A later write of the same field is all that remains. -/
theorem Within.put_put (buffer : List UInt32) (earlier later : UInt32) :
    (ofBits first last).put ((ofBits first last).put buffer earlier) later =
      (ofBits first last).put buffer later := by
  apply eq_of_bitAt (by simp only [length_put])
  intro i
  simp only [h.bitAt_put, length_put]
  split
  next => rfl
  next => rfl

section Apart
variable {first' last' : Nat} (h' : Within first' last') (hapart : last < first' ∨ last' < first)
include h' hapart

/-- To write a field leaves fields of other bits as they are. -/
theorem Within.get_put_of_apart (buffer : List UInt32) (value : UInt32) :
    (ofBits first' last').get ((ofBits first last).put buffer value) =
      (ofBits first' last').get buffer := by
  have hle' := h'.le
  apply eq_of_topBit
  intro i _
  rw [h'.topBit_get, h'.topBit_get, h.bitAt_put]
  by_cases hi : 31 ≤ i + (last' - first') ∧ i < 32
  · have hout : ¬(first ≤ last' + i - 31 ∧ last' + i - 31 ≤ last) := by omega
    rw [if_neg fun hin => hout hin.1]
  · rw [decide_eq_false hi, Bool.false_and, Bool.false_and]

theorem Within.put_comm_of_apart (buffer : List UInt32) (value value' : UInt32) :
    (ofBits first' last').put ((ofBits first last).put buffer value) value' =
      (ofBits first last).put ((ofBits first' last').put buffer value') value := by
  apply eq_of_bitAt (by simp only [length_put])
  intro i
  simp only [h.bitAt_put, h'.bitAt_put, length_put]
  by_cases hi : first ≤ i ∧ i ≤ last
  · have hi' : ¬(first' ≤ i ∧ i ≤ last') := by omega
    simp only [hi', false_and, if_false]
  · simp only [hi, false_and, if_false]

end Apart

end Buffer

/-! ## Buffers as strings -/

theorem getElem?_bits (buffer : List UInt32) (i : Nat) :
    (bits buffer)[i]? = if i < 32 * buffer.length then some (bitAt buffer i) else none := by
  unfold bits
  rw [List.getElem?_map]
  change ((List.range (32 * buffer.length))[i]?).map _ = _
  split
  next hi => rw [List.getElem?_range hi]; rfl
  next hi =>
    rw [List.getElem?_eq_none (by rw [List.length_range]; omega)]
    rfl

@[simp] theorem length_bits (buffer : List UInt32) : (bits buffer).length = 32 * buffer.length := by
  simp [bits, bitsPerWord]

theorem bitAt_singleton (w : UInt32) {i : Nat} (hi : i < 32) : bitAt [w] i = topBit w i := by
  unfold bitAt bitsPerWord
  rw [Nat.div_eq_of_lt hi, Nat.mod_eq_of_lt hi]
  rfl

/-- The bits `first … last` of a buffer. -/
def slice (first last : Nat) (buffer : List UInt32) : List Bool :=
  ((bits buffer).drop first).take (last + 1 - first)

/-- The number that bits write, the first one as the most significant. -/
def number (bs : List Bool) : Nat := (BitVec.ofBoolListBE bs).toNat

theorem testBit_number (bs : List Bool) (k : Nat) :
    (number bs).testBit k = (decide (k < bs.length) && bs.getD (bs.length - 1 - k) false) := by
  unfold number
  rw [BitVec.testBit_toNat, BitVec.getLsbD_eq_getMsbD, BitVec.getMsbD_ofBoolListBE]

section Strings
variable {first last : Nat} (h : Within first last) {buffer : List UInt32}
  (hreach : first / 32 < buffer.length)
include h hreach

theorem Within.getElem?_slice (k : Nat) :
    (slice first last buffer)[k]? =
      if k < last + 1 - first then some (bitAt buffer (first + k)) else none := by
  have hword : first / 32 = last / 32 := h.word
  unfold slice
  rw [List.getElem?_take, List.getElem?_drop, getElem?_bits]
  split
  next hk => rw [if_pos (by omega)]
  next => rfl

theorem Within.length_slice : (slice first last buffer).length = last + 1 - first := by
  have hle := h.le
  have hword : first / 32 = last / 32 := h.word
  unfold slice
  rw [List.length_take, List.length_drop, length_bits]
  omega

theorem Within.toNat_get :
    ((ofBits first last).get buffer).toNat = number (slice first last buffer) := by
  have hle := h.le
  have hword : first / 32 = last / 32 := h.word
  apply Nat.eq_of_testBit_eq
  intro k
  rw [testBit_toNat, testBit_number, h.length_slice hreach, h.topBit_get]
  by_cases hk : k < last + 1 - first
  · have hlow : 31 ≤ 31 - k + (last - first) ∧ 31 - k < 32 := by omega
    have hshort : k < 32 := by omega
    rw [List.getD_eq_getElem?_getD, h.getElem?_slice hreach, if_pos (by omega)]
    simp only [hk, hlow, hshort, decide_true, and_self, Bool.true_and, Option.getD_some]
    congr 1
    omega
  · by_cases hshort : k < 32
    · have hhigh : ¬(31 ≤ 31 - k + (last - first) ∧ 31 - k < 32) := by omega
      simp only [hk, hhigh, decide_false, Bool.false_and, Bool.and_false]
    · simp only [hk, hshort, decide_false, Bool.false_and]

/-- In the string of bits, a write exchanges the field for as many low bits of the value. -/
theorem Within.bits_put (value : UInt32) :
    bits ((ofBits first last).put buffer value) =
      (bits buffer).take first ++ (bits [value]).drop (32 - (last + 1 - first)) ++
        (bits buffer).drop (last + 1) := by
  have hle := h.le
  have hword : first / 32 = last / 32 := h.word
  apply List.ext_getElem?
  intro i
  have htake : ((bits buffer).take first).length = first := by
    rw [List.length_take, length_bits]
    omega
  have hlow : ((bits [value]).drop (32 - (last + 1 - first))).length = last + 1 - first := by
    rw [List.length_drop, length_bits, List.length_singleton]
    omega
  rw [getElem?_bits, h.bitAt_put, length_put]
  rcases Nat.lt_or_ge i first with hbefore | hfrom
  · have hout : ¬(first ≤ i ∧ i ≤ last) := by omega
    rw [List.append_assoc, List.getElem?_append_left (by omega), List.getElem?_take, if_pos hbefore,
      getElem?_bits]
    simp only [hout, false_and, if_false]
  rcases Nat.lt_or_ge last i with hbehind | hto
  · have hout : ¬(first ≤ i ∧ i ≤ last) := by omega
    have hback : last + 1 + (i - (first + (last + 1 - first))) = i := by omega
    rw [List.getElem?_append_right (by rw [List.length_append]; omega), List.length_append, htake,
      hlow, List.getElem?_drop, hback, getElem?_bits]
    simp only [hout, false_and, if_false]
  · have hplace : 32 - (last + 1 - first) + (i - first) = i + 31 - last := by omega
    have hshort : i + 31 - last < 32 := by omega
    have hlong : i < 32 * buffer.length := by omega
    rw [List.getElem?_append_left (by rw [List.length_append]; omega),
      List.getElem?_append_right (by omega), htake, List.getElem?_drop, hplace, getElem?_bits,
      List.length_singleton, bitAt_singleton value hshort]
    simp only [hfrom, hto, hreach, hlong, hshort, and_self, if_true, Nat.mul_one]

end Strings

end Pcode.BitField
