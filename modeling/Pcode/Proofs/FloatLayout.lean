import Pcode.FloatLayout
import Pcode.Proofs.Actions
import Pcode.Proofs.Word

/-!
# Special encodings

Where the fields of a layout lie apart from each other inside the encoding, the encodings of zero,
infinity and no number are told for what they are, whatever the order of the fields and the gaps
between them. The fields determine all their bits.
-/
namespace Pcode.FloatLayout

/-! ## Fields as bits -/

/-- Bit `i` is one of the `size` bits from `low` on. -/
def InField (low size : UInt32) (i : Nat) : Prop := low.toNat ≤ i ∧ i < low.toNat + size.toNat

instance (low size : UInt32) (i : Nat) : Decidable (InField low size i) :=
  inferInstanceAs (Decidable (_ ∧ _))

/-- The bits of a field, at the low end of a word. -/
def field (low size : UInt32) (x : UInt64) : UInt64 := Word.shiftRight x low &&& lowBits size

theorem toNat_lowBits (n : UInt32) : (lowBits n).toNat = 2 ^ min n.toNat 64 - 1 := by
  unfold lowBits Word.shiftLeft
  split
  next hn =>
    have hlt : n.toNat < 64 := UInt32.lt_iff_toNat_lt.mp hn
    have hpower : (1 <<< n.toUInt64).toNat = 2 ^ n.toNat := by
      rw [UInt64.toNat_shiftLeft, UInt32.toNat_toUInt64, Nat.mod_eq_of_lt hlt, UInt64.toNat_one,
        Nat.one_shiftLeft]
      exact Nat.mod_eq_of_lt (Nat.pow_lt_pow_right (by decide) hlt)
    rw [Nat.min_eq_left (Nat.le_of_lt hlt), Word.toNat_sub_one hpower]
  next hn =>
    have hge : 64 ≤ n.toNat := Nat.le_of_not_lt fun hlt => hn (UInt32.lt_iff_toNat_lt.mpr hlt)
    rw [Nat.min_eq_right hge]
    rfl

theorem testBit_field (low size : UInt32) (x : UInt64) (i : Nat) :
    (field low size x).toNat.testBit i =
      (decide (i < size.toNat) && x.toNat.testBit (low.toNat + i)) := by
  unfold field
  rw [UInt64.toNat_and, Nat.testBit_and, Word.testBit_shiftRight, toNat_lowBits,
    Nat.testBit_two_pow_sub_one]
  rcases Nat.lt_or_ge i 64 with hi | hi
  · have hlow : i < min size.toNat 64 ↔ i < size.toNat := by omega
    rw [Bool.and_comm, decide_eq_decide.mpr hlow]
  · rw [Word.testBit_of_ge x (Nat.le_trans hi (Nat.le_add_left i _)), Bool.false_and,
      Bool.and_false]

/-- Words with the same bits in a field have the same field, and no others have. -/
theorem field_eq_field_iff {low size : UInt32} {x y : UInt64} :
    field low size x = field low size y ↔
      ∀ i, InField low size i → x.toNat.testBit i = y.toNat.testBit i := by
  constructor
  · intro h i hi
    obtain ⟨hlow, hhigh⟩ := hi
    have hbit := congrArg (fun w : UInt64 => w.toNat.testBit (i - low.toNat)) h
    simp only [testBit_field] at hbit
    rw [decide_eq_true (by omega), Bool.true_and, Bool.true_and, Nat.add_sub_cancel' hlow] at hbit
    exact hbit
  · intro h
    apply Word.eq_of_testBit
    intro i _
    rw [testBit_field, testBit_field]
    by_cases hi : i < size.toNat
    · rw [h _ ⟨Nat.le_add_right .., Nat.add_lt_add_left hi _⟩]
    · rw [decide_eq_false hi, Bool.false_and, Bool.false_and]

theorem field_eq_zero_iff {low size : UInt32} {x : UInt64} :
    field low size x = 0 ↔ ∀ i, InField low size i → x.toNat.testBit i = false := by
  have hzero : field low size 0 = 0 := by
    apply Word.eq_of_testBit
    intro i _
    rw [testBit_field]
    change (_ && Nat.testBit 0 _) = Nat.testBit 0 _
    rw [Nat.zero_testBit, Nat.zero_testBit, Bool.and_false]
  rw [← hzero, field_eq_field_iff]
  change (∀ i, _ → _ = Nat.testBit 0 i) ↔ _
  simp only [Nat.zero_testBit]

theorem field_zero (low size : UInt32) : field low size 0 = 0 :=
  field_eq_zero_iff.mpr fun i _ => Nat.zero_testBit i

theorem field_lt (low size : UInt32) (x : UInt64) : (field low size x).toNat < 2 ^ size.toNat := by
  apply Nat.lt_pow_two_of_testBit
  intro i hi
  rw [testBit_field, decide_eq_false (Nat.not_lt.mpr hi), Bool.false_and]

theorem exponentOf_eq (f : FloatLayout) (x : UInt64) :
    f.exponentOf x = (field f.exponentAt f.exponentSize x).toUInt32.toInt32 :=
  rfl

theorem fractionOf_eq (f : FloatLayout) (x : UInt64) :
    f.fractionOf x = field f.fractionAt f.fractionSize x :=
  rfl

theorem sign_eq_testBit (f : FloatLayout) (x : UInt64) :
    f.sign x = x.toNat.testBit f.signAt.toNat := by
  have hbit := Word.testBit_shiftRight x f.signAt 0
  rw [Nat.add_zero, Nat.testBit_zero] at hbit
  rw [← hbit, Bool.eq_iff_iff, sign, bne_iff_ne, ne_eq, ← UInt64.toNat_inj, UInt64.toNat_and]
  change ¬(_ &&& 1) = 0 ↔ _
  rw [Nat.and_one_is_mod, decide_eq_true_eq]
  omega

/-! ## Layouts -/

/-- Bit `i` of an encoding is one of a field. -/
def HasBit (f : FloatLayout) (i : Nat) : Prop :=
  i = f.signAt.toNat ∨ InField f.exponentAt f.exponentSize i ∨ InField f.fractionAt f.fractionSize i

/-- The usual layouts and those that a configuration declares. -/
inductive Available : FloatLayout → Prop
  | single : Available single
  | double : Available double
  | declared {e : Xml.Element} {f : FloatLayout} : ofElement e = .ok f → Available f

/-- The fields lie apart from each other in an encoding of one word, and there is a fraction. -/
structure Separate (f : FloatLayout) : Prop where
  size : f.size ≤ 8
  fraction : f.fractionSize ≠ 0
  sign_exponent : ¬InField f.exponentAt f.exponentSize f.signAt.toNat
  sign_fraction : ¬InField f.fractionAt f.fractionSize f.signAt.toNat
  exponent_fraction : ∀ i, InField f.exponentAt f.exponentSize i →
    ¬InField f.fractionAt f.fractionSize i
  inside : ∀ i, f.HasBit i → i < 8 * f.size.toNat

theorem Separate.lt_word {f : FloatLayout} (h : Separate f) {i : Nat} (hi : f.HasBit i) :
    i < 64 := by
  have hsize : f.size.toNat ≤ 8 := UInt64.le_iff_toNat_le.mp h.size
  have hlt := h.inside i hi
  omega

theorem Separate.fractionSize_pos {f : FloatLayout} (h : Separate f) :
    0 < f.fractionSize.toNat :=
  Nat.pos_of_ne_zero fun hzero => h.fraction (UInt32.toNat_inj.mp hzero)

theorem exponent_of_ofElement {e : Xml.Element} {f : FloatLayout} (h : ofElement e = .ok f) :
    0 < f.exponentSize.toNat ∧ f.exponentSize.toNat < 31 ∧
      f.exponentMax = (1 <<< f.exponentSize.toInt32) - 1 := by
  unfold ofElement at h
  simp only [bind_eq_ok] at h
  obtain ⟨_, -, _, -, _, -, _, -, _, -, _, -, exponentSize, -, _, -, _, -, h⟩ := h
  split at h
  next => cases h
  next hrange =>
    cases h
    rw [not_or, UInt32.le_iff_toNat_le, ← UInt32.toNat_inj] at hrange
    have hlt : exponentSize.toNat < 31 := Nat.lt_of_not_le hrange.2
    exact ⟨Nat.pos_of_ne_zero hrange.1, hlt, Checked.get_of_eq (exponentMaxChecked_eq hlt) _⟩

theorem Available.exponent {f : FloatLayout} (h : Available f) :
    0 < f.exponentSize.toNat ∧ f.exponentSize.toNat < 31 ∧
      f.exponentMax = (1 <<< f.exponentSize.toInt32) - 1 := by
  cases h with
  | single => decide
  | double => decide
  | declared h => exact exponent_of_ofElement h

/-- The highest exponent is the word of as many ones as the field has bits. -/
theorem Available.exponentMax {f : FloatLayout} (h : Available f) :
    f.exponentMax.toInt64.toUInt64.toNat = 2 ^ f.exponentSize.toNat - 1 ∧
      f.exponentMax.toInt64.toUInt64.toUInt32.toInt32 = f.exponentMax ∧ f.exponentMax ≠ 0 := by
  -- an exponent field has thirty sizes at most, and the highest exponent is computed for each
  have hall : ∀ k < 31, 0 < k →
      ((1 <<< (UInt32.ofNat k).toInt32) - 1 : Int32).toInt64.toUInt64.toNat = 2 ^ k - 1 ∧
      ((1 <<< (UInt32.ofNat k).toInt32) - 1 : Int32).toInt64.toUInt64.toUInt32.toInt32 =
        (1 <<< (UInt32.ofNat k).toInt32) - 1 ∧
      ((1 <<< (UInt32.ofNat k).toInt32) - 1 : Int32) ≠ 0 := by decide +kernel
  obtain ⟨hpos, hlt, hmax⟩ := h.exponent
  have hvalue := hall _ hlt hpos
  rw [UInt32.ofNat_toNat, ← hmax] at hvalue
  exact hvalue

/-! ## Parts of encodings -/

theorem testBit_markSign (f : FloatLayout) (x : UInt64) (negative : Bool) (i : Nat) :
    (f.markSign x negative).toNat.testBit i =
      (x.toNat.testBit i || (negative && decide (i < 64 ∧ i = f.signAt.toNat))) := by
  unfold markSign
  cases negative with
  | false => simp
  | true =>
      rw [if_pos rfl, UInt64.toNat_or, Nat.testBit_or, Word.testBit_shiftLeft_one, Bool.true_and]

theorem testBit_markSign_of_ne {f : FloatLayout} {i : Nat} (h : i ≠ f.signAt.toNat) (x : UInt64)
    (negative : Bool) : (f.markSign x negative).toNat.testBit i = x.toNat.testBit i := by
  rw [testBit_markSign, decide_eq_false fun hsign => h hsign.2, Bool.and_false, Bool.or_false]

theorem testBit_withFullExponent {f : FloatLayout} (h : Available f) (x : UInt64) (i : Nat) :
    (f.withFullExponent x).toNat.testBit i =
      (x.toNat.testBit i || decide (i < 64 ∧ InField f.exponentAt f.exponentSize i)) := by
  unfold withFullExponent
  rw [UInt64.toNat_or, Nat.testBit_or, Word.testBit_shiftLeft, h.exponentMax.1,
    Nat.testBit_two_pow_sub_one, ← Bool.decide_and]
  congr 2
  rw [eq_iff_iff, InField]
  omega

theorem testBit_withFullExponent_of_not_inField {f : FloatLayout} (havailable : Available f)
    {i : Nat} (h : ¬InField f.exponentAt f.exponentSize i) (x : UInt64) :
    (f.withFullExponent x).toNat.testBit i = x.toNat.testBit i := by
  rw [testBit_withFullExponent havailable, decide_eq_false fun hexponent => h hexponent.2,
    Bool.or_false]

/-- The highest bit of the fraction. -/
def quiet (f : FloatLayout) : UInt64 :=
  Word.shiftLeft (Word.shiftLeft 1 (if f.fractionSize = 0 then 0 else f.fractionSize - 1))
    f.fractionAt

theorem testBit_quiet {f : FloatLayout} (h : Separate f) (i : Nat) :
    f.quiet.toNat.testBit i =
      decide (i < 64 ∧ i + 1 = f.fractionAt.toNat + f.fractionSize.toNat) := by
  have hpos := h.fractionSize_pos
  have hlast : (f.fractionSize - 1).toNat = f.fractionSize.toNat - 1 := by
    have hone : 1 ≤ f.fractionSize := UInt32.le_iff_toNat_le.mpr hpos
    rw [UInt32.toNat_sub_of_le _ _ hone]
    rfl
  unfold quiet
  rw [if_neg h.fraction, Word.testBit_shiftLeft, Word.testBit_shiftLeft_one, hlast,
    ← Bool.decide_and]
  congr 1
  rw [eq_iff_iff]
  omega

/-- What the fields of an encoding hold, and that nothing stands above its last byte. -/
structure HasParts (f : FloatLayout) (x : UInt64) (negative : Bool) (exponent : Int32)
    (fraction : UInt64) : Prop where
  sign : f.sign x = negative
  exponent : f.exponentOf x = exponent
  fraction : f.fractionOf x = fraction
  low : x.toNat < 2 ^ (8 * f.size.toNat)

namespace HasParts

variable {f : FloatLayout} {x fraction : UInt64} {negative : Bool} {exponent : Int32}

theorem testBit_of_ge (h : HasParts f x negative exponent fraction) {i : Nat}
    (hi : 8 * f.size.toNat ≤ i) : x.toNat.testBit i = false :=
  Nat.testBit_lt_two_pow (Nat.lt_of_lt_of_le h.low (Nat.pow_le_pow_right (by decide) hi))

theorem zero (f : FloatLayout) : HasParts f 0 false 0 0 where
  sign := by
    rw [sign_eq_testBit]
    exact Nat.zero_testBit _
  exponent := by
    rw [exponentOf_eq, field_zero]
    rfl
  fraction := by rw [fractionOf_eq, field_zero]
  low := Nat.two_pow_pos _

/-- The highest bit of the fraction is no other field's. -/
theorem quiet (hseparate : Separate f) : ∃ fraction, fraction ≠ 0 ∧
    HasParts f f.quiet false 0 fraction := by
  have hpos := hseparate.fractionSize_pos
  have hin : ∀ i, f.quiet.toNat.testBit i = true → InField f.fractionAt f.fractionSize i := by
    intro i hi
    rw [testBit_quiet hseparate, decide_eq_true_eq] at hi
    unfold InField
    omega
  have hout : ∀ i, ¬InField f.fractionAt f.fractionSize i → f.quiet.toNat.testBit i = false :=
    fun i hi => Bool.eq_false_iff.mpr fun hset => hi (hin i hset)
  refine ⟨f.fractionOf f.quiet, ?fraction, ?sign, ?exponent, rfl, ?low⟩
  case fraction =>
    -- the bit is one of a word, so the shift does not lose it
    intro hzero
    have hlast : InField f.fractionAt f.fractionSize
        (f.fractionAt.toNat + f.fractionSize.toNat - 1) := by
      unfold InField
      omega
    rw [fractionOf_eq] at hzero
    have hunset := field_eq_zero_iff.mp hzero _ hlast
    rw [testBit_quiet hseparate, decide_eq_false_iff_not] at hunset
    exact hunset ⟨hseparate.lt_word (.inr (.inr hlast)), by omega⟩
  case sign =>
    rw [sign_eq_testBit]
    exact hout _ hseparate.sign_fraction
  case exponent =>
    have hfield : field f.exponentAt f.exponentSize f.quiet = 0 :=
      field_eq_zero_iff.mpr fun i hi => hout i (hseparate.exponent_fraction i hi)
    rw [exponentOf_eq, hfield]
    rfl
  case low =>
    refine Nat.lt_pow_two_of_testBit _ fun i hi => hout i fun hfraction => ?_
    exact Nat.not_lt.mpr hi (hseparate.inside i (.inr (.inr hfraction)))

theorem markSign (hseparate : Separate f) (h : HasParts f x false exponent fraction) :
    HasParts f (f.markSign x negative) negative exponent fraction where
  sign := by
    have hin : f.signAt.toNat < 64 ∧ f.signAt.toNat = f.signAt.toNat :=
      ⟨hseparate.lt_word (.inl rfl), rfl⟩
    rw [sign_eq_testBit, testBit_markSign, ← sign_eq_testBit, h.sign, Bool.false_or,
      decide_eq_true hin, Bool.and_true]
  exponent := by
    have hfield : field f.exponentAt f.exponentSize (f.markSign x negative) =
        field f.exponentAt f.exponentSize x :=
      field_eq_field_iff.mpr fun i hi =>
        testBit_markSign_of_ne (fun heq => hseparate.sign_exponent (heq ▸ hi)) x negative
    rw [← h.exponent, exponentOf_eq, exponentOf_eq, hfield]
  fraction := by
    rw [← h.fraction, fractionOf_eq, fractionOf_eq]
    exact field_eq_field_iff.mpr fun i hi =>
      testBit_markSign_of_ne (fun heq => hseparate.sign_fraction (heq ▸ hi)) x negative
  low := by
    refine Nat.lt_pow_two_of_testBit _ fun i hi => ?_
    have hne : i ≠ f.signAt.toNat := fun heq =>
      Nat.not_lt.mpr hi (hseparate.inside i (.inl heq))
    rw [testBit_markSign_of_ne hne, h.testBit_of_ge hi]

theorem withFullExponent (havailable : Available f) (hseparate : Separate f)
    (h : HasParts f x negative exponent fraction) :
    HasParts f (f.withFullExponent x) negative f.exponentMax fraction where
  sign := by
    rw [← h.sign, sign_eq_testBit, sign_eq_testBit]
    exact testBit_withFullExponent_of_not_inField havailable hseparate.sign_exponent x
  exponent := by
    have hfield : field f.exponentAt f.exponentSize (f.withFullExponent x) =
        f.exponentMax.toInt64.toUInt64 := by
      apply Word.eq_of_testBit
      intro i _
      rw [testBit_field, testBit_withFullExponent havailable, havailable.exponentMax.1,
        Nat.testBit_two_pow_sub_one]
      by_cases hi : i < f.exponentSize.toNat
      · have hin : InField f.exponentAt f.exponentSize (f.exponentAt.toNat + i) :=
          ⟨Nat.le_add_right .., Nat.add_lt_add_left hi _⟩
        rw [decide_eq_true hi, decide_eq_true ⟨hseparate.lt_word (.inr (.inl hin)), hin⟩,
          Bool.or_true, Bool.and_true]
      · rw [decide_eq_false hi, Bool.false_and]
    rw [exponentOf_eq, hfield]
    exact havailable.exponentMax.2.1
  fraction := by
    rw [← h.fraction, fractionOf_eq, fractionOf_eq]
    exact field_eq_field_iff.mpr fun i hi =>
      testBit_withFullExponent_of_not_inField havailable
        (fun hexponent => hseparate.exponent_fraction i hexponent hi) x
  low := by
    refine Nat.lt_pow_two_of_testBit _ fun i hi => ?_
    have hnot : ¬InField f.exponentAt f.exponentSize i := fun hexponent =>
      Nat.not_lt.mpr hi (hseparate.inside i (.inr (.inl hexponent)))
    rw [testBit_withFullExponent_of_not_inField havailable hnot, h.testBit_of_ge hi]

/-! ## Classes -/

theorem decode_zero (h : HasParts f x negative 0 0) :
    f.decode x = .ok (.zero, if negative then -0 else 0) := by
  unfold decode
  rw [Word.and_mask_of_lt h.low]
  simp only [h.sign, h.exponent, h.fraction]
  rfl

theorem decode_infinite (havailable : Available f)
    (h : HasParts f x negative f.exponentMax 0) :
    f.decode x = .ok (.infinite, if negative then -powerOfTwo 1024 else powerOfTwo 1024) := by
  unfold decode
  rw [Word.and_mask_of_lt h.low]
  simp only [h.sign, h.exponent, h.fraction]
  rw [if_neg havailable.exponentMax.2.2]
  rfl

theorem decode_nan (havailable : Available f) (hfraction : fraction ≠ 0)
    (h : HasParts f x negative f.exponentMax fraction) :
    f.decode x = .ok (.nan, if negative then -(0 / 0) else 0 / 0) := by
  unfold decode
  rw [Word.and_mask_of_lt h.low]
  simp only [h.sign, h.exponent, h.fraction]
  rw [if_neg havailable.exponentMax.2.2, if_pos trivial, if_neg hfraction]
  rfl

end HasParts

/-- The exponent field is small enough to be told from its signed number. -/
theorem exponentOf_eq_iff {f : FloatLayout} (havailable : Available f) {x y : UInt64} :
    f.exponentOf x = f.exponentOf y ↔
      ∀ i, InField f.exponentAt f.exponentSize i → x.toNat.testBit i = y.toNat.testBit i := by
  have hlt : ∀ z, (field f.exponentAt f.exponentSize z).toNat < 2 ^ 32 := fun z =>
    Nat.lt_of_lt_of_le (field_lt ..)
      (Nat.pow_le_pow_right (by decide) (Nat.le_of_lt (Nat.lt_succ_of_lt havailable.exponent.2.1)))
  rw [← field_eq_field_iff, exponentOf_eq, exponentOf_eq]
  constructor
  · intro h
    have hword : (field f.exponentAt f.exponentSize x).toUInt32 =
        (field f.exponentAt f.exponentSize y).toUInt32 := congrArg Int32.toUInt32 h
    rw [← UInt32.toNat_inj, UInt64.toNat_toUInt32, UInt64.toNat_toUInt32,
      Nat.mod_eq_of_lt (hlt x), Nat.mod_eq_of_lt (hlt y)] at hword
    exact UInt64.toNat_inj.mp hword
  · intro h
    rw [h]

/-- In a layout whose fields lie apart, the encodings of zero, infinity and no number fit into its
bytes, have the sign that was asked for, and are decoded to what they encode. Sign, exponent and
fraction of an encoding tell the bits of all three fields. -/
theorem special_encodings_classified {f : FloatLayout} (havailable : Available f)
    (hseparate : Separate f) (negative : Bool) :
    f.decode (f.zero negative) = .ok (.zero, if negative then -0 else 0) ∧
    f.decode (f.infinity negative) =
      .ok (.infinite, if negative then -powerOfTwo 1024 else powerOfTwo 1024) ∧
    f.decode (f.notANumber negative) = .ok (.nan, if negative then -(0 / 0) else 0 / 0) ∧
    (∀ x ∈ [f.zero negative, f.infinity negative, f.notANumber negative],
      f.sign x = negative ∧ x.toNat < 2 ^ (8 * f.size.toNat)) ∧
    ∀ x y, f.sign x = f.sign y → f.exponentOf x = f.exponentOf y → f.fractionOf x = f.fractionOf y →
      ∀ i, f.HasBit i → x.toNat.testBit i = y.toNat.testBit i := by
  obtain ⟨fraction, hfraction, hquiet⟩ := HasParts.quiet hseparate
  have hzero : HasParts f (f.zero negative) negative 0 0 := (HasParts.zero f).markSign hseparate
  have hinfinity : HasParts f (f.infinity negative) negative f.exponentMax 0 :=
    ((HasParts.zero f).withFullExponent havailable hseparate).markSign hseparate
  have hnone : HasParts f (f.notANumber negative) negative f.exponentMax fraction :=
    (hquiet.withFullExponent havailable hseparate).markSign hseparate
  refine ⟨hzero.decode_zero, hinfinity.decode_infinite havailable,
    hnone.decode_nan havailable hfraction, ?parts, ?bits⟩
  case parts =>
    simp only [List.forall_mem_cons]
    exact ⟨⟨hzero.sign, hzero.low⟩, ⟨hinfinity.sign, hinfinity.low⟩, ⟨hnone.sign, hnone.low⟩, nofun⟩
  case bits =>
    intro x y hsign hexponent hsame i hi
    rcases hi with rfl | hi | hi
    · rwa [sign_eq_testBit, sign_eq_testBit] at hsign
    · exact (exponentOf_eq_iff havailable).mp hexponent i hi
    · rw [fractionOf_eq, fractionOf_eq] at hsame
      exact field_eq_field_iff.mp hsame i hi

/-- Two bytes with the sign lowest, the exponent next to it, and a gap below the fraction. -/
def signLowest : FloatLayout where
  size := 2
  signAt := 0
  fractionAt := 7
  fractionSize := 9
  exponentAt := 1
  exponentMax := 31
  exponentSize := 5
  bias := -15
  hiddenBit := false

theorem available_signLowest : Available signLowest := by
  let element : Xml.Element := ⟨"floatformat",
    [⟨none, "size", "2"⟩, ⟨none, "signpos", "0"⟩, ⟨none, "fracpos", "7"⟩, ⟨none, "fracsize", "9"⟩,
      ⟨none, "exppos", "1"⟩, ⟨none, "expsize", "5"⟩, ⟨none, "bias", "-15"⟩], []⟩
  have h : ofElement element = .ok signLowest := by decide +kernel
  exact .declared h

theorem separate_signLowest : Separate signLowest where
  size := by decide
  fraction := by decide
  sign_exponent := by decide
  sign_fraction := by decide
  exponent_fraction := by
    intro i hexponent hfraction
    have hhigh : i < 6 := hexponent.2
    have hlow : 7 ≤ i := hfraction.1
    omega
  inside := by
    intro i hi
    change i < 16
    rcases hi with rfl | hi | hi
    · decide
    · exact Nat.lt_trans hi.2 (by decide)
    · exact hi.2

theorem special_encodings_classified_signLowest :
    Available signLowest ∧ Separate signLowest ∧
    signLowest.decode 1 = .ok (.zero, -0) ∧
    signLowest.decode 0x3e = .ok (.infinite, powerOfTwo 1024) ∧
    signLowest.decode 0x803f = .ok (.nan, -(0 / 0)) := by
  have h := special_encodings_classified available_signLowest separate_signLowest
  exact ⟨available_signLowest, separate_signLowest, (h true).1, (h false).2.1, (h true).2.2.1⟩

end Pcode.FloatLayout
