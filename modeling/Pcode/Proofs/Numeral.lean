import Mathlib.Data.List.Forall2
import Mathlib.Data.Nat.Digits.Defs
import Mathlib.Tactic.Ring
import Pcode.Numeral
import Pcode.Word

/-!
# Numerals and what they stand for

A text is read as an integer when it is a numeral with blanks around it, and the value of the numeral,
a sum over its digits, is in the range asked for. No other text is read. What is printed in decimal or
in hexadecimal is such a numeral.
-/
namespace Pcode

/-! ## Blanks around a text -/

section Blanks
variable {before cs after : List Char}

theorem dropWhile_isBlank_append (hbefore : ∀ c ∈ before, isBlank c = true)
    (hcs : ∀ c ∈ cs.head?, isBlank c = false) : (before ++ cs).dropWhile isBlank = cs := by
  rw [List.dropWhile_append_of_pos hbefore]
  cases cs with
  | nil => rfl
  | cons c cs => exact List.dropWhile_cons_of_neg (by simp [hcs c rfl])

/-- Of a text without blanks and those around it, trimming leaves the text. -/
theorem trimBlank_append (hbefore : ∀ c ∈ before, isBlank c = true)
    (hafter : ∀ c ∈ after, isBlank c = true) (hcs : ∀ c ∈ cs, isBlank c = false) (hne : cs ≠ []) :
    trimBlank (before ++ (cs ++ after)) = cs := by
  have hhead : ∀ c ∈ (cs ++ after).head?, isBlank c = false := by
    intro c hc
    rw [List.head?_append_of_ne_nil _ hne] at hc
    exact hcs c (List.mem_of_mem_head? hc)
  have hlast : ∀ c ∈ cs.reverse.head?, isBlank c = false := by
    intro c hc
    exact hcs c (List.mem_reverse.mp (List.mem_of_mem_head? hc))
  have hreverse : ∀ c ∈ after.reverse, isBlank c = true := by
    intro c hc
    exact hafter c (List.mem_reverse.mp hc)
  unfold trimBlank
  rw [dropWhile_isBlank_append hbefore hhead, List.reverse_append,
    dropWhile_isBlank_append hreverse hlast, List.reverse_reverse]

theorem exists_eq_append_trimBlank (cs : List Char) : ∃ before after,
    cs = before ++ (trimBlank cs ++ after) ∧ (∀ c ∈ before, isBlank c = true) ∧
      ∀ c ∈ after, isBlank c = true := by
  have hfront := List.takeWhile_append_dropWhile (p := isBlank) (l := cs)
  have hback := List.takeWhile_append_dropWhile (p := isBlank) (l := (cs.dropWhile isBlank).reverse)
  refine ⟨cs.takeWhile isBlank, ((cs.dropWhile isBlank).reverse.takeWhile isBlank).reverse, ?_,
    List.all_eq_true.mp List.all_takeWhile, ?_⟩
  · unfold trimBlank
    rw [← List.reverse_append, hback, List.reverse_reverse, hfront]
  · intro c hc
    exact List.all_eq_true.mp List.all_takeWhile c (List.mem_reverse.mp hc)

end Blanks

namespace IntType
variable {t : IntType} {n : Int}

theorem least_nonpos (t : IntType) : t.least ≤ 0 := by
  unfold least
  split <;> omega

theorem greatest_nonneg (t : IntType) : 0 ≤ t.greatest := by
  have hpow : ∀ k, 0 < Nat.pow 2 k := fun k => Nat.pow_pos (by decide)
  have hsigned := hpow (t.bits - 1)
  have hunsigned := hpow t.bits
  unfold greatest
  split <;> omega

theorem fits_zero (t : IntType) : t.Fits 0 := ⟨t.least_nonpos, t.greatest_nonneg⟩

/-- Only the signed types have integers below zero. -/
theorem Fits.signed (h : t.Fits n) (hn : n < 0) : t.signed = true := by
  by_contra hunsigned
  have hleast : t.least = 0 := if_neg hunsigned
  exact absurd h.1 (by omega)

end IntType

namespace Numeral
variable {t : IntType} {radix n m d : Nat} {c x : Char} {cs : List Char} {i : Int}

/-! ## Numerals -/

/-- A digit of a radix up to sixteen, in one of its two cases, and its value. -/
structure IsDigit (radix : Nat) (c : Char) (d : Nat) : Prop where
  lt : d < radix
  char : c = d.digitChar ∨ c = d.digitChar.toUpper

/-- One digit or more, the most significant first, and the number that they stand for. -/
inductive IsNumber (radix : Nat) : List Char → Nat → Prop
  | digits {cs : List Char} {ds : List Nat} : cs ≠ [] → List.Forall₂ (IsDigit radix) cs ds →
      IsNumber radix cs (Nat.ofDigits radix ds.reverse)

/-- A number with or without a sign. A minus sign belongs to the signed types. -/
inductive IsSigned (t : IntType) (radix : Nat) : List Char → Int → Prop
  | bare {cs : List Char} {n : Nat} : IsNumber radix cs n → IsSigned t radix cs n
  | plus {cs : List Char} {n : Nat} : IsNumber radix cs n → IsSigned t radix ('+' :: cs) n
  | minus {cs : List Char} {n : Nat} : t.signed = true → IsNumber radix cs n →
      IsSigned t radix ('-' :: cs) (-n)

/-- A decimal numeral, or a hexadecimal one behind its mark. The sign stands behind the mark. -/
inductive IsNumeral (t : IntType) : List Char → Int → Prop
  | decimal {cs : List Char} {i : Int} : IsSigned t 10 cs i → IsNumeral t cs i
  | hexadecimal {x : Char} {cs : List Char} {i : Int} : x = 'x' ∨ x = 'X' → IsSigned t 16 cs i →
      IsNumeral t ('0' :: x :: cs) i

/-- The text is a numeral with blanks around it that stands for an integer of the range. -/
inductive Spells (t : IntType) (text : String) (i : Int) : Prop
  | intro {before cs after : List Char} : text.toList = before ++ (cs ++ after) →
      (∀ c ∈ before, isBlank c = true) → (∀ c ∈ after, isBlank c = true) → IsNumeral t cs i →
      t.Fits i → Spells t text i

/-! ## Digits -/

theorem value?_eq_some_iff_of_le (hradix : radix ≤ 16) :
    Digit.value? radix c = some d ↔ d < radix ∧ Digit.value? 16 c = some d := by
  unfold Digit.value?
  simp only [Option.filter_eq_some_iff, decide_eq_true_eq]
  constructor
  · intro h
    exact ⟨h.2, h.1, h.2.trans_le hradix⟩
  · intro h
    exact ⟨h.2.1, h.1⟩

theorem char_of_value? (h : Digit.value? 16 c = some d) :
    c = d.digitChar ∨ c = d.digitChar.toUpper := by
  have hdecimal : ∀ k < 10, Char.ofNat (48 + k) = k.digitChar := by decide
  have hlower : ∀ k < 6, Char.ofNat (97 + k) = (k + 10).digitChar := by decide
  have hupper : ∀ k < 6, Char.ofNat (65 + k) = (k + 10).digitChar.toUpper := by decide
  have hof : ∀ first, first ≤ c.toNat → c = Char.ofNat (first + (c.toNat - first)) := by
    intro first hfirst
    rw [Nat.add_sub_cancel' hfirst, Char.ofNat_toNat]
  unfold Digit.value? at h
  simp only [Option.filter_eq_some_iff] at h
  obtain ⟨h, -⟩ := h
  split_ifs at h with hc hc hc
  · have hge : 48 ≤ c.toNat := hc.1
    have hle : c.toNat ≤ 57 := hc.2
    cases h
    exact .inl ((hof 48 hge).trans (hdecimal _ (by omega)))
  · have hge : 97 ≤ c.toNat := hc.1
    have hle : c.toNat ≤ 102 := hc.2
    cases h
    exact .inl ((hof 97 hge).trans (hlower _ (by omega)))
  · have hge : 65 ≤ c.toNat := hc.1
    have hle : c.toNat ≤ 70 := hc.2
    cases h
    exact .inr ((hof 65 hge).trans (hupper _ (by omega)))

theorem value?_eq_some_iff (hradix : radix ≤ 16) :
    Digit.value? radix c = some d ↔ IsDigit radix c d := by
  have hupper : ∀ d < 16, Digit.value? 16 d.digitChar.toUpper = some d := by decide
  rw [value?_eq_some_iff_of_le hradix]
  constructor
  · intro h
    exact ⟨h.1, char_of_value? h.2⟩
  · intro h
    obtain ⟨hlt, hchar⟩ := h
    have hsixteen : d < 16 := hlt.trans_le hradix
    rcases hchar with rfl | rfl
    · exact ⟨hlt, Digit.value?_digitChar hsixteen hsixteen⟩
    · exact ⟨hlt, hupper d hsixteen⟩

/-- The characters of numerals that are no digits. -/
def marks : List Char := ['+', '-', 'x', 'X']

theorem mark_of_hexadecimal (hx : x = 'x' ∨ x = 'X') : isBlank x = false ∧ x ∈ marks := by
  rcases hx with rfl | rfl
  · decide
  · decide

/-- Digits are neither blanks nor signs nor the marks of hexadecimal numerals. -/
theorem IsDigit.plain (hradix : radix ≤ 16) (h : IsDigit radix c d) :
    isBlank c = false ∧ c ∉ marks := by
  have hall : ∀ d < 16, (isBlank d.digitChar = false ∧ d.digitChar ∉ marks) ∧
      isBlank d.digitChar.toUpper = false ∧ d.digitChar.toUpper ∉ marks := by decide
  obtain ⟨hlower, hupper⟩ := hall d (h.lt.trans_le hradix)
  rcases h.char with rfl | rfl
  · exact hlower
  · exact hupper

theorem IsNumber.plain (hradix : radix ≤ 16) (h : IsNumber radix cs n) :
    ∀ c ∈ cs, isBlank c = false ∧ c ∉ marks := by
  cases h with
  | digits hne hds =>
    clear hne
    induction hds with
    | nil => exact fun c hc => absurd hc List.not_mem_nil
    | cons hd _ ih => exact List.forall_mem_cons.mpr ⟨hd.plain hradix, ih⟩

theorem not_isNumber_nil : ¬IsNumber radix [] n := by
  intro h
  cases h with
  | digits hne _ => exact hne rfl

theorem not_isNumber_of_mem (hradix : radix ≤ 16) (hmark : c ∈ marks) (hc : c ∈ cs) :
    ¬IsNumber radix cs n :=
  fun h => (h.plain hradix c hc).2 hmark

/-! ## Rows of digits -/

/-- The number that digits give behind those of `n`. -/
def behind (radix n : Nat) (ds : List Nat) : Nat := ds.foldl (fun m d => d + radix * m) n

theorem behind_zero (radix : Nat) (ds : List Nat) :
    behind radix 0 ds = Nat.ofDigits radix ds.reverse := by
  rw [Nat.ofDigits_eq_foldr, List.foldr_reverse]
  rfl

theorem le_behind (hradix : 0 < radix) (n : Nat) (ds : List Nat) : n ≤ behind radix n ds := by
  induction ds generalizing n with
  | nil => exact Nat.le_refl n
  | cons d ds ih =>
      calc n ≤ radix * n := Nat.le_mul_of_pos_left n hradix
        _ ≤ d + radix * n := Nat.le_add_left ..
        _ ≤ behind radix n (d :: ds) := ih _

/-- The row goes on from the digits of `n` to those of `m`. -/
def Continues (radix n : Nat) (cs : List Char) (m : Nat) : Prop :=
  ∃ ds, List.Forall₂ (IsDigit radix) cs ds ∧ m = behind radix n ds

theorem isNumber_iff : IsNumber radix cs n ↔ cs ≠ [] ∧ Continues radix 0 cs n := by
  constructor
  · intro h
    obtain ⟨hne, hds⟩ := h
    exact ⟨hne, _, hds, (behind_zero radix _).symm⟩
  · intro h
    obtain ⟨hne, ds, hds, rfl⟩ := h
    rw [behind_zero]
    exact .digits hne hds

theorem Continues.le (hradix : 0 < radix) (h : Continues radix n cs m) : n ≤ m := by
  obtain ⟨ds, -, rfl⟩ := h
  exact le_behind hradix n ds

theorem continues_nil : Continues radix n [] m ↔ m = n := by
  simp only [Continues, List.forall₂_nil_left_iff, exists_eq_left]
  exact Iff.rfl

theorem continues_cons :
    Continues radix n (c :: cs) m ↔
      ∃ d, IsDigit radix c d ∧ Continues radix (d + radix * n) cs m := by
  constructor
  · intro h
    obtain ⟨ds, hds, hm⟩ := h
    cases hds with
    | cons hd hds => exact ⟨_, hd, _, hds, hm⟩
  · intro h
    obtain ⟨d, hd, ds, hds, hm⟩ := h
    exact ⟨d :: ds, .cons hd hds, hm⟩

/-! ## Reading digits -/

/-- The integer of a magnitude and a sign. -/
def signed (negative : Bool) (n : Nat) : Int := if negative then -n else n

/-- A range holds all integers between zero and one of its own. -/
theorem fits_signed_of_le {negative : Bool} (hle : m ≤ n) (h : t.Fits (signed negative n)) :
    t.Fits (signed negative m) := by
  have hleast := t.least_nonpos
  have hgreatest := t.greatest_nonneg
  obtain ⟨hlow, hhigh⟩ := h
  unfold signed at hlow hhigh ⊢
  cases negative with
  | false =>
      rw [if_neg Bool.false_ne_true] at hlow hhigh ⊢
      exact ⟨by omega, by omega⟩
  | true =>
      rw [if_pos rfl] at hlow hhigh ⊢
      exact ⟨by omega, by omega⟩

theorem signed_add_mul (negative : Bool) (radix n d : Nat) :
    (if negative then signed negative n * radix - d else signed negative n * radix + d) =
      signed negative (d + radix * n) := by
  unfold signed
  cases negative with
  | false =>
      simp only [Bool.false_eq_true, if_false, Nat.cast_add, Nat.cast_mul]
      ring
  | true =>
      simp only [if_true, Nat.cast_add, Nat.cast_mul]
      ring

theorem inRange_eq_ok {k : Int} {x : Except NumeralError Int} :
    (if t.greatest < k then .error .tooLarge else if k < t.least then .error .tooSmall else x) =
      .ok i ↔ t.Fits k ∧ x = .ok i := by
  unfold IntType.Fits
  split
  next h => exact iff_of_false nofun fun hok => absurd hok.1.2 (Int.not_le.mpr h)
  next hgreatest =>
    split
    next h => exact iff_of_false nofun fun hok => absurd hok.1.1 (Int.not_le.mpr h)
    next hleast => exact (and_iff_right ⟨Int.not_lt.mp hleast, Int.not_lt.mp hgreatest⟩).symm

/-- What is read so far only goes away from zero. So the range is left on the way only where the whole
number is outside of it. -/
theorem readDigits_eq_ok (hradix : radix ≤ 16) {negative : Bool} (hn : t.Fits (signed negative n)) :
    readDigits t radix negative (signed negative n) cs = .ok i ↔
      ∃ m, Continues radix n cs m ∧ i = signed negative m ∧ t.Fits i := by
  induction cs generalizing n with
  | nil =>
      rw [readDigits, Except.ok.injEq]
      simp only [continues_nil, exists_eq_left]
      constructor
      · intro h
        subst h
        exact ⟨rfl, hn⟩
      · exact fun h => h.1.symm
  | cons c cs ih =>
      rw [readDigits]
      simp only [continues_cons, ← value?_eq_some_iff hradix]
      cases hvalue : Digit.value? radix c with
      | none => simp
      | some d =>
          have hpos : 0 < radix := Nat.zero_lt_of_lt ((value?_eq_some_iff hradix).mp hvalue).lt
          simp only [Option.some.injEq, exists_eq_left', signed_add_mul, inRange_eq_ok]
          constructor
          · intro h
            exact (ih h.1).mp h.2
          · intro h
            obtain ⟨m, hm, hi, hfits⟩ := h
            have hnext := fits_signed_of_le (hm.le hpos) (hi ▸ hfits)
            exact ⟨hnext, (ih hnext).mpr ⟨m, hm, hi, hfits⟩⟩

theorem readDigits_zero_eq_ok (hradix : radix ≤ 16) {negative : Bool} (hne : cs ≠ []) :
    readDigits t radix negative 0 cs = .ok i ↔
      (∃ m, IsNumber radix cs m ∧ i = signed negative m) ∧ t.Fits i := by
  have hzero : signed negative 0 = 0 := by cases negative <;> rfl
  have hfits : t.Fits (signed negative 0) := hzero ▸ t.fits_zero
  have hread : readDigits t radix negative (signed negative 0) cs = .ok i ↔ _ :=
    readDigits_eq_ok hradix hfits
  rw [hzero] at hread
  simp only [hread, isNumber_iff, and_iff_right hne, ← and_assoc, exists_and_right]

/-! ## Signs -/

theorem isSigned_plus (hradix : radix ≤ 16) :
    IsSigned t radix ('+' :: cs) i ↔ ∃ m, IsNumber radix cs m ∧ i = signed false m := by
  constructor
  · intro h
    cases h with
    | bare h => exact absurd h (not_isNumber_of_mem hradix (by decide) List.mem_cons_self)
    | plus h => exact ⟨_, h, rfl⟩
  · intro h
    obtain ⟨m, h, rfl⟩ := h
    exact .plus h

theorem isSigned_minus (hradix : radix ≤ 16) :
    IsSigned t radix ('-' :: cs) i ↔
      t.signed = true ∧ ∃ m, IsNumber radix cs m ∧ i = signed true m := by
  constructor
  · intro h
    cases h with
    | bare h => exact absurd h (not_isNumber_of_mem hradix (by decide) List.mem_cons_self)
    | minus hsigned h => exact ⟨hsigned, _, h, rfl⟩
  · intro h
    obtain ⟨hsigned, m, h, rfl⟩ := h
    exact .minus hsigned h

theorem isSigned_bare (hplus : ∀ rest, cs ≠ '+' :: rest) (hminus : ∀ rest, cs ≠ '-' :: rest) :
    IsSigned t radix cs i ↔ ∃ m, IsNumber radix cs m ∧ i = signed false m := by
  constructor
  · intro h
    cases h with
    | bare h => exact ⟨_, h, rfl⟩
    | plus h => exact absurd rfl (hplus _)
    | minus _ h => exact absurd rfl (hminus _)
  · intro h
    obtain ⟨m, h, rfl⟩ := h
    exact .bare h

theorem readSigned_eq_ok (hradix : radix ≤ 16) :
    readSigned t radix cs = .ok i ↔ IsSigned t radix cs i ∧ t.Fits i := by
  fun_cases readSigned t radix cs with
  | case1 => simp [isSigned_bare, not_isNumber_nil]
  | case2 => simp [isSigned_plus hradix, not_isNumber_nil]
  | case3 => simp [isSigned_minus hradix, not_isNumber_nil]
  | case4 cs hne => rw [readDigits_zero_eq_ok hradix hne, isSigned_plus hradix]
  | case5 cs hne hsigned =>
      rw [readDigits_zero_eq_ok hradix hne, isSigned_minus hradix, and_iff_right hsigned]
  | case6 cs _ hunsigned =>
      -- an unsigned type takes the sign for a digit
      rw [readDigits_zero_eq_ok hradix (List.cons_ne_nil _ _), isSigned_minus hradix]
      refine iff_of_false ?_ fun h => hunsigned h.1.1
      intro h
      obtain ⟨⟨m, h, -⟩, -⟩ := h
      exact not_isNumber_of_mem hradix (by decide) List.mem_cons_self h
  | case7 cs hne _ _ hplus hminus =>
      rw [readDigits_zero_eq_ok hradix hne, isSigned_bare hplus hminus]

theorem IsSigned.not_blank (hradix : radix ≤ 16) (h : IsSigned t radix cs i) :
    ∀ c ∈ cs, isBlank c = false := by
  have hnumber : ∀ {cs n}, IsNumber radix cs n → ∀ c ∈ cs, isBlank c = false :=
    fun h c hc => (h.plain hradix c hc).1
  cases h with
  | bare h => exact hnumber h
  | plus h => exact List.forall_mem_cons.mpr ⟨by decide, hnumber h⟩
  | minus _ h => exact List.forall_mem_cons.mpr ⟨by decide, hnumber h⟩

theorem IsSigned.ne_nil (h : IsSigned t radix cs i) : cs ≠ [] := by
  intro hnil
  subst hnil
  cases h with
  | bare h => exact not_isNumber_nil h

/-! ## Decimal and hexadecimal numerals -/

/-- The mark of hexadecimal numerals is no decimal digit. -/
theorem isNumeral_marked (hx : x = 'x' ∨ x = 'X') :
    IsNumeral t ('0' :: x :: cs) i ↔ IsSigned t 16 cs i := by
  refine ⟨?_, .hexadecimal hx⟩
  intro h
  cases h with
  | hexadecimal _ h => exact h
  | decimal h =>
    cases h with
    | bare h =>
      have hmem : x ∈ '0' :: x :: cs := List.mem_cons_of_mem _ List.mem_cons_self
      exact absurd h (not_isNumber_of_mem (by decide) (mark_of_hexadecimal hx).2 hmem)

theorem isNumeral_unmarked (hcs : ∀ x c rest, cs = '0' :: x :: c :: rest → ¬(x = 'x' ∨ x = 'X')) :
    IsNumeral t cs i ↔ IsSigned t 10 cs i := by
  refine ⟨?_, .decimal⟩
  intro h
  cases h with
  | decimal h => exact h
  | hexadecimal hx h =>
    obtain ⟨c, rest, rfl⟩ := List.exists_cons_of_ne_nil h.ne_nil
    exact absurd hx (hcs _ _ _ rfl)

theorem IsNumeral.not_blank (h : IsNumeral t cs i) : ∀ c ∈ cs, isBlank c = false := by
  cases h with
  | decimal h => exact h.not_blank (by decide)
  | hexadecimal hx h =>
    refine List.forall_mem_cons.mpr ⟨by decide, List.forall_mem_cons.mpr ⟨?_, ?_⟩⟩
    · exact (mark_of_hexadecimal hx).1
    · exact h.not_blank (by decide)

theorem IsNumeral.ne_nil (h : IsNumeral t cs i) : cs ≠ [] := by
  cases h with
  | decimal h => exact h.ne_nil
  | hexadecimal _ _ => exact List.cons_ne_nil _ _

theorem read_eq_ok_iff_isNumeral {text : String} :
    read t text = .ok i ↔ IsNumeral t (trimBlank text.toList) i ∧ t.Fits i := by
  unfold read
  generalize trimBlank text.toList = cs
  split
  next x c rest =>
    split
    next hx => rw [readSigned_eq_ok (by decide), isNumeral_marked hx]
    next hx =>
      rw [readSigned_eq_ok (by decide), isNumeral_unmarked]
      intro _ _ _ h
      cases h
      exact hx
  next hshort =>
    rw [readSigned_eq_ok (by decide), isNumeral_unmarked]
    intro x c rest h
    exact absurd h (hshort x c rest)

/-- A text is read as an integer exactly when it spells it. -/
theorem read_eq_ok {text : String} : read t text = .ok i ↔ Spells t text i := by
  rw [read_eq_ok_iff_isNumeral]
  constructor
  · intro h
    obtain ⟨before, after, hsplit, hbefore, hafter⟩ := exists_eq_append_trimBlank text.toList
    exact .intro hsplit hbefore hafter h.1 h.2
  · intro h
    obtain ⟨hsplit, hbefore, hafter, hnumeral, hfits⟩ := h
    rw [hsplit, trimBlank_append hbefore hafter hnumeral.not_blank hnumeral.ne_nil]
    exact ⟨hnumeral, hfits⟩

/-! ## Printing -/

theorem IsNumber.snoc (h : IsNumber radix cs n) (hd : IsDigit radix c d) :
    IsNumber radix (cs ++ [c]) (d + radix * n) := by
  cases h with
  | @digits ds hne hds =>
    have hsnoc : List.Forall₂ (IsDigit radix) (cs ++ [c]) (ds ++ [d]) :=
      List.rel_append hds (.cons hd .nil)
    have hvalue : Nat.ofDigits radix (ds ++ [d]).reverse =
        d + radix * Nat.ofDigits radix ds.reverse := by
      rw [List.reverse_append]
      rfl
    rw [← hvalue]
    exact .digits (List.append_ne_nil_of_left_ne_nil hne _) hsnoc

theorem isNumber_toDigits (hradix : 1 < radix) (n : Nat) :
    IsNumber radix (Nat.toDigits radix n) n := by
  induction n using Nat.strong_induction_on with
  | _ n ih =>
    rw [Nat.toDigits_eq_if hradix]
    split
    next hlt =>
      have hd : List.Forall₂ (IsDigit radix) [n.digitChar] [n] := .cons ⟨hlt, .inl rfl⟩ .nil
      have hone := IsNumber.digits (List.cons_ne_nil _ _) hd
      rwa [List.reverse_singleton, Nat.ofDigits_singleton] at hone
    next =>
      have hless : n / radix < n := Nat.div_lt_self (by omega) hradix
      have hd : IsDigit radix (n % radix).digitChar (n % radix) :=
        ⟨Nat.mod_lt n (by omega), .inl rfl⟩
      have hsnoc := (ih _ hless).snoc hd
      rwa [Nat.mod_add_div] at hsnoc

theorem spells_of_isNumeral {text : String} (h : IsNumeral t text.toList i) (hfits : t.Fits i) :
    Spells t text i := by
  have hsplit : text.toList = [] ++ (text.toList ++ []) := by
    rw [List.append_nil, List.nil_append]
  exact .intro hsplit (by simp) (by simp) h hfits

theorem spells_toString (h : t.Fits i) : Spells t (toString i) i := by
  refine spells_of_isNumeral (.decimal ?_) h
  cases i with
  | ofNat n =>
      have htext : (toString (Int.ofNat n)).toList = Nat.toDigits 10 n := Nat.toList_repr
      rw [htext]
      exact .bare (isNumber_toDigits (by decide) n)
  | negSucc n =>
      have htext : (toString (Int.negSucc n)).toList = '-' :: Nat.toDigits 10 (n + 1) := by
        change ("-" ++ (n + 1).repr).toList = _
        rw [String.toList_append, Nat.toList_repr]
        rfl
      have hsigned := h.signed (Int.negSucc_lt_zero n)
      rw [htext]
      exact .minus hsigned (isNumber_toDigits (by decide) (n + 1))

theorem spells_hex (h : t.Fits n) : Spells t (Word.hex n) n := by
  have hdigits : (String.ofList (Nat.toDigits 16 n)).toList = Nat.toDigits 16 n :=
    String.toList_ofList
  have htext : (Word.hex n).toList = '0' :: 'x' :: Nat.toDigits 16 n := by
    unfold Word.hex
    rw [String.toList_append, hdigits]
    rfl
  refine spells_of_isNumeral ?_ h
  rw [htext]
  exact .hexadecimal (.inl rfl) (.bare (isNumber_toDigits (by decide) n))

end Numeral

end Pcode
