import Pcode.Config.Attribute
import Pcode.Proofs.Actions
import Pcode.Proofs.Numeral

/-!
# Integers in attributes

An attribute holds an integer when its text spells one, and no other text is read as one. A word that
is read stands for the integer itself.
-/
namespace Pcode.Xml.Element
open Numeral (Spells)

variable {e : Element} {name : String}

theorem readInt_eq_ok {t : IntType} {text : String} {n : Int} :
    readInt t text = .ok n ↔ Spells t text n := by
  unfold readInt
  rw [mapError_eq_ok, Numeral.read_eq_ok]

theorem int_eq_ok {t : IntType} {n : Int} :
    e.int t name = .ok n ↔ ∃ text, e.attribute? name = some text ∧ Spells t text n := by
  unfold int text
  simp only [bind_eq_ok, readInt_eq_ok]
  cases e.attribute? name with
  | none => simp
  | some text => simp

theorem intD_eq_ok {t : IntType} {default n : Int} :
    e.intD t name default = .ok n ↔
      e.int t name = .ok n ∨ e.attribute? name = none ∧ n = default := by
  rw [int_eq_ok]
  unfold intD
  cases e.attribute? name with
  | none => simp [eq_comm]
  | some text => simp [readInt_eq_ok]

theorem fits_of_int {t : IntType} {n : Int} (h : e.int t name = .ok n) : t.Fits n := by
  obtain ⟨text, -, hspells⟩ := int_eq_ok.mp h
  cases hspells with
  | intro _ _ _ _ hfits => exact hfits

/-! ## Words -/

/-- The words stand for the integers of a range, each for one. -/
structure Represents {α : Type} (t : IntType) (ofInt : Int → α) (toInt : α → Int) : Prop where
  value : ∀ n, t.Fits n → toInt (ofInt n) = n
  word : ∀ a, ofInt (toInt a) = a

theorem represents_uint64 : Represents .u64 UInt64.ofInt fun w => (w.toNat : Int) where
  value n h := by
    have hlow : 0 ≤ n := h.1
    have hhigh : n ≤ 2 ^ 64 - 1 := h.2
    unfold UInt64.ofInt
    rw [UInt64.toNat_ofNat']
    omega
  word w := by
    have hlt := w.toNat_lt
    unfold UInt64.ofInt
    rw [← UInt64.toNat_inj, UInt64.toNat_ofNat']
    omega

theorem represents_uint32 : Represents .u32 UInt32.ofInt fun w => (w.toNat : Int) where
  value n h := by
    have hlow : 0 ≤ n := h.1
    have hhigh : n ≤ 2 ^ 32 - 1 := h.2
    unfold UInt32.ofInt
    rw [UInt32.toNat_ofNat']
    omega
  word w := by
    have hlt := w.toNat_lt
    unfold UInt32.ofInt
    rw [← UInt32.toNat_inj, UInt32.toNat_ofNat']
    omega

theorem represents_int32 : Represents .i32 Int32.ofInt Int32.toInt where
  value n h := by
    have hlow : -2 ^ 31 ≤ n := h.1
    have hhigh : n ≤ 2 ^ 31 - 1 := h.2
    exact Int32.toInt_ofInt_of_le hlow (by omega)
  word := Int32.ofInt_toInt

/-- A word is read exactly when the integer that it stands for is. -/
theorem Represents.map_eq_ok {α : Type} {t : IntType} {ofInt : Int → α} {toInt : α → Int}
    (h : Represents t ofInt toInt) {a : α} :
    (do return ofInt (← e.int t name)) = .ok a ↔ e.int t name = .ok (toInt a) := by
  rw [bind_eq_ok]
  constructor
  · intro hmap
    obtain ⟨n, hn, ha⟩ := hmap
    cases ha
    rw [h.value n (fits_of_int hn)]
    exact hn
  · intro hint
    exact ⟨toInt a, hint, congrArg Except.ok (h.word a)⟩

theorem word_eq_ok {w : UInt64} : e.word name = .ok w ↔ e.int .u64 name = .ok w.toNat :=
  represents_uint64.map_eq_ok

theorem wordD_eq_ok {default w : UInt64} :
    e.wordD name default = .ok w ↔ e.word name = .ok w ∨ e.attribute? name = none ∧ w = default := by
  unfold wordD word intD int text
  cases e.attribute? name with
  | some text =>
      simp only [reduceCtorEq, false_and, or_false]
      exact Iff.rfl
  | none =>
      have hdefault : UInt64.ofInt default.toNat = default := represents_uint64.word default
      change Except.ok (UInt64.ofInt default.toNat) = _ ↔ Except.error _ = _ ∨ _
      rw [hdefault]
      simp [eq_comm]

/-- An integer is read from an attribute exactly when the text spells it, as a numeral of this value
in the range asked for and blanks around it. Without the attribute there is only the default. So an
integer that is printed is read back, and a word that is read stands for the very integer that the
text spells. -/
theorem integers_read_exactly (e : Element) (name : String) :
    (∀ t n, e.int t name = .ok n ↔ ∃ text, e.attribute? name = some text ∧ Spells t text n) ∧
    (∀ t default n, e.intD t name default = .ok n ↔
      e.int t name = .ok n ∨ e.attribute? name = none ∧ n = default) ∧
    (∀ t n, t.Fits n → e.attribute? name = some (toString n) → e.int t name = .ok n) ∧
    (∀ t (n : Nat), t.Fits n → e.attribute? name = some (Word.hex n) → e.int t name = .ok n) ∧
    (∀ w, e.word name = .ok w ↔ e.int .u64 name = .ok w.toNat) ∧
    (∀ default w, e.wordD name default = .ok w ↔
      e.word name = .ok w ∨ e.attribute? name = none ∧ w = default) ∧
    (∀ w, e.word32 name = .ok w ↔ e.int .u32 name = .ok w.toNat) ∧
    ∀ n, e.int32 name = .ok n ↔ e.int .i32 name = .ok n.toInt := by
  refine ⟨fun _ _ => int_eq_ok, fun _ _ _ => intD_eq_ok, ?_, ?_, fun _ => word_eq_ok,
    fun _ _ => wordD_eq_ok, fun _ => represents_uint32.map_eq_ok,
    fun _ => represents_int32.map_eq_ok⟩
  · intro t n hfits htext
    exact int_eq_ok.mpr ⟨_, htext, Numeral.spells_toString hfits⟩
  · intro t n hfits htext
    exact int_eq_ok.mpr ⟨_, htext, Numeral.spells_hex hfits⟩

/-- The sign stands behind the mark, and the range has one more integer below zero than above. -/
example : readInt .i8 " 0X-80 " = .ok (-128) := by decide +kernel

end Pcode.Xml.Element
