import Pcode.Proofs.Actions
import Pcode.Proofs.Context.Bits
import Pcode.Proofs.Ordered

/-!
# Context fields as bits

A field is found by the name it was last defined by, and is then the bits it was defined over: a
number in the buffers that reach it, and nothing in those that do not.
-/
namespace Pcode.ContextFields
open Pcode.Action
open BitField (Within bitsPerWord bits slice number)

/-! ## Definitions -/

/-- A field is defined when its bits are bits of one word. -/
theorem exec_define_ok {name : String} {first last : UInt64} {c d : ContextFields} {u : Unit} :
    (define name first last).exec c = (.ok u, d) ↔
      Within first.toNat last.toNat ∧ c.push name (.ofBits first.toNat last.toNat) = d := by
  unfold define
  by_cases h : last.toNat < first.toNat ∨
      first.toNat / bitsPerWord ≠ last.toNat / bitsPerWord
  · rw [if_pos h]
    constructor
    · intro hexec
      cases hexec
    · intro ⟨hwithin, _⟩
      rcases h with h | h
      · exact absurd hwithin.le (Nat.not_le_of_lt h)
      · exact absurd hwithin.word h
  · rw [if_neg h]
    rw [not_or, Nat.not_lt, ne_eq, Decidable.not_not] at h
    constructor
    · intro hexec
      cases hexec
      exact ⟨⟨h.1, h.2⟩, rfl⟩
    · intro ⟨_, hpush⟩
      rw [← hpush]
      rfl

/-- A definition that is refused changes nothing. -/
theorem exec_define_error {name : String} {first last : UInt64} {c d : ContextFields}
    {e : Config.Error} (h : (define name first last).exec c = (.error e, d)) : d = c := by
  unfold define at h
  dsimp only at h
  split at h
  next =>
    cases h
    rfl
  next => cases h

theorem field?_push (c : ContextFields) (name : String) (field : BitField) (asked : String) :
    (c.push name field).field? asked = if asked = name then some field else c.field? asked := by
  change (Ordered.place compare name field c.fields).lookup asked = _
  rw [Ordered.lookup_place]
  simp only [beq_iff_eq]
  rfl

theorem fields_setDefault (name : String) (value : UInt32) (c : ContextFields) :
    ((setDefault name value).exec c).2.fields = c.fields := by
  unfold setDefault
  rw [exec_get_bind]
  split
  next => rfl
  next =>
    split
    next => rfl
    next => rfl

/-- The field `name` was last defined over the bits `first … last`. -/
inductive Defined (name : String) (first last : UInt64) : ContextFields → Prop
  | define {c d : ContextFields} : (define name first last).exec c = (.ok (), d) →
      Defined name first last d
  /-- Other definitions, and refused ones of the same name, may follow. -/
  | keep {c d : ContextFields} {name' : String} {first' last' : UInt64}
      {answer : Except Config.Error Unit} : Defined name first last c →
      (ContextFields.define name' first' last').exec c = (answer, d) →
      (name' = name → ∃ e, answer = .error e) → Defined name first last d
  | setDefault {c : ContextFields} (name' : String) (value : UInt32) : Defined name first last c →
      Defined name first last ((setDefault name' value).exec c).2

namespace Defined
variable {name : String} {first last : UInt64} {c : ContextFields}

theorem within (h : Defined name first last c) : Within first.toNat last.toNat := by
  induction h with
  | define hexec => exact (exec_define_ok.mp hexec).1
  | keep _ _ _ ih => exact ih
  | setDefault _ _ _ ih => exact ih

theorem field? (h : Defined name first last c) :
    c.field? name = some (.ofBits first.toNat last.toNat) := by
  induction h with
  | define hexec =>
      rw [← (exec_define_ok.mp hexec).2, field?_push, if_pos rfl]
  | @keep _ _ name' _ _ answer _ hexec hother ih =>
      cases answer with
      | error e =>
          rw [exec_define_error hexec]
          exact ih
      | ok u =>
          have hne : name ≠ name' := by
            intro heq
            obtain ⟨e, he⟩ := hother heq.symm
            cases he
          rw [← (exec_define_ok.mp hexec).2, field?_push, if_neg hne]
          exact ih
  | setDefault name' value _ ih =>
      unfold ContextFields.field?
      rw [fields_setDefault]
      exact ih

end Defined

/-! ## Reads and writes -/

/-- The buffer after an attempt to write the field. One that is not reached stays as it is. -/
def put (c : ContextFields) (name : String) (buffer : List UInt32) (value : UInt32) : List UInt32 :=
  (c.write? name buffer value).getD buffer

/-- The field is the number in the bits `first … last` of the buffer. -/
structure Stored (c : ContextFields) (name : String) (first last : Nat) (buffer : List UInt32) :
    Prop where
  read : ∃ value, c.read? name buffer = some value ∧
    value.toNat = number (slice first last buffer) ∧ c.write? name buffer value = some buffer
  write : ∀ value, ∃ written, c.write? name buffer value = some written ∧
    written.length = buffer.length ∧
    bits written = (bits buffer).take first ++ (bits [value]).drop (32 - (last + 1 - first)) ++
      (bits buffer).drop (last + 1)
  readBack : ∀ value, ∃ stored, c.read? name (c.put name buffer value) = some stored ∧
    stored.toNat = value.toNat % 2 ^ (last + 1 - first)
  overwrite : ∀ value later,
    c.write? name (c.put name buffer value) later = c.write? name buffer later

/-- The buffer does not contain the field. -/
structure Missing (c : ContextFields) (name : String) (buffer : List UInt32) : Prop where
  read : c.read? name buffer = none
  write : ∀ value, c.write? name buffer value = none
  unchanged : ∀ value, c.put name buffer value = buffer

/-- Two fields that do not disturb each other. -/
structure Apart (c : ContextFields) (name name' : String) (buffer : List UInt32) : Prop where
  reads : ∀ value, c.read? name' (c.put name buffer value) = c.read? name' buffer
  commute : ∀ value value',
    c.put name' (c.put name buffer value) value' = c.put name (c.put name' buffer value') value

namespace Defined
variable {c : ContextFields} {name name' : String} {first last first' last' : UInt64}

theorem read? (h : Defined name first last c) (buffer : List UInt32) :
    c.read? name buffer = (BitField.ofBits first.toNat last.toNat).read? buffer := by
  unfold ContextFields.read?
  rw [h.field?, Option.bind_some]

theorem write? (h : Defined name first last c) (buffer : List UInt32) (value : UInt32) :
    c.write? name buffer value = (BitField.ofBits first.toNat last.toNat).write? buffer value := by
  unfold ContextFields.write?
  rw [h.field?, Option.bind_some]

theorem put (h : Defined name first last c) (buffer : List UInt32) (value : UInt32) :
    c.put name buffer value = (BitField.ofBits first.toNat last.toNat).put buffer value := by
  unfold ContextFields.put
  rw [h.write?]
  rfl

theorem stored (h : Defined name first last c) {buffer : List UInt32}
    (hreach : first.toNat / bitsPerWord < buffer.length) :
    Stored c name first.toNat last.toNat buffer where
  read := by
    refine ⟨_, ?_, h.within.toNat_get hreach, ?_⟩
    · rw [h.read?, BitField.read?_eq]
      exact if_pos hreach
    · rw [h.write?, BitField.write?_eq, h.within.put_get]
      exact if_pos hreach
  write := by
    intro value
    refine ⟨_, ?_, BitField.length_put _ buffer value, h.within.bits_put hreach value⟩
    rw [h.write?, BitField.write?_eq]
    exact if_pos hreach
  readBack := by
    intro value
    refine ⟨_, ?_, h.within.toNat_get_put hreach value⟩
    rw [h.put, h.read?, BitField.read?_eq, BitField.length_put]
    exact if_pos hreach
  overwrite := by
    intro value later
    rw [h.put, h.write?, h.write?, BitField.write?_eq, BitField.write?_eq, BitField.length_put,
      h.within.put_put]

theorem missing (h : Defined name first last c) {buffer : List UInt32}
    (hshort : ¬first.toNat / bitsPerWord < buffer.length) : Missing c name buffer := by
  have hwrite : ∀ value, c.write? name buffer value = none := by
    intro value
    rw [h.write?, BitField.write?_eq]
    exact if_neg hshort
  refine ⟨?_, hwrite, ?_⟩
  · rw [h.read?, BitField.read?_eq]
    exact if_neg hshort
  · intro value
    unfold ContextFields.put
    rw [hwrite]
    rfl

theorem apart (h : Defined name first last c) (h' : Defined name' first' last' c)
    (hapart : last.toNat < first'.toNat ∨ last'.toNat < first.toNat) (buffer : List UInt32) :
    Apart c name name' buffer where
  reads := by
    intro value
    rw [h.put, h'.read?, h'.read?, BitField.read?_eq, BitField.read?_eq, BitField.length_put,
      h.within.get_put_of_apart h'.within hapart]
  commute := by
    intro value value'
    rw [h.put, h'.put, h'.put, h.put, h.within.put_comm_of_apart h'.within hapart]

end Defined

/-- A field defined over bits of one word is the number in these bits, which a write exchanges for
the low bits of its value, where the buffer contains them. Elsewhere it is neither read nor written,
and fields without a bit in common do not disturb each other. -/
theorem fields_are_bits {c : ContextFields} {name : String} {first last : UInt64}
    (h : Defined name first last c) (buffer : List UInt32) :
    Within first.toNat last.toNat ∧
    (first.toNat / bitsPerWord < buffer.length → Stored c name first.toNat last.toNat buffer) ∧
    (¬first.toNat / bitsPerWord < buffer.length → Missing c name buffer) ∧
    ∀ name' first' last', Defined name' first' last' c →
      (last.toNat < first'.toNat ∨ last'.toNat < first.toNat) → Apart c name name' buffer := by
  refine ⟨h.within, h.stored, h.missing, ?_⟩
  intro name' first' last' h' hapart
  exact h.apart h' hapart buffer

/-- A mode at the start of the first word and a condition inside the second. -/
theorem mode_and_cond_are_bits :
    let modeOnly := ((define "mode" 0 1).exec empty).2
    let c := ((define "cond" 36 39).exec modeOnly).2
    Defined "mode" 0 1 c ∧ Defined "cond" 36 39 c ∧
      Stored c "cond" 36 39 [0xa0000000, 0x0e000000] ∧ Missing c "cond" [0xa0000000] ∧
      Apart c "cond" "mode" [0xa0000000, 0x0e000000] := by
  intro modeOnly c
  have hfirst : Defined "mode" 0 1 modeOnly := .define rfl
  have hnext : (define "cond" 36 39).exec modeOnly = (.ok (), c) := rfl
  have hcond : Defined "cond" 36 39 c := .define hnext
  have hmode : Defined "mode" 0 1 c :=
    hfirst.keep hnext fun heq => absurd heq (by decide)
  have hlong := fields_are_bits hcond [0xa0000000, 0x0e000000]
  have hshort := fields_are_bits hcond [0xa0000000]
  exact ⟨hmode, hcond, hlong.2.1 (by decide), hshort.2.2.1 (by decide),
    hlong.2.2.2 _ _ _ hmode (by decide)⟩

end Pcode.ContextFields
