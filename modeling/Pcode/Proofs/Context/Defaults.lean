import Mathlib.Data.List.Induction
import Pcode.Proofs.Context.Fields

/-!
# Default values over a history

Fields are defined, defined again and given defaults in any order, and some requests are refused.
The buffer of defaults always reaches every field, and a bit of it is what the last default of a
field with this bit wrote there, or zero.
-/
namespace Pcode.BitField

/-! ## Buffers that agree on a field -/

/-- Zero words behind a buffer leave its string of bits alone, which reads as zero there anyway. -/
theorem bitAt_append_zeros (buffer : List UInt32) (n i : Nat) :
    bitAt (buffer ++ List.replicate n 0) i = bitAt buffer i := by
  unfold bitAt
  rcases Nat.lt_or_ge (i / bitsPerWord) buffer.length with hlt | hge
  · rw [List.getElem?_append_left hlt]
  · rw [List.getElem?_append_right hge, List.getElem?_eq_none hge, List.getElem?_replicate]
    split
    next => simp [topBit]
    next => rfl

section Agree
variable {first last : Nat} (h : Within first last)
include h

/-- A field is the same in buffers that agree on its bits. -/
theorem Within.get_congr {b b' : List UInt32}
    (hbits : ∀ i, first ≤ i → i ≤ last → bitAt b i = bitAt b' i) :
    (ofBits first last).get b = (ofBits first last).get b' := by
  have hle := h.le
  apply eq_of_topBit
  intro i _
  rw [h.topBit_get, h.topBit_get]
  by_cases hi : 31 ≤ i + (last - first) ∧ i < 32
  · rw [hbits _ (by omega) (by omega)]
  · rw [decide_eq_false hi, Bool.false_and, Bool.false_and]

end Agree

end Pcode.BitField

namespace Pcode.ContextFields
open BitField (Within bitsPerWord bitAt)

/-! ## Requests -/

instance (first last : Nat) : Decidable (Within first last) :=
  decidable_of_iff (first ≤ last ∧ first / bitsPerWord = last / bitsPerWord)
    ⟨fun h => ⟨h.1, h.2⟩, fun h => ⟨h.le, h.word⟩⟩

/-- The operations that change context fields, with their arguments. -/
inductive Request where
  | define (name : String) (first last : UInt64)
  | setDefault (name : String) (value : UInt32)

def Request.action : Request → Action ContextFields Config.Error Unit
  | define name first last => ContextFields.define name first last
  | setDefault name value => ContextFields.setDefault name value

/-- What a request leaves behind, whether it is granted or not. -/
def perform (c : ContextFields) (r : Request) : ContextFields := (r.action.exec c).2

/-- The context fields after a history of requests. -/
def after (history : List Request) : ContextFields := history.foldl perform empty

theorem after_snoc (history : List Request) (r : Request) :
    after (history ++ [r]) = perform (after history) r :=
  List.foldl_append

/-- The name and the bits that a request defines, when these are bits of one word. -/
def Request.definition? : Request → Option (String × UInt64 × UInt64)
  | define name first last =>
    if Within first.toNat last.toNat then some (name, first, last) else none
  | setDefault _ _ => none

/-- The definitions of a history that are granted, in their order. -/
def definitions (history : List Request) : List (String × UInt64 × UInt64) :=
  history.filterMap Request.definition?

/-- The bits over which a name was last defined. -/
def bits? (history : List Request) (name : String) : Option (UInt64 × UInt64) :=
  (definitions history).reverse.lookup name

/-- The words in which fields were defined. -/
def words (history : List Request) : List Nat :=
  (definitions history).map fun d => d.2.1.toNat / bitsPerWord

/-- One more than the largest word in which a field was defined. -/
def reach (history : List Request) : Nat := ((words history).max?.map (· + 1)).getD 0

theorem definitions_snoc (history : List Request) (r : Request) :
    definitions (history ++ [r]) = definitions history ++ r.definition?.toList := by
  unfold definitions
  rw [List.filterMap_append]
  cases h : r.definition? <;> simp [h]

theorem definition?_define {first last : UInt64} (h : Within first.toNat last.toNat)
    (name : String) : (Request.define name first last).definition? = some (name, first, last) :=
  if_pos h

/-- Bits of several words define nothing. -/
theorem definition?_define_of_not {first last : UInt64} (h : ¬Within first.toNat last.toNat)
    (name : String) : (Request.define name first last).definition? = none :=
  if_neg h

/-- A request that defines nothing leaves the definitions as they are. -/
theorem definitions_snoc_of_none {r : Request} (h : r.definition? = none)
    (history : List Request) : definitions (history ++ [r]) = definitions history := by
  rw [definitions_snoc, h, Option.toList_none, List.append_nil]

theorem bits?_snoc_of_none {r : Request} (h : r.definition? = none) (history : List Request)
    (name : String) : bits? (history ++ [r]) name = bits? history name := by
  unfold bits?
  rw [definitions_snoc_of_none h]

theorem bits?_snoc_define {first last : UInt64} (h : Within first.toNat last.toNat)
    (history : List Request) (name asked : String) :
    bits? (history ++ [.define name first last]) asked =
      if asked = name then some (first, last) else bits? history asked := by
  unfold bits?
  rw [definitions_snoc, definition?_define h, Option.toList_some, List.reverse_append,
    List.reverse_singleton, List.singleton_append, List.lookup_cons]
  by_cases hasked : asked = name
  · rw [if_pos hasked, beq_iff_eq.mpr hasked]
  · rw [if_neg hasked, beq_eq_false_iff_ne.mpr hasked]

theorem mem_definitions_of_bits? {history : List Request} {name : String} {first last : UInt64}
    (h : bits? history name = some (first, last)) : (name, first, last) ∈ definitions history := by
  obtain ⟨later, earlier, hsplit, -⟩ := List.lookup_eq_some_iff.mp h
  rw [← List.mem_reverse, hsplit]
  exact List.mem_append_right _ List.mem_cons_self

theorem within_of_bits? {history : List Request} {name : String} {first last : UInt64}
    (h : bits? history name = some (first, last)) : Within first.toNat last.toNat := by
  obtain ⟨r, -, hr⟩ := List.mem_filterMap.mp (mem_definitions_of_bits? h)
  cases r with
  | define _ _ _ =>
      rw [Request.definition?, Option.ite_none_right_eq_some] at hr
      obtain ⟨hwithin, hr⟩ := hr
      cases hr
      exact hwithin
  | setDefault _ _ => cases hr

/-! ## Single requests -/

theorem exec_setDefault (name : String) (value : UInt32) (c : ContextFields) :
    (setDefault name value).exec c =
      match c.field? name with
      | none => (.error (.unknownField name), c)
      | some f =>
        if f.word < c.size then (.ok (), { c with defaults := f.put c.defaults value })
        else (.error (.broken .fieldInBuffer), c) := by
  unfold setDefault
  rw [Action.exec_get_bind]
  cases c.field? name with
  | none => rfl
  | some f =>
      by_cases hin : f.word < c.size
      · have hlength : f.word < c.defaults.length := hin
        simp only [BitField.write?_eq, if_pos hin, if_pos hlength]
        rfl
      · have hlength : ¬f.word < c.defaults.length := hin
        simp only [BitField.write?_eq, if_neg hin, if_neg hlength]
        rfl

/-- A request that is refused changes nothing. -/
theorem exec_action_error {r : Request} {c d : ContextFields} {e : Config.Error}
    (h : r.action.exec c = (.error e, d)) : d = c := by
  cases r with
  | define name first last => exact exec_define_error h
  | setDefault name value =>
      rw [Request.action, exec_setDefault] at h
      split at h
      next =>
        cases h
        rfl
      next =>
        split at h
        next => cases h
        next =>
          cases h
          rfl

/-- A definition appends zero words and leaves the others as they are. -/
theorem defaults_define (name : String) (first last : UInt64) (c : ContextFields) :
    ∃ n, ((define name first last).exec c).2.defaults = c.defaults ++ List.replicate n 0 := by
  rcases h : (define name first last).exec c with ⟨e | u, d⟩
  · refine ⟨0, ?_⟩
    rw [exec_define_error h, List.replicate_zero, List.append_nil]
  · obtain ⟨-, rfl⟩ := exec_define_ok.mp h
    exact ⟨_, rfl⟩

theorem perform_define_of_within {first last : UInt64} (h : Within first.toNat last.toNat)
    (c : ContextFields) (name : String) :
    perform c (.define name first last) = c.push name (.ofBits first.toNat last.toNat) :=
  congrArg Prod.snd (exec_define_ok (u := ()).mpr ⟨h, rfl⟩)

theorem perform_define_of_not_within {first last : UInt64} (h : ¬Within first.toNat last.toNat)
    (c : ContextFields) (name : String) : perform c (.define name first last) = c := by
  rcases hexec : (define name first last).exec c with ⟨e | u, d⟩
  · have hd := exec_define_error hexec
    unfold perform Request.action
    rw [hexec, hd]
  · exact absurd (exec_define_ok.mp hexec).1 h

theorem size_setDefault (name : String) (value : UInt32) (c : ContextFields) :
    ((setDefault name value).exec c).2.size = c.size := by
  rw [exec_setDefault]
  split
  next => rfl
  next =>
    split
    next => exact BitField.length_put ..
    next => rfl

/-! ## Histories -/

/-- A name is known by the bits of its last definition. -/
theorem field?_after (history : List Request) (name : String) :
    (after history).field? name =
      (bits? history name).map fun b => .ofBits b.1.toNat b.2.toNat := by
  induction history using List.reverseRecOn generalizing name with
  | nil => rfl
  | append_singleton history r ih =>
      rw [after_snoc]
      cases r with
      | define name' first last =>
          by_cases h : Within first.toNat last.toNat
          · rw [perform_define_of_within h, field?_push, bits?_snoc_define h, ih]
            split
            next => rfl
            next => rfl
          · rw [perform_define_of_not_within h,
              bits?_snoc_of_none (definition?_define_of_not h _), ih]
      | setDefault name' value =>
          rw [bits?_snoc_of_none rfl, ← ih]
          unfold field?
          rw [perform, Request.action, fields_setDefault]

/-- The buffer has just the words up to the last one in which a field was defined. -/
theorem size_after_le_iff (history : List Request) (n : Nat) :
    (after history).size ≤ n ↔ ∀ w ∈ words history, w < n := by
  unfold words
  induction history using List.reverseRecOn with
  | nil => simp [after, empty, size, definitions]
  | append_singleton history r ih =>
      rw [after_snoc]
      cases r with
      | define name first last =>
          by_cases h : Within first.toNat last.toNat
          · rw [perform_define_of_within h, size_push, definitions_snoc, definition?_define h,
              Nat.max_le, ih, Nat.succ_le_iff, Option.toList_some, List.map_append,
              List.map_singleton, List.forall_mem_append, List.forall_mem_singleton]
            rfl
          · rw [perform_define_of_not_within h,
              definitions_snoc_of_none (definition?_define_of_not h _), ih]
      | setDefault name value =>
          rw [definitions_snoc_of_none rfl, ← ih, perform, Request.action, size_setDefault]

theorem size_after (history : List Request) : (after history).size = reach history := by
  unfold reach
  cases h : (words history).max? with
  | none =>
      have hnone := List.max?_eq_none_iff.mp h
      exact Nat.le_zero.mp ((size_after_le_iff history 0).mpr (by simp [hnone]))
  | some w =>
      obtain ⟨hmem, hle⟩ := List.max?_eq_some_iff.mp h
      apply Nat.le_antisymm
      · exact (size_after_le_iff history _).mpr fun w' hw' => Nat.lt_succ_of_le (hle w' hw')
      · exact (size_after_le_iff history _).mp (Nat.le_refl _) w hmem

/-- The buffer reaches every field. -/
theorem word_lt_size {history : List Request} {name : String} {first last : UInt64}
    (h : bits? history name = some (first, last)) :
    first.toNat / bitsPerWord < (after history).size :=
  (size_after_le_iff history _).mp (Nat.le_refl _) _ <|
    List.mem_map_of_mem (mem_definitions_of_bits? h)

theorem size_perform_le (c : ContextFields) (r : Request) : c.size ≤ (perform c r).size := by
  cases r with
  | define name first last =>
      obtain ⟨n, hn⟩ := defaults_define name first last c
      unfold size perform Request.action
      rw [hn, List.length_append]
      exact Nat.le_add_right ..
  | setDefault name value => exact Nat.le_of_eq (size_setDefault name value c).symm

theorem size_after_mono (earlier later : List Request) :
    (after earlier).size ≤ (after (earlier ++ later)).size := by
  induction later using List.reverseRecOn with
  | nil => exact Nat.le_of_eq (by rw [List.append_nil])
  | append_singleton later r ih =>
      rw [← List.append_assoc, after_snoc]
      exact Nat.le_trans ih (size_perform_le _ r)

/-- A default of a name that is known is always taken. -/
theorem exec_setDefault_of_bits? {history : List Request} {name : String} {first last : UInt64}
    (h : bits? history name = some (first, last)) (value : UInt32) :
    (setDefault name value).exec (after history) =
      (.ok (), { after history with
        defaults :=
          (BitField.ofBits first.toNat last.toNat).put (after history).defaults value }) := by
  have hfield := field?_after history name
  rw [h, Option.map_some] at hfield
  rw [exec_setDefault, hfield]
  exact if_pos (word_lt_size h)

theorem exec_setDefault_of_unknown {history : List Request} {name : String}
    (h : bits? history name = none) (value : UInt32) :
    (setDefault name value).exec (after history) =
      (.error (.unknownField name), after history) := by
  have hfield := field?_after history name
  rw [h, Option.map_none] at hfield
  rw [exec_setDefault, hfield]

/-! ## Bits over a history -/

/-- While `later` follows on `earlier`, no default is set for a field with one of the bits
`first … last`. -/
def Untouched (earlier later : List Request) (first last : Nat) : Prop :=
  ∀ past name value future, later = past ++ .setDefault name value :: future →
    ∀ first' last', bits? (earlier ++ past) name = some (first', last') →
      last < first'.toNat ∨ last'.toNat < first

theorem Untouched.of_append {earlier later more : List Request} {first last : Nat}
    (h : Untouched earlier (later ++ more) first last) : Untouched earlier later first last := by
  intro past name value future hsplit
  apply h past name value (future ++ more)
  rw [hsplit, List.append_assoc, List.cons_append]

/-- A request changes a bit of the defaults only by setting a default of a field with this bit. -/
theorem bitAt_perform {history : List Request} {r : Request} {i : Nat}
    (h : ∀ name value first last, r = .setDefault name value →
      bits? history name = some (first, last) → ¬(first.toNat ≤ i ∧ i ≤ last.toNat)) :
    bitAt (perform (after history) r).defaults i = bitAt (after history).defaults i := by
  cases r with
  | define name first last =>
      obtain ⟨n, hn⟩ := defaults_define name first last (after history)
      unfold perform Request.action
      rw [hn, BitField.bitAt_append_zeros]
  | setDefault name value =>
      unfold perform Request.action
      cases hbits : bits? history name with
      | none => rw [exec_setDefault_of_unknown hbits]
      | some b =>
          have hout := h name value b.1 b.2 rfl hbits
          rw [exec_setDefault_of_bits? hbits, (within_of_bits? hbits).bitAt_put,
            if_neg fun hin => hout hin.1]

/-- Bits that no default is set over stay as they are. -/
theorem bitAt_after_append {earlier later : List Request} {first last i : Nat}
    (h : Untouched earlier later first last) (hfirst : first ≤ i) (hlast : i ≤ last) :
    bitAt (after (earlier ++ later)).defaults i = bitAt (after earlier).defaults i := by
  induction later using List.reverseRecOn with
  | nil => rw [List.append_nil]
  | append_singleton later r ih =>
      rw [← ih h.of_append, ← List.append_assoc, after_snoc]
      apply bitAt_perform
      intro name value first' last' hr hbits
      subst hr
      have hapart := h later name value [] rfl first' last' hbits
      omega

/-- Definitions of other names leave a name with its bits. -/
theorem bits?_append {later : List Request} {name : String}
    (h : ∀ d ∈ definitions later, d.1 ≠ name) (earlier : List Request) :
    bits? (earlier ++ later) name = bits? earlier name := by
  unfold bits?
  have hnone : (definitions later).reverse.lookup name = none := by
    rw [List.lookup_eq_none_iff]
    intro d hd
    exact bne_iff_ne.mpr (h d (List.mem_reverse.mp hd)).symm
  unfold definitions at hnone ⊢
  rw [List.filterMap_append, List.reverse_append, List.lookup_append, hnone, Option.none_or]

/-! ## Reads -/

theorem read?_after {history : List Request} {name : String} {first last : UInt64}
    (h : bits? history name = some (first, last)) :
    (after history).read? name (after history).defaults =
      some ((BitField.ofBits first.toNat last.toNat).get (after history).defaults) := by
  have hfield := field?_after history name
  rw [h, Option.map_some] at hfield
  unfold ContextFields.read?
  rw [hfield, Option.bind_some, BitField.read?_eq]
  exact if_pos (word_lt_size h)

/-- A field that no default was ever set over reads as zero. -/
theorem read?_after_of_untouched {history : List Request} {name : String} {first last : UInt64}
    (h : bits? history name = some (first, last))
    (huntouched : Untouched [] history first.toNat last.toNat) :
    (after history).read? name (after history).defaults = some 0 := by
  have hwithin := within_of_bits? h
  have hget : (BitField.ofBits first.toNat last.toNat).get (after history).defaults =
      (BitField.ofBits first.toNat last.toNat).get [] :=
    hwithin.get_congr fun i hfirst hlast => bitAt_after_append huntouched hfirst hlast
  rw [read?_after h, hget]
  rfl

/-- A field reads as the last default set for it, as long as no other one is set over its bits. -/
theorem read?_after_setDefault {earlier later : List Request} {name : String} {value : UInt32}
    {first last : UInt64} (h : bits? earlier name = some (first, last))
    (hkept : ∀ d ∈ definitions later, d.1 ≠ name)
    (huntouched : Untouched (earlier ++ [.setDefault name value]) later first.toNat last.toNat) :
    ∃ stored, (after (earlier ++ .setDefault name value :: later)).read? name
        (after (earlier ++ .setDefault name value :: later)).defaults = some stored ∧
      stored.toNat = value.toNat % 2 ^ (last.toNat + 1 - first.toNat) := by
  have hwithin := within_of_bits? h
  have hset : bits? (earlier ++ [.setDefault name value]) name = some (first, last) := by
    rw [bits?_snoc_of_none rfl, h]
  have hsplit : earlier ++ Request.setDefault name value :: later =
      earlier ++ [.setDefault name value] ++ later := by
    rw [List.append_assoc, List.singleton_append]
  have hwritten : (after (earlier ++ [.setDefault name value])).defaults =
      (BitField.ofBits first.toNat last.toNat).put (after earlier).defaults value := by
    rw [after_snoc, perform, Request.action, exec_setDefault_of_bits? h]
  rw [hsplit, read?_after ((bits?_append hkept _).trans hset)]
  refine ⟨_, rfl, ?_⟩
  rw [hwithin.get_congr fun i hfirst hlast => bitAt_after_append huntouched hfirst hlast, hwritten]
  exact hwithin.toNat_get_put (word_lt_size h) value

/-! ## Defaults as a store -/

/-- What context fields tell after a history of requests, granted and refused. -/
structure KeepsDefaults (history : List Request) : Prop where
  /-- The definitions that are granted are those of bits of one word. -/
  define_ok_iff : ∀ name first last,
    (∃ c, (define name first last).exec (after history) = (.ok (), c)) ↔
      Within first.toNat last.toNat
  field? : ∀ name, (after history).field? name =
    (bits? history name).map fun b => .ofBits b.1.toNat b.2.toNat
  size : (after history).size = reach history
  grows : ∀ later, (after history).size ≤ (after (history ++ later)).size
  /-- The buffer reaches every field, so that a default of it is read and set. -/
  inside : ∀ name f, (after history).field? name = some f →
    f.word < (after history).size ∧
      (∃ value, (after history).read? name (after history).defaults = some value) ∧
      ∀ value, ∃ c, (setDefault name value).exec (after history) = (.ok (), c)
  /-- A default is refused for no other cause than that the name is not known. -/
  setDefault_error : ∀ name value e c,
    (setDefault name value).exec (after history) = (.error e, c) → e = .unknownField name
  appends : ∀ name first last, ∃ n,
    ((define name first last).exec (after history)).2.defaults =
      (after history).defaults ++ List.replicate n 0
  refused : ∀ (r : Request) e c, r.action.exec (after history) = (.error e, c) → c = after history
  /-- No default was ever set over the bits of the name. -/
  unset : ∀ name first last, bits? history name = some (first, last) →
    Untouched [] history first.toNat last.toNat →
      (after history).read? name (after history).defaults = some 0
  /-- A default was set for the name, and since then the name was not defined again and no default
  was set over its bits. -/
  lastSet : ∀ earlier name value later first last,
    history = earlier ++ .setDefault name value :: later →
    bits? earlier name = some (first, last) →
    (∀ d ∈ definitions later, d.1 ≠ name) →
    Untouched (earlier ++ [.setDefault name value]) later first.toNat last.toNat →
      ∃ stored, (after history).read? name (after history).defaults = some stored ∧
        stored.toNat = value.toNat % 2 ^ (last.toNat + 1 - first.toNat)

/-- After every history of definitions and defaults, in any order, the defaults are a buffer that
reaches every field, grows by zero words alone, and keeps the last default of a field until its name
is defined again or a default is set for a field with a bit in common. -/
theorem defaults_keep_last_set (history : List Request) : KeepsDefaults history where
  define_ok_iff := by
    intro name first last
    constructor
    · intro ⟨c, hexec⟩
      exact (exec_define_ok.mp hexec).1
    · intro hwithin
      exact ⟨_, exec_define_ok.mpr ⟨hwithin, rfl⟩⟩
  field? := field?_after history
  size := size_after history
  grows := size_after_mono history
  inside := by
    intro name f hf
    rw [field?_after, Option.map_eq_some_iff] at hf
    obtain ⟨b, hbits, rfl⟩ := hf
    exact ⟨word_lt_size hbits, ⟨_, read?_after hbits⟩,
      fun value => ⟨_, exec_setDefault_of_bits? hbits value⟩⟩
  setDefault_error := by
    intro name value e c hexec
    cases hbits : bits? history name with
    | none =>
        rw [exec_setDefault_of_unknown hbits] at hexec
        cases hexec
        rfl
    | some b =>
        rw [exec_setDefault_of_bits? hbits] at hexec
        cases hexec
  appends := fun name first last => defaults_define name first last (after history)
  refused := fun _ _ _ => exec_action_error
  unset := fun _ _ _ => read?_after_of_untouched
  lastSet := by
    intro earlier name value later first last hsplit hbits hkept huntouched
    subst hsplit
    exact read?_after_setDefault hbits hkept huntouched

end Pcode.ContextFields
