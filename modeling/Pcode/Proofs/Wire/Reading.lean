import Mathlib.Algebra.GroupWithZero.Nat
import Pcode.Proofs.Registry.Numbering
import Pcode.Proofs.Wire.Writing
import Pcode.Wire.Reader

/-!
# What is read

A reader that is given the bytes of a part reads that part, consumes exactly these bytes and leaves
whatever follows them.
-/
namespace Pcode.Wire

theorem toNat_byteOf {value : UInt64} (h : Narrow value) :
    (byteOf value).toNat = value.toNat + bias.toNat := by
  have hlt : value.toNat + bias.toNat < 2 ^ 8 := h
  have hvalue : value.toNat < 2 ^ 8 := by omega
  unfold byteOf
  rw [UInt8.toNat_add, UInt64.toNat_toUInt8, Nat.mod_eq_of_lt hvalue, Nat.mod_eq_of_lt hlt]

namespace Reader

/-- Given these bytes, and whatever after them, the reader answers and has read these bytes. -/
def Reads {α : Type} (x : Reader α) (bytes : List UInt8) (a : α) : Prop :=
  ∀ position more, x.exec ⟨position, bytes ++ more⟩ = (.ok a, ⟨position + bytes.length, more⟩)

namespace Reads
variable {α β : Type} {x : Reader α} {f : α → Reader β} {bytes bytes' : List UInt8} {a : α} {b : β}

theorem pure (a : α) : Reads (pure a) [] a := fun _ _ => rfl

theorem bind (hx : Reads x bytes a) (hf : Reads (f a) bytes' b) :
    Reads (x >>= f) (bytes ++ bytes') b := by
  intro position more
  rw [List.append_assoc, Action.exec_bind_of_ok (hx position _), hf, List.length_append,
    Nat.add_assoc]

/-- A sequence that ends without reading on. -/
theorem bind_last (hx : Reads x bytes a) (hf : Reads (f a) [] b) : Reads (x >>= f) bytes b := by
  have h := hx.bind hf
  rw [List.append_nil] at h
  exact h

theorem map {g : α → β} (hx : Reads x bytes a) :
    Reads (x >>= fun a => Pure.pure (g a)) bytes (g a) :=
  hx.bind_last (pure (g a))

theorem position_bind {f : Nat → Reader β} (h : ∀ start, Reads (f start) bytes b) :
    Reads (position >>= f) bytes b :=
  fun start more => h start start more

theorem get_bind {f : Cursor → Reader β}
    (h : ∀ start more, Reads (f ⟨start, bytes ++ more⟩) bytes b) :
    Reads (get >>= f) bytes b :=
  fun start more => h start more start more

theorem next (byte : UInt8) : Reads next [byte] byte := fun _ _ => rfl

theorem peek_bind {f : UInt8 → Reader β} {byte : UInt8} (h : Reads (f byte) (byte :: bytes) b) :
    Reads (peek >>= f) (byte :: bytes) b := h

theorem mark (wanted : Mark) (part : Part) : Reads (mark wanted part) [wanted.byte] () := by
  refine position_bind fun start => (next _).bind_last ?_
  rw [if_neg (fun h => h rfl)]
  exact pure ()

theorem number {value : UInt64} (h : Narrow value) :
    Reads number [byteOf value] value.toUInt8 := by
  refine position_bind fun start => (next _).bind_last ?_
  have hge : ¬byteOf value < bias := by
    rw [UInt8.lt_iff_toNat_lt, toNat_byteOf h]
    omega
  simp only [if_neg hge]
  have hback : byteOf value - bias = value.toUInt8 := UInt8.add_sub_cancel ..
  rw [hback]
  exact pure _

theorem space {r : Registry} (hr : r.Numbered) {id : SpaceId} {s : Space}
    (hs : r.find? id = some s) (h : Narrow id.value.toUInt64) :
    Reads (space r) [byteOf id.value.toUInt64] id := by
  refine (number h).bind_last ?_
  have hindex : id.value.toUInt64.toUInt8.toNat = id.index := by
    have hlt : id.value.toUInt64.toNat + bias.toNat < 2 ^ 8 := h
    rw [UInt64.toNat_toUInt8, Nat.mod_eq_of_lt (by omega), UInt32.toNat_toUInt64]
    rfl
  have hfound : r.at? id.index = some s := hs
  rw [hindex, hfound]
  simp only
  rw [hr.id_of_find? hs]
  exact pure id

/-! ## Offsets -/

/-- The worth of a group above those that are read. -/
theorem or_group {value n : Nat} {shift : Nat} (hvalue : value < 2 ^ shift) :
    value ||| n <<< shift = value + n * 2 ^ shift := by
  rw [Nat.or_comm, ← Nat.shiftLeft_add_eq_or_of_lt hvalue, Nat.shiftLeft_eq, Nat.add_comm]

theorem toNat_group (n : Nat) : (bias + UInt8.ofNat (n % groupSize)).toNat = 32 + n % 64 := by
  have hlt : n % groupSize < 64 := Nat.mod_lt _ (by decide)
  rw [UInt8.toNat_add, UInt8.toNat_ofNat_of_lt' (Nat.lt_trans hlt (by decide))]
  exact Nat.mod_eq_of_lt (Nat.lt_trans (Nat.add_lt_add_left hlt 32) (by decide))

/-- The byte of a group is in the range of groups, which the mark of the end is not. -/
theorem group_byte (n : Nat) :
    bias + UInt8.ofNat (n % groupSize) ≠ Mark.stop.byte ∧
      ¬(bias + UInt8.ofNat (n % groupSize) < bias ∨
        Mark.stop.byte < bias + UInt8.ofNat (n % groupSize)) ∧
      (bias + UInt8.ofNat (n % groupSize) - bias).toUInt64.toNat = n % 64 := by
  have hbyte := toNat_group n
  have hlt : n % 64 < 64 := Nat.mod_lt _ (by decide)
  have hbias : bias.toNat = 32 := rfl
  have hstop : Mark.stop.byte.toNat = 96 := rfl
  refine ⟨?_, ?_, ?_⟩
  · intro h
    rw [h] at hbyte
    omega
  · rw [UInt8.lt_iff_toNat_lt, UInt8.lt_iff_toNat_lt]
    omega
  · rw [UInt8.toNat_toUInt64, UInt8.toNat_sub_of_le _ _ (UInt8.le_iff_toNat_le.mpr (by omega))]
    omega

theorem toNat_shift {j : Nat} (hj : 6 * j < 64) (group : UInt64) (n : Nat)
    (hgroup : group.toNat = n) (hfits : n * 2 ^ (6 * j) < 2 ^ 64) :
    (group <<< UInt64.ofNat (6 * j)).toNat = n <<< (6 * j) := by
  rw [UInt64.toNat_shiftLeft, UInt64.toNat_ofNat_of_lt' (Nat.lt_trans hj (by decide)), hgroup,
    Nat.mod_eq_of_lt hj, Nat.mod_eq_of_lt]
  rw [Nat.shiftLeft_eq]
  exact hfits

/-- The groups of `n` are read on top of `value`, which those before them are worth. -/
theorem groups (start : Nat) {k j : Nat} (n : Nat) (value : UInt64) (hk : k + j = 12)
    (hj : j ≤ 11) (hvalue : value.toNat < 2 ^ (6 * j)) (hfits : value.toNat + n * 2 ^ (6 * j) < 2 ^ 64) :
    Reads (groups start k (6 * j) value) (Writer.groups n ++ [Mark.stop.byte])
      (.ofNat (value.toNat + n * 2 ^ (6 * j))) := by
  induction k generalizing j n value with
  | zero => omega
  | succ k ih =>
      rw [Writer.groups]
      split
      next hn =>
        refine position_bind fun here => (next _).bind_last ?_
        rw [if_pos rfl, hn, Nat.zero_mul, Nat.add_zero, UInt64.ofNat_toNat]
        exact pure value
      next hn =>
        obtain ⟨hstop, hrange, hgroup⟩ := group_byte n
        refine position_bind fun here => (next _).bind ?_
        rw [if_neg hstop]
        simp only [if_neg hrange]
        generalize (bias + UInt8.ofNat (n % groupSize) - bias).toUInt64 = group at hgroup ⊢
        have hpos : 0 < 2 ^ (6 * j) := Nat.two_pow_pos _
        -- a group that is not zero begins inside the word
        have hj' : 6 * j < 64 := by
          by_contra hge
          have hpow : 2 ^ 64 ≤ 2 ^ (6 * j) := Nat.pow_le_pow_right (by decide) (by omega)
          have hle : 1 * 2 ^ (6 * j) ≤ n * 2 ^ (6 * j) := Nat.mul_le_mul_right _ (by omega)
          omega
        -- and the one that reaches its end has no bits beyond
        have hcut : ¬(64 < 6 * j + groupBits ∧ group >>> UInt64.ofNat (64 - 6 * j) ≠ 0) := by
          intro hover
          obtain ⟨hlast, hne⟩ := hover
          obtain rfl : j = 10 := by
            change 64 < 6 * j + 6 at hlast
            omega
          apply hne
          apply UInt64.toNat_inj.mp
          rw [UInt64.toNat_shiftRight, hgroup, Nat.shiftRight_eq_div_pow]
          change n % 64 / 2 ^ 4 = 0
          omega
        simp only [if_neg hcut, if_neg (Nat.not_le.mpr hj')]
        have hpow : 2 ^ (6 * (j + 1)) = 64 * 2 ^ (6 * j) := by
          rw [Nat.mul_add, Nat.pow_add, Nat.mul_comm]
        have hsplit : n * 2 ^ (6 * j) = n % 64 * 2 ^ (6 * j) + n / 64 * 2 ^ (6 * (j + 1)) := by
          have hmod := Nat.mod_add_div n 64
          rw [hpow, ← Nat.mul_assoc, ← Nat.add_mul, Nat.mul_comm (n / 64), hmod]
        have hsum : (value ||| group <<< UInt64.ofNat (6 * j)).toNat =
            value.toNat + n % 64 * 2 ^ (6 * j) := by
          rw [UInt64.toNat_or, toNat_shift hj' _ _ hgroup (by omega), or_group hvalue]
        have hbelow : n % 64 * 2 ^ (6 * j) ≤ 63 * 2 ^ (6 * j) :=
          Nat.mul_le_mul_right _ (by omega)
        have hrest := ih (j := j + 1) (n / 64) (value ||| group <<< UInt64.ofNat (6 * j))
          (by omega) (by omega) (by omega) (by omega)
        rw [hsum, Nat.add_assoc, ← hsplit] at hrest
        exact hrest

theorem offset (value : UInt64) : Reads offset (offsetBytes value) value := by
  refine position_bind fun start => ?_
  have h := groups start (k := 12) (j := 0) value.toNat 0 rfl (by omega) (by decide)
    (by simpa using value.toNat_lt)
  simpa [offsetBytes] using h

/-! ## Parts of a record -/

/-- Reads items up to the mark of their end, which no item begins with. -/
theorem untilStop {item : Reader α} {bytesOf : α → List UInt8} {values : List α} {n : Nat}
    (hitem : ∀ a ∈ values, Reads item (bytesOf a) a)
    (hhead : ∀ a ∈ values, ∃ byte rest, bytesOf a = byte :: rest ∧ byte ≠ Mark.stop.byte)
    (hn : values.length < n) :
    Reads (untilStop item n) (values.flatMap bytesOf ++ [Mark.stop.byte]) values := by
  induction values generalizing n with
  | nil =>
      cases n with
      | zero => cases hn
      | succ n =>
          refine peek_bind ?_
          rw [if_pos rfl]
          exact (next _).map
  | cons a values ih =>
      cases n with
      | zero => cases hn
      | succ n =>
          obtain ⟨byte, rest, hbytes, hne⟩ := hhead a List.mem_cons_self
          have hfirst := hitem a List.mem_cons_self
          have hothers := ih (fun b hb => hitem b (List.mem_cons_of_mem _ hb))
            (fun b hb => hhead b (List.mem_cons_of_mem _ hb)) (Nat.lt_of_succ_lt_succ hn)
          have h := hfirst.bind (f := fun first => do
            return first :: (← Reader.untilStop item n)) hothers.map
          rw [List.flatMap_cons, List.append_assoc]
          rw [hbytes] at h ⊢
          refine peek_bind ?_
          rw [if_neg hne]
          exact h

theorem items {item : Reader α} {bytesOf : α → List UInt8} {values : List α}
    (hitem : ∀ a ∈ values, Reads item (bytesOf a) a)
    (hhead : ∀ a ∈ values, ∃ byte rest, bytesOf a = byte :: rest ∧ byte ≠ Mark.stop.byte) :
    Reads (items item) (values.flatMap bytesOf ++ [Mark.stop.byte]) values := by
  have hlength : values.length ≤ (values.flatMap bytesOf).length := by
    clear hitem
    induction values with
    | nil => exact Nat.le_refl 0
    | cons a values ih =>
        obtain ⟨byte, rest, hbytes, -⟩ := hhead a List.mem_cons_self
        have := ih fun b hb => hhead b (List.mem_cons_of_mem _ hb)
        rw [List.flatMap_cons, List.length_append, hbytes, List.length_cons, List.length_cons]
        omega
  refine get_bind fun start more => untilStop hitem hhead ?_
  rw [List.length_append, List.length_append]
  omega

theorem opcode (o : Opcode) : Reads opcode [byteOf o.number.toUInt64] o := by
  have h := (number (narrow_number o)).bind_last (f := fun number =>
    (liftM ((Opcode.ofNumber number).mapError Error.opcode) : Reader Opcode)) (b := o) ?_
  · exact h
  · have hback : o.number.toUInt64.toUInt8 = o.number := UInt8.toUInt8_toUInt64 _
    rw [hback, Opcode.ofNumber_number]
    exact pure o

section Registry
variable {r : Registry} (hr : r.Numbered)
include hr

theorem varnode {v : Varnode} (hspace : ∃ s, r.find? v.space = some s) (hfits : FitsVarnode v) :
    Reads (varnode r) (varnodeBytes v) v := by
  obtain ⟨s, hs⟩ := hspace
  refine position_bind fun start => (next _).bind ?_
  rw [if_pos rfl]
  have hsize : v.size.toUInt8.toUInt64 = v.size := by
    have hlt : v.size.toNat + bias.toNat < 2 ^ 8 := hfits.2
    apply UInt64.toNat_inj.mp
    rw [UInt8.toNat_toUInt64, UInt64.toNat_toUInt8, Nat.mod_eq_of_lt (by omega)]
  have hlast := (number hfits.2).map (g := fun size => Varnode.mk v.space v.offset size.toUInt64)
  rw [hsize] at hlast
  exact (space hr hs hfits.1).bind <| (offset v.offset).bind hlast

theorem output {v : Option Varnode} (hspace : ∀ w ∈ v, ∃ s, r.find? w.space = some s)
    (hfits : ∀ w ∈ v, FitsVarnode w) : Reads (output r) (outputBytes v) v := by
  cases v with
  | none =>
      refine peek_bind ?_
      rw [if_pos rfl]
      exact (next _).map
  | some v =>
      refine peek_bind ?_
      rw [if_neg (by decide)]
      exact (varnode hr (hspace v rfl) (hfits v rfl)).map

theorem operation {o : Op} (hspaces : ∀ v ∈ o.operands, ∃ s, r.find? v.space = some s)
    (hfits : FitsOp o) : Reads (operation r) (operationBytes o) o := by
  have hout : ∀ v ∈ o.output, v ∈ o.operands := fun v hv =>
    List.mem_append_left _ (Option.mem_toList.mpr hv)
  have hin : ∀ v ∈ o.inputs, v ∈ o.operands := fun v hv => List.mem_append_right _ hv
  have houtput := output hr (fun v hv => hspaces v (hout v hv)) fun v hv => hfits v (hout v hv)
  have hinputs : Reads (Reader.items (Reader.varnode r))
      (o.inputs.flatMap varnodeBytes ++ [Mark.stop.byte]) o.inputs :=
    items (fun v hv => varnode hr (hspaces v (hin v hv)) (hfits v (hin v hv)))
      fun v _ => ⟨_, _, rfl, by decide⟩
  exact (mark .operation .operation).bind <| (opcode o.opcode).bind <|
    houtput.bind <| hinputs.map

end Registry

end Reads

end Reader

end Pcode.Wire
