import Pcode.Proofs.Wire.Accepting

/-!
# Which bytes are records

The reader of records accepts the grammar of records: nothing that is not a word of it is read as a
record, and no word of it is refused.
-/
namespace Pcode.Wire

theorem IsOperand.head_ne_stop {r : Registry} {w : List UInt8} {v : Varnode}
    (h : IsOperand r w v) : ∃ byte rest, w = byte :: rest ∧ byte ≠ 0x60 := by
  cases h with
  | location => exact ⟨_, _, rfl, by decide⟩
  | space => exact ⟨_, _, rfl, by decide⟩

theorem IsOperation.head_ne_stop {r : Registry} {w : List UInt8} {o : Op}
    (h : IsOperation r w o) : ∃ byte rest, w = byte :: rest ∧ byte ≠ 0x60 := by
  cases h with
  | parts => exact ⟨_, _, rfl, by decide⟩

theorem IsList.ne_nil {α : Type} {L : Language α} {w : List UInt8} {as : List α}
    (h : IsList L w as) : w ≠ [] := by
  induction h with
  | stop => exact List.cons_ne_nil _ _
  | cons _ _ ih => exact List.append_ne_nil_of_right_ne_nil _ ih

namespace Reader

/-! ## Offsets -/

/-- The groups of an offset behind `j` others that are worth `value`, and the byte that closes
them. -/
def Closing (j : Nat) (value : UInt64) : Language UInt64 := fun w v =>
  ∃ bs, w = bs ++ [0x60] ∧ bs.length + j ≤ 11 ∧ (∀ b ∈ bs, 0x20 ≤ b ∧ b < 0x60) ∧
    value.toNat + worth bs * 2 ^ (6 * j) = v.toNat

theorem not_closing_nil {j : Nat} {value v : UInt64} : ¬Closing j value [] v := by
  intro h
  obtain ⟨bs, hw, -⟩ := h
  cases bs <;> cases hw

/-- The byte that closes the groups closes them at once. -/
theorem closing_stop {j : Nat} (hj : j ≤ 11) {value v : UInt64} {w : List UInt8} :
    Closing j value (0x60 :: w) v ↔ w = [] ∧ v = value := by
  constructor
  · intro h
    obtain ⟨bs, hw, -, hrange, hworth⟩ := h
    cases bs with
    | nil =>
        cases hw
        refine ⟨rfl, UInt64.toNat_inj.mp ?_⟩
        rw [← hworth, worth, Nat.zero_mul, Nat.add_zero]
    | cons b bs =>
        cases hw
        exact absurd (hrange 0x60 List.mem_cons_self).2 (by decide)
  · intro h
    obtain ⟨rfl, rfl⟩ := h
    refine ⟨[], rfl, ?_, fun b hb => absurd hb (by simp), ?_⟩
    · simpa using hj
    · rw [worth, Nat.zero_mul, Nat.add_zero]

/-- Any other byte is a group, and the groups behind it are worth 64 times as much. -/
theorem closing_group {j : Nat} {value v : UInt64} {b : UInt8} {w : List UInt8} (hb : b ≠ 0x60) :
    Closing j value (b :: w) v ↔ (0x20 ≤ b ∧ b < 0x60) ∧ ∃ bs, w = bs ++ [0x60] ∧
      bs.length + (j + 1) ≤ 11 ∧ (∀ b ∈ bs, 0x20 ≤ b ∧ b < 0x60) ∧
      value.toNat + (b.toNat - 0x20) * 2 ^ (6 * j) + worth bs * 2 ^ (6 * (j + 1)) = v.toNat := by
  have hsplit : ∀ bs, worth (b :: bs) * 2 ^ (6 * j) =
      (b.toNat - 0x20) * 2 ^ (6 * j) + worth bs * 2 ^ (6 * (j + 1)) := by
    intro bs
    rw [worth, Nat.add_mul, Nat.mul_add, Nat.pow_add, Nat.mul_comm 64, Nat.mul_assoc,
      Nat.mul_comm 64]
  constructor
  · intro h
    obtain ⟨bs, hw, hlength, hrange, hworth⟩ := h
    cases bs with
    | nil =>
        cases hw
        exact absurd rfl hb
    | cons b' bs =>
        cases hw
        refine ⟨hrange b List.mem_cons_self, bs, rfl, ?_, ?_, ?_⟩
        · rw [List.length_cons] at hlength
          omega
        · exact fun b' hb' => hrange b' (List.mem_cons_of_mem _ hb')
        · rw [← hworth, hsplit, Nat.add_assoc]
  · intro h
    obtain ⟨hbyte, bs, rfl, hlength, hrange, hworth⟩ := h
    refine ⟨b :: bs, rfl, ?_, ?_, ?_⟩
    · rw [List.length_cons]
      omega
    · intro b' hb'
      rcases List.mem_cons.mp hb' with rfl | hb'
      · exact hbyte
      · exact hrange b' hb'
    · rw [hsplit, ← Nat.add_assoc]
      exact hworth

/-- The bits of a group are those of its byte above the bias. -/
theorem toNat_group_of_ge {b : UInt8} (hb : 0x20 ≤ b) :
    (b - bias).toUInt64.toNat = b.toNat - 0x20 := by
  rw [UInt8.toNat_toUInt64]
  exact UInt8.toNat_sub_of_le _ _ hb

/-- The last group that begins inside the word may not reach beyond it. -/
theorem group_fits_iff {j n : Nat} {group : UInt64} (hgroup : group.toNat = n) (hn : n < 64)
    (hj : 6 * j < 64) :
    ¬(64 < 6 * j + groupBits ∧ group >>> UInt64.ofNat (64 - 6 * j) ≠ 0) ↔
      n * 2 ^ (6 * j) < 2 ^ 64 := by
  by_cases hlast : j = 10
  · subst hlast
    have hbits : group >>> UInt64.ofNat (64 - 6 * 10) = 0 ↔ n / 2 ^ 4 = 0 := by
      rw [← UInt64.toNat_inj, UInt64.toNat_shiftRight, hgroup, Nat.shiftRight_eq_div_pow]
      rfl
    rw [ne_eq, hbits, and_iff_right (by decide)]
    omega
  · have hinside : ¬64 < 6 * j + groupBits := by
      change ¬64 < 6 * j + 6
      omega
    have hpow : 2 ^ (6 * j) ≤ 2 ^ 54 := Nat.pow_le_pow_right (by decide) (by omega)
    have hmul := Nat.mul_le_mul (Nat.le_of_lt_succ hn) hpow
    refine iff_of_true (fun h => hinside h.1) ?_
    omega

namespace Accepts

theorem groups (start : Nat) {k j : Nat} (value : UInt64) (hk : k + j = 12)
    (hvalue : value.toNat < 2 ^ (6 * j)) :
    Accepts (groups start k (6 * j) value) (Closing j value) := by
  induction k generalizing j value with
  | zero =>
      refine (throw _).congr fun w v => ?_
      refine iff_of_false (fun h => h) ?_
      intro h
      obtain ⟨bs, -, hlength, -⟩ := h
      omega
  | succ k ih =>
      refine position_bind fun here => next_bind (fun v => not_closing_nil) fun byte => ?_
      by_cases hstop : byte = 0x60
      · rw [if_pos (show byte = Mark.stop.byte from hstop), hstop]
        exact (pure value).congr fun w v => (closing_stop (by omega)).symm
      rw [if_neg (show byte ≠ Mark.stop.byte from hstop)]
      by_cases hrange : byte < bias ∨ Mark.stop.byte < byte
      · simp only [if_pos hrange]
        refine throw_bind fun w v h => ?_
        obtain ⟨hge, hlt⟩ := ((closing_group hstop).mp h).1
        rcases hrange with hrange | hrange
        · exact not_lt_bias_iff.mpr hge hrange
        · exact UInt8.lt_irrefl _ (UInt8.lt_trans hlt hrange)
      simp only [if_neg hrange]
      obtain ⟨hlow, hhigh⟩ := not_or.mp hrange
      have hge : 0x20 ≤ byte := not_lt_bias_iff.mp hlow
      have hlt : byte < 0x60 := UInt8.lt_of_le_of_ne (UInt8.not_lt.mp hhigh) hstop
      have hgroup := toNat_group_of_ge hge
      have hsmall : byte.toNat - 0x20 < 64 := by
        have h : byte.toNat < 96 := UInt8.lt_iff_toNat_lt.mp hlt
        omega
      by_cases hfull : 64 ≤ 6 * j
      · -- no twelfth group
        simp only [if_pos hfull]
        refine throw_bind fun w v h => ?_
        obtain ⟨-, bs, -, hlength, -⟩ := (closing_group hstop).mp h
        omega
      have hinside : 6 * j < 64 := by omega
      simp only [if_neg hfull]
      generalize (byte - bias).toUInt64 = group at hgroup ⊢
      have hcut := group_fits_iff hgroup hsmall hinside
      by_cases hfits : (byte.toNat - 0x20) * 2 ^ (6 * j) < 2 ^ 64
      · simp only [if_neg (hcut.mpr hfits)]
        have hsum : (value ||| group <<< UInt64.ofNat (6 * j)).toNat =
            value.toNat + (byte.toNat - 0x20) * 2 ^ (6 * j) := by
          rw [UInt64.toNat_or, Reads.toNat_shift hinside _ _ hgroup hfits, Reads.or_group hvalue]
        have hpow : 2 ^ (6 * (j + 1)) = 64 * 2 ^ (6 * j) := by
          rw [Nat.mul_add, Nat.pow_add, Nat.mul_comm]
        have hmul := Nat.mul_le_mul_right (2 ^ (6 * j)) (Nat.le_of_lt_succ hsmall)
        have hrest := ih (j := j + 1) (value ||| group <<< UInt64.ofNat (6 * j))
          (by omega) (by omega)
        refine hrest.congr fun w v => ?_
        rw [closing_group hstop, and_iff_right ⟨hge, hlt⟩]
        unfold Closing
        rw [hsum]
      · simp only [if_pos (Decidable.of_not_not fun h => hfits (hcut.mp h))]
        refine throw_bind fun w v h => ?_
        obtain ⟨-, bs, -, -, -, hworth⟩ := (closing_group hstop).mp h
        have hv := v.toNat_lt
        omega

theorem offset : Accepts offset IsOffset := by
  refine position_bind fun start => ?_
  refine (groups start (k := 12) (j := 0) 0 rfl (by decide)).congr fun w v => ?_
  constructor
  · intro h
    obtain ⟨bs, rfl, hlength, hrange, hworth⟩ := h
    refine .groups hlength hrange ?_
    simpa using hworth
  · intro h
    cases h with
    | groups hlength hrange hworth =>
        refine ⟨_, rfl, hlength, hrange, ?_⟩
        simpa using hworth

/-! ## Parts of a record -/

section Registry
variable {r : Registry} (hr : r.Numbered)
include hr

theorem varnode : Accepts (varnode r) (IsOperand r) := by
  refine position_bind fun start => next_bind (fun v h => by cases h) fun byte => ?_
  by_cases hlocation : byte = 0x25
  · rw [if_pos (show byte = Mark.varnode.byte from hlocation), hlocation]
    refine ((space hr).bind fun _ id _ => offset.bind fun _ value _ =>
      number.map (g := fun size => Varnode.mk id value size.toUInt64)).congr fun w v => ?_
    constructor
    · intro h
      obtain ⟨u, id, _, rfl, hid, v, value, w, rfl, hvalue, size, hsize, rfl⟩ := h
      exact .location hid hvalue hsize
    · intro h
      cases h with
      | location hid hvalue hsize =>
          exact ⟨_, _, _, rfl, hid, _, _, _, rfl, hvalue, _, hsize, rfl⟩
  rw [if_neg (show byte ≠ Mark.varnode.byte from hlocation)]
  by_cases hspace : byte = 0x24
  · rw [if_pos (show byte = Mark.space.byte from hspace), hspace]
    refine ((space hr).map (g := fun id => Varnode.ofAddress (.denoting id) spaceConstantSize)).congr
      fun w v => ?_
    constructor
    · intro h
      obtain ⟨id, hid, rfl⟩ := h
      exact .space hid
    · intro h
      cases h with
      | space hid => exact ⟨_, hid, rfl⟩
  · rw [if_neg (show byte ≠ Mark.space.byte from hspace)]
    refine (throw _).congr fun w v => iff_of_false (fun h => h) ?_
    intro h
    cases h with
    | location => exact hlocation rfl
    | space => exact hspace rfl

theorem output : Accepts (output r) (IsOutput r) := by
  have hnothing := next.map (g := fun _ => (none : Option Varnode))
  have hoperand := (varnode hr).map (g := some)
  refine (hnothing.peek_if hoperand 0x23 ?_ ?_).congr fun w v => ?_
  · simp
  · intro v h
    obtain ⟨v', h, -⟩ := h
    cases h
  split
  next hhead =>
    constructor
    · intro h
      obtain ⟨byte, rfl, rfl⟩ := h
      cases hhead
      exact .nothing
    · intro h
      cases h with
      | nothing => exact ⟨_, rfl, rfl⟩
      | operand hv => cases hv <;> cases hhead
  next hhead =>
    constructor
    · intro h
      obtain ⟨v', hv, rfl⟩ := h
      exact .operand hv
    · intro h
      cases h with
      | nothing => exact absurd rfl hhead
      | operand hv => exact ⟨_, hv, rfl⟩

end Registry

/-- Items are read one after the other up to the mark of their end, which none of them begins
with. -/
theorem items {α : Type} {item : Reader α} {L : Language α} (hitem : Accepts item L)
    (hhead : ∀ w a, L w a → ∃ byte rest, w = byte :: rest ∧ byte ≠ 0x60) :
    Accepts (items item) (IsList L) := by
  have hshrink : ∀ {c c' a}, item.exec c = (.ok a, c') → c'.rest.length < c.rest.length := by
    refine hitem.shrinks fun w a hw => ?_
    obtain ⟨byte, rest, rfl, -⟩ := hhead w a hw
    exact List.cons_ne_nil _ _
  intro start bytes as c
  -- an item takes at least one byte, so the items behind it have fewer left
  induction hlength : bytes.length using Nat.strongRecOn generalizing start bytes as c with
  | ind n ih =>
      rcases bytes with _ | ⟨byte, bytes⟩
      · constructor
        · intro h
          cases h
        · intro h
          obtain ⟨w, rest, hbytes, hw, -⟩ := h
          obtain ⟨rfl, -⟩ := List.append_eq_nil_iff.mp hbytes.symm
          exact absurd rfl hw.ne_nil
      by_cases hstop : byte = 0x60
      · subst hstop
        constructor
        · intro h
          cases h
          exact ⟨[0x60], bytes, rfl, .stop, rfl⟩
        · intro h
          obtain ⟨w, rest, hbytes, hw, rfl⟩ := h
          cases hw with
          | stop =>
              cases hbytes
              rfl
          | cons hfirst =>
              obtain ⟨byte, u, rfl, hne⟩ := hhead _ _ hfirst
              cases hbytes
              exact absurd rfl hne
      rw [exec_items_of_ne hshrink hstop, Action.exec_bind_ok]
      constructor
      · intro h
        obtain ⟨a, t, hfirst, h⟩ := h
        have hlt := hshrink hfirst
        obtain ⟨u, rest, hbytes, hu, rfl⟩ := (hitem _ _ _ _).mp hfirst
        obtain ⟨others, t, hothers, h⟩ := Action.exec_bind_ok.mp h
        obtain ⟨w, rest, rfl, hw, rfl⟩ := (ih _ (hlength ▸ hlt) _ _ _ _ rfl).mp hothers
        cases h
        refine ⟨u ++ w, rest, ?_, .cons hu hw, ?_⟩
        · rw [hbytes, List.append_assoc]
        · rw [List.length_append, Nat.add_assoc]
      · intro h
        obtain ⟨w, rest, hbytes, hw, rfl⟩ := h
        cases hw with
        | stop =>
            cases hbytes
            exact absurd rfl hstop
        | @cons u w a as hu hw =>
            rw [List.append_assoc] at hbytes
            have hfirst := (hitem start _ _ _).mpr ⟨u, w ++ rest, hbytes, hu, rfl⟩
            have hlt := hshrink hfirst
            refine ⟨a, _, hfirst, Action.exec_bind_ok.mpr ⟨as, _,
              (ih _ (hlength ▸ hlt) _ _ _ _ rfl).mpr ⟨w, rest, rfl, hw, rfl⟩, ?_⟩⟩
            rw [Action.exec_pure, List.length_append, Nat.add_assoc]

section Registry
variable {r : Registry} (hr : r.Numbered)
include hr

theorem operation : Accepts (operation r) (IsOperation r) := by
  have hinputs := items (varnode hr) fun w v h => h.head_ne_stop
  refine ((mark .operation .operation).bind fun _ _ _ => opcode.bind fun _ code _ =>
    (output hr).bind fun _ output _ => hinputs.map (g := Op.mk code output)).congr fun w o => ?_
  constructor
  · intro h
    obtain ⟨_, _, _, rfl, rfl, u, code, _, rfl, hcode, v, output, w, rfl, houtput, inputs, hinputs,
      rfl⟩ := h
    have h := IsOperation.parts hcode houtput hinputs
    exact h
  · intro h
    cases h with
    | parts hcode houtput hinputs =>
        exact ⟨_, ⟨⟩, _, rfl, rfl, _, _, _, rfl, hcode, _, _, _, rfl, houtput, _, hinputs, rfl⟩

theorem record : Accepts (record r) (IsRecord r) := by
  have hoperations := items (operation hr) fun w o h => h.head_ne_stop
  refine position_bind fun start => next_bind (fun v h => by cases h) fun byte => ?_
  by_cases hunimplemented : byte = 0x20
  · rw [if_pos (show byte = Mark.unimplemented.byte from hunimplemented), hunimplemented]
    refine (offset.map (g := Record.unimplemented)).congr fun w x => ?_
    constructor
    · intro h
      obtain ⟨length, hlength, rfl⟩ := h
      exact .unimplemented hlength
    · intro h
      cases h with
      | unimplemented hlength => exact ⟨_, hlength, rfl⟩
  rw [if_neg (show byte ≠ Mark.unimplemented.byte from hunimplemented)]
  by_cases hinstruction : byte = 0x21
  · rw [if_pos (show byte = Mark.instruction.byte from hinstruction), hinstruction]
    refine (offset.bind fun _ length _ => (space hr).bind fun _ id _ => offset.bind fun _ at' _ =>
      hoperations.map (g := fun os => Record.decoded ⟨⟨id, at'⟩, os, length⟩)).congr fun w x => ?_
    constructor
    · intro h
      obtain ⟨t, length, _, rfl, hlength, u, id, _, rfl, hid, v, at', w, rfl, hat, os, hos, rfl⟩ := h
      exact .decoded hlength hid hat hos
    · intro h
      cases h with
      | decoded hlength hid hat hos =>
          exact ⟨_, _, _, rfl, hlength, _, _, _, rfl, hid, _, _, _, rfl, hat, _, hos, rfl⟩
  · rw [if_neg (show byte ≠ Mark.instruction.byte from hinstruction)]
    refine (throw _).congr fun w v => iff_of_false (fun h => h) ?_
    intro h
    cases h with
    | unimplemented => exact hunimplemented rfl
    | decoded => exact hinstruction rfl

end Registry

end Accepts

end Reader

end Pcode.Wire
