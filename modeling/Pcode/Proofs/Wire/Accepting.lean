import Pcode.Proofs.Wire.Grammar
import Pcode.Proofs.Wire.Streams

/-!
# What readers accept

A reader accepts a language when it succeeds on exactly the inputs that begin with a word of the
language, answers with the meaning of this word and stops behind it.
-/
namespace Pcode.Wire.Reader

/-- The reader succeeds exactly where a word of the language stands, answers with its meaning and
has then read this word. -/
def Accepts {α : Type} (x : Reader α) (L : Language α) : Prop :=
  ∀ start bytes a c, x.exec ⟨start, bytes⟩ = (.ok a, c) ↔
    ∃ w rest, bytes = w ++ rest ∧ L w a ∧ c = ⟨start + w.length, rest⟩

namespace Accepts
variable {α β : Type} {x : Reader α} {f : α → Reader β} {L L' : Language α} {M : α → Language β}

theorem congr (h : Accepts x L) (hL : ∀ w a, L w a ↔ L' w a) : Accepts x L' := by
  intro start bytes a c
  simp only [← hL]
  exact h start bytes a c

/-- A word is read as its meaning, whatever follows it. -/
theorem reads (h : Accepts x L) {w : List UInt8} {a : α} (hw : L w a) : Reads x w a := by
  intro start more
  exact (h _ _ _ _).mpr ⟨w, more, rfl, hw, rfl⟩

theorem pure (a : α) : Accepts (pure a) fun w b => w = [] ∧ b = a := by
  intro start bytes b c
  rw [Action.exec_pure]
  constructor
  · intro h
    cases h
    exact ⟨[], bytes, rfl, ⟨rfl, rfl⟩, rfl⟩
  · intro h
    obtain ⟨_, rest, rfl, ⟨rfl, rfl⟩, rfl⟩ := h
    rfl

theorem throw (e : Error) : Accepts (throw e : Reader α) fun _ _ => False := by
  intro start bytes a c
  constructor
  · intro h
    cases h
  · intro h
    obtain ⟨_, _, _, hfalse, _⟩ := h
    exact hfalse.elim

theorem liftM (y : Except Error α) :
    Accepts (liftM y : Reader α) fun w a => w = [] ∧ y = .ok a := by
  cases y with
  | ok b => exact (pure b).congr fun w a => by simp [eq_comm]
  | error e => exact (throw e).congr fun w a => by simp

/-- A sequence accepts a word of each of its parts. -/
theorem bind (hx : Accepts x L) (hf : ∀ w a, L w a → Accepts (f a) (M a)) :
    Accepts (x >>= f) fun w b => ∃ u a v, w = u ++ v ∧ L u a ∧ M a v b := by
  intro start bytes b c
  rw [Action.exec_bind_ok]
  constructor
  · intro h
    obtain ⟨a, t, hxa, hfb⟩ := h
    obtain ⟨u, rest, rfl, hu, rfl⟩ := (hx _ _ _ _).mp hxa
    obtain ⟨v, rest, rfl, hv, rfl⟩ := (hf u a hu _ _ _ _).mp hfb
    refine ⟨u ++ v, rest, (List.append_assoc ..).symm, ⟨u, a, v, rfl, hu, hv⟩, ?_⟩
    rw [List.length_append, Nat.add_assoc]
  · intro h
    obtain ⟨_, rest, rfl, ⟨u, a, v, rfl, hu, hv⟩, rfl⟩ := h
    refine ⟨a, ⟨start + u.length, v ++ rest⟩, ?_, ?_⟩
    · exact (hx _ _ _ _).mpr ⟨u, v ++ rest, List.append_assoc .., hu, rfl⟩
    · refine (hf u a hu _ _ _ _).mpr ⟨v, rest, rfl, hv, ?_⟩
      rw [List.length_append, Nat.add_assoc]

theorem map {g : α → β} (hx : Accepts x L) :
    Accepts (x >>= fun a => Pure.pure (g a)) fun w b => ∃ a, L w a ∧ b = g a := by
  refine (hx.bind fun _ a _ => pure (g a)).congr fun w b => ?_
  constructor
  · intro h
    obtain ⟨u, a, _, rfl, hu, rfl, rfl⟩ := h
    exact ⟨a, by rwa [List.append_nil], rfl⟩
  · intro h
    obtain ⟨a, hw, rfl⟩ := h
    exact ⟨w, a, [], (List.append_nil w).symm, hw, rfl, rfl⟩

theorem position_bind {f : Nat → Reader β} {L : Language β} (h : ∀ start, Accepts (f start) L) :
    Accepts (position >>= f) L :=
  fun start bytes b c => h start start bytes b c

/-- A byte that is refused at once. -/
theorem throw_bind {e : Error} {f : PUnit → Reader β} {L : Language β} (hL : ∀ w b, ¬L w b) :
    Accepts (MonadExcept.throw e >>= f) L := by
  intro start bytes b c
  constructor
  · intro h
    cases h
  · intro h
    obtain ⟨w, _, _, hw, _⟩ := h
    exact absurd hw (hL w b)

theorem next : Accepts next fun w byte => w = [byte] := by
  intro start bytes byte c
  cases bytes with
  | nil =>
      constructor
      · intro h
        cases h
      · intro h
        obtain ⟨w, rest, hbytes, rfl, -⟩ := h
        cases hbytes
  | cons byte' bytes =>
      constructor
      · intro h
        cases h
        exact ⟨[byte], bytes, rfl, rfl, rfl⟩
      · intro h
        obtain ⟨w, rest, hbytes, rfl, rfl⟩ := h
        cases hbytes
        rfl

/-- A reader that begins with a byte accepts what it accepts behind each byte. -/
theorem next_bind {f : UInt8 → Reader β} {L : Language β} (hempty : ∀ b, ¬L [] b)
    (hf : ∀ byte, Accepts (f byte) fun w b => L (byte :: w) b) :
    Accepts (Reader.next >>= f) L := by
  refine (next.bind fun _ byte _ => hf byte).congr fun w b => ?_
  constructor
  · intro h
    obtain ⟨_, byte, v, rfl, rfl, h⟩ := h
    exact h
  · intro h
    cases w with
    | nil => exact absurd h (hempty b)
    | cons byte w => exact ⟨[byte], byte, w, rfl, rfl, h⟩

/-- A reader that decides by the byte ahead accepts one language of words that begin with this byte
and another of those that do not. -/
theorem peek_if {x y : Reader β} {L M : Language β} (hx : Accepts x L) (hy : Accepts y M)
    (head : UInt8) (hL : ∀ b, ¬L [] b) (hM : ∀ b, ¬M [] b) :
    Accepts (peek >>= fun byte => if byte = head then x else y) fun w b =>
      if w.head? = some head then L w b else M w b := by
  intro start bytes b c
  cases bytes with
  | nil =>
      constructor
      · intro h
        cases h
      · intro h
        obtain ⟨w, rest, hbytes, hw, -⟩ := h
        obtain ⟨rfl, -⟩ := List.append_eq_nil_iff.mp hbytes.symm
        exact absurd hw (hM b)
  | cons byte bytes =>
      change (if byte = head then x else y).exec ⟨start, byte :: bytes⟩ = _ ↔ _
      have hhead : ∀ {w rest}, byte :: bytes = w ++ rest → w ≠ [] → w.head? = some byte := by
        intro w rest hbytes hw
        cases w with
        | nil => exact absurd rfl hw
        | cons byte' w =>
            cases hbytes
            rfl
      by_cases hbyte : byte = head
      · rw [if_pos hbyte, hx]
        refine exists_congr fun w => exists_congr fun rest => and_congr_right fun hbytes => ?_
        by_cases hw : w = []
        · simp [hw, hL, hM]
        · simp only [hhead hbytes hw, hbyte, if_true]
      · rw [if_neg hbyte, hy]
        refine exists_congr fun w => exists_congr fun rest => and_congr_right fun hbytes => ?_
        by_cases hw : w = []
        · simp [hw, hM]
        · simp only [hhead hbytes hw, Option.some.injEq, hbyte, if_false]

theorem mark (wanted : Mark) (part : Part) :
    Accepts (mark wanted part) fun w _ => w = [wanted.byte] := by
  refine position_bind fun start => next_bind (by simp) fun byte => ?_
  by_cases hbyte : byte = wanted.byte
  · rw [if_neg (fun h => h hbyte)]
    exact (pure _).congr fun w a => by simp [hbyte]
  · rw [if_pos hbyte]
    exact (throw _).congr fun w a => by simp [hbyte]

/-! ## Numbers -/

theorem not_lt_bias_iff {b : UInt8} : ¬b < bias ↔ 0x20 ≤ b := UInt8.not_lt

theorem number : Accepts number IsNumber := by
  refine position_bind fun start => next_bind (fun n h => by cases h) fun byte => ?_
  by_cases hbyte : byte < bias
  · simp only [if_pos hbyte]
    refine throw_bind fun w n h => ?_
    cases h with
    | byte hge => exact not_lt_bias_iff.mpr hge hbyte
  · simp only [if_neg hbyte]
    refine (pure _).congr fun w n => ?_
    constructor
    · intro h
      obtain ⟨rfl, rfl⟩ := h
      exact .byte (not_lt_bias_iff.mp hbyte)
    · intro h
      cases h
      exact ⟨rfl, rfl⟩

/-- The index of a space of one byte is that of its handle. -/
theorem index_id_of_at? {r : Registry} (hr : r.Numbered) {n : UInt8} {s : Space}
    (hs : r.at? n.toNat = some s) : s.id.index = n.toNat := by
  have hlt : n.toNat < 2 ^ 8 := n.toNat_lt
  change (SpaceId.ofIndex s.info.index).index = _
  rw [SpaceId.index_ofIndex, hr _ s hs]
  exact Nat.mod_eq_of_lt (Nat.lt_trans hlt (by decide))

theorem space {r : Registry} (hr : r.Numbered) : Accepts (space r) (IsSpace r) := by
  refine (number.bind (M := fun n w id => w = [] ∧ id.index = n.toNat ∧
    ∃ s, r.find? id = some s) fun _ n _ => ?_).congr fun w id => ?_
  · cases hs : r.at? n.toNat with
    | none =>
        refine (throw _).congr fun w id => ?_
        refine iff_of_false (fun h => h) ?_
        intro h
        obtain ⟨-, hindex, s, hfound⟩ := h
        change r.at? id.index = some s at hfound
        rw [hindex, hs] at hfound
        cases hfound
    | some s =>
        refine (pure s.id).congr fun w id => and_congr_right fun _ => ?_
        constructor
        · intro h
          subst h
          have hindex := index_id_of_at? hr hs
          refine ⟨hindex, s, ?_⟩
          change r.at? s.id.index = some s
          rw [hindex, hs]
        · intro h
          obtain ⟨hindex, s', hfound⟩ := h
          have hid := hr.id_of_find? hfound
          change r.at? id.index = some s' at hfound
          rw [hindex, hs] at hfound
          cases hfound
          exact hid.symm
  · constructor
    · intro h
      obtain ⟨u, n, v, rfl, hu, rfl, hindex, s, hs⟩ := h
      rw [List.append_nil]
      exact .index hu hindex hs
    · intro h
      cases h with
      | index hn hindex hs => exact ⟨w, _, [], (List.append_nil w).symm, hn, rfl, hindex, _, hs⟩

theorem ofNumber_eq_ok_iff {n : UInt8} {o : Opcode} :
    (Opcode.ofNumber n).mapError Error.opcode = .ok o ↔ o.number = n := by
  constructor
  · intro h
    unfold Opcode.ofNumber at h
    split at h
    next o' hfind =>
      cases h
      simpa using List.find?_some hfind
    next => cases h
  · intro h
    rw [← h, Opcode.ofNumber_number]
    rfl

theorem opcode : Accepts opcode IsOpcode := by
  refine (number.bind fun _ n _ => liftM _).congr fun w o => ?_
  constructor
  · intro h
    obtain ⟨u, n, v, rfl, hu, rfl, ho⟩ := h
    obtain rfl := ofNumber_eq_ok_iff.mp ho
    rw [List.append_nil]
    exact .number hu
  · intro h
    cases h with
    | number hn =>
        exact ⟨w, _, [], (List.append_nil w).symm, hn, rfl, ofNumber_eq_ok_iff.mpr rfl⟩

/-- A reader of words that are not empty leaves fewer bytes than it was given. -/
theorem shrinks (h : Accepts x L) (hne : ∀ w a, L w a → w ≠ []) {c c' : Cursor} {a : α}
    (hx : x.exec c = (.ok a, c')) : c'.rest.length < c.rest.length := by
  rcases c with ⟨start, bytes⟩
  obtain ⟨w, rest, rfl, hw, rfl⟩ := (h _ _ _ _).mp hx
  have hpos := List.length_pos_iff.mpr (hne w a hw)
  change rest.length < (w ++ rest).length
  rw [List.length_append]
  omega

end Accepts

/-! ## Lists -/

section Lists
variable {α : Type} {item : Reader α} {start : Nat} {byte : UInt8} {bytes : List UInt8}

/-- A byte other than the mark of the end begins an item. -/
theorem exec_untilStop_of_ne (n : Nat) (h : byte ≠ Mark.stop.byte) :
    (untilStop item (n + 1)).exec ⟨start, byte :: bytes⟩ =
      (item >>= fun first => untilStop item n >>= fun others =>
        pure (first :: others)).exec ⟨start, byte :: bytes⟩ := by
  change Action.exec (if byte = Mark.stop.byte then _ else _) _ = _
  rw [if_neg h]

variable (hshrink : ∀ {c c' a}, item.exec c = (.ok a, c') → c'.rest.length < c.rest.length)
include hshrink

/-- Bounds that the bytes keep to make no difference. -/
theorem exec_untilStop_eq {n m : Nat} (hn : bytes.length < n) (hm : bytes.length < m) :
    (untilStop item n).exec ⟨start, bytes⟩ = (untilStop item m).exec ⟨start, bytes⟩ := by
  induction n generalizing m start bytes with
  | zero => cases hn
  | succ n ih =>
      cases m with
      | zero => cases hm
      | succ m =>
          rcases bytes with _ | ⟨byte, bytes⟩
          · rfl
          by_cases hstop : byte = Mark.stop.byte
          · subst hstop
            rfl
          rw [exec_untilStop_of_ne n hstop, exec_untilStop_of_ne m hstop, Action.exec_bind,
            Action.exec_bind]
          rcases hfirst : item.exec ⟨start, byte :: bytes⟩ with ⟨e | a, ⟨position, rest⟩⟩
          · rfl
          · have hlt : rest.length < (byte :: bytes).length := hshrink hfirst
            simp only [Action.exec_bind]
            rw [ih (m := m) (by omega) (by omega)]

/-- A byte other than the mark of the end begins an item, and the other items follow it. -/
theorem exec_items_of_ne (h : byte ≠ Mark.stop.byte) :
    (items item).exec ⟨start, byte :: bytes⟩ =
      (item >>= fun first => items item >>= fun others =>
        pure (first :: others)).exec ⟨start, byte :: bytes⟩ := by
  have hitems : (items item).exec ⟨start, byte :: bytes⟩ =
      (untilStop item ((byte :: bytes).length + 1)).exec ⟨start, byte :: bytes⟩ := rfl
  rw [hitems, exec_untilStop_of_ne _ h, Action.exec_bind, Action.exec_bind]
  rcases hfirst : item.exec ⟨start, byte :: bytes⟩ with ⟨e | a, ⟨position, rest⟩⟩
  · rfl
  · have hlt : rest.length < (byte :: bytes).length := hshrink hfirst
    simp only [Action.exec_bind]
    rw [exec_untilStop_eq hshrink hlt (Nat.lt_succ_self rest.length)]
    rfl

end Lists

end Pcode.Wire.Reader
