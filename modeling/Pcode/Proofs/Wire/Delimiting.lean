import Pcode.Proofs.Wire.Recognition

/-!
# Records delimit themselves

A reader of records either runs out of bytes, and stops at their end, or has settled what it answers
by the bytes that it has read. So what follows a record has no influence on it, and a record that is
cut anywhere is reported as cut.
-/
namespace Pcode.Wire.Reader

/-- How a reader ends on bytes: it runs out of them at their end, or what it answers was settled by
those that it has read, whatever is appended. -/
inductive Ends {α : Type} (x : Reader α) (start : Nat) (bytes : List UInt8) : Prop
  | cut : x.exec ⟨start, bytes⟩ =
      (.error (.cutShort (start + bytes.length)), ⟨start + bytes.length, []⟩) → Ends x start bytes
  | settled (read rest : List UInt8) (result : Except Error α) : bytes = read ++ rest →
      (∀ p, result ≠ .error (.cutShort p)) →
      (∀ more, x.exec ⟨start, bytes ++ more⟩ = (result, ⟨start + read.length, rest ++ more⟩)) →
      Ends x start bytes

namespace Ends
variable {α β : Type} {x y : Reader α} {f : α → Reader β} {start : Nat} {bytes : List UInt8}

theorem congr (h : Ends x start bytes)
    (hxy : ∀ more, y.exec ⟨start, bytes ++ more⟩ = x.exec ⟨start, bytes ++ more⟩) :
    Ends y start bytes := by
  cases h with
  | cut hcut =>
      have heq := hxy []
      rw [List.append_nil, hcut] at heq
      exact .cut heq
  | settled read rest result hbytes hresult hall =>
      refine .settled read rest result hbytes hresult fun more => ?_
      rw [hxy, hall]

theorem pure (a : α) : Ends (pure a) start bytes :=
  .settled [] bytes (.ok a) rfl (fun p h => by cases h) fun _ => rfl

theorem throw {e : Error} (he : ∀ p, e ≠ .cutShort p) :
    Ends (throw e : Reader α) start bytes := by
  refine .settled [] bytes (.error e) rfl ?_ fun _ => rfl
  intro p h
  cases h
  exact he p rfl

/-- A byte that is refused at once. -/
theorem throw_bind {e : Error} {f : PUnit → Reader β} (he : ∀ p, e ≠ .cutShort p) :
    Ends (MonadExcept.throw e >>= f) start bytes :=
  (throw (α := β) he).congr fun _ => rfl

theorem next : Ends next start bytes := by
  cases bytes with
  | nil => exact .cut rfl
  | cons byte bytes =>
      exact .settled [byte] bytes (.ok byte) rfl (fun p h => by cases h)
        fun _ => rfl

theorem position_bind {f : Nat → Reader β} (h : Ends (f start) start bytes) :
    Ends (position >>= f) start bytes :=
  h.congr fun _ => rfl

theorem peek_bind {f : UInt8 → Reader β} (h : ∀ byte, Ends (f byte) start bytes) :
    Ends (peek >>= f) start bytes := by
  cases bytes with
  | nil => exact .cut rfl
  | cons byte bytes => exact (h byte).congr fun _ => rfl

/-- A sequence ends as its parts do, the second on what the first has left. -/
theorem bind (hx : Ends x start bytes)
    (hf : ∀ a read rest, bytes = read ++ rest →
      x.exec ⟨start, bytes⟩ = (.ok a, ⟨start + read.length, rest⟩) →
      Ends (f a) (start + read.length) rest) : Ends (x >>= f) start bytes := by
  cases hx with
  | cut hcut => exact .cut (Action.exec_bind_of_error hcut f)
  | settled read rest result hbytes hresult hall =>
      rcases result with e | a
      · refine .settled read rest (.error e) hbytes ?_ fun more => ?_
        · intro p h
          cases h
          exact hresult p rfl
        · rw [Action.exec_bind_of_error (hall more)]
      have hfirst := hall []
      rw [List.append_nil, List.append_nil] at hfirst
      have hlength : bytes.length = read.length + rest.length := by
        rw [hbytes, List.length_append]
      cases hf a read rest hbytes hfirst with
      | cut hcut =>
          apply Ends.cut
          rw [Action.exec_bind_of_ok hfirst, hcut, hlength, Nat.add_assoc]
      | settled read' rest' result' hrest hresult' hall' =>
          refine .settled (read ++ read') rest' result' ?_ hresult' fun more => ?_
          · rw [hbytes, hrest, List.append_assoc]
          · rw [Action.exec_bind_of_ok (hall more), hall', List.length_append, Nat.add_assoc]

theorem bind_all (hx : Ends x start bytes) (hf : ∀ a start bytes, Ends (f a) start bytes) :
    Ends (x >>= f) start bytes :=
  hx.bind fun a _ _ _ _ => hf a _ _

theorem map {g : α → β} (hx : Ends x start bytes) :
    Ends (x >>= fun a => Pure.pure (g a)) start bytes :=
  hx.bind_all fun _ _ _ => pure _

/-! ## Parts of a record -/

theorem mark (wanted : Mark) (part : Part) : Ends (mark wanted part) start bytes := by
  refine position_bind (next.bind_all fun found _ _ => ?_)
  split
  · exact throw (by simp)
  · exact pure _

theorem number : Ends number start bytes := by
  refine position_bind (next.bind_all fun byte _ _ => ?_)
  split
  · exact throw (by simp)
  · exact pure _

theorem space (r : Registry) : Ends (space r) start bytes := by
  refine number.bind_all fun index _ _ => ?_
  split
  · exact pure _
  · exact throw (by simp)

theorem opcode : Ends opcode start bytes := by
  refine number.bind_all fun n _ _ => ?_
  cases Opcode.ofNumber n with
  | error e => exact throw (by simp)
  | ok o => exact pure o

theorem groups (first k shift : Nat) (value : UInt64) :
    Ends (groups first k shift value) start bytes := by
  induction k generalizing start bytes shift value with
  | zero => exact throw (by simp)
  | succ k ih =>
      refine position_bind (next.bind_all fun byte start bytes => ?_)
      by_cases hstop : byte = Mark.stop.byte
      · rw [if_pos hstop]
        exact pure value
      rw [if_neg hstop]
      by_cases hrange : byte < bias ∨ Mark.stop.byte < byte
      · simp only [if_pos hrange]
        exact throw_bind (by simp)
      simp only [if_neg hrange]
      by_cases hfull : 64 ≤ shift
      · simp only [if_pos hfull]
        exact throw_bind (by simp)
      simp only [if_neg hfull]
      generalize (byte - bias).toUInt64 = group
      by_cases hcut : 64 < shift + groupBits ∧ group >>> UInt64.ofNat (64 - shift) ≠ 0
      · simp only [if_pos hcut]
        exact throw_bind (by simp)
      · simp only [if_neg hcut]
        exact ih _ _

theorem offset : Ends offset start bytes := position_bind (groups _ _ _ _)

theorem varnode (r : Registry) : Ends (varnode r) start bytes := by
  refine position_bind (next.bind_all fun byte _ _ => ?_)
  split
  · exact (space r).bind_all fun id _ _ => offset.bind_all fun value _ _ => number.map
  split
  · exact (space r).map
  · exact throw (by simp)

theorem output (r : Registry) : Ends (output r) start bytes := by
  refine peek_bind fun byte => ?_
  split
  · exact next.map
  · exact (varnode r).map

end Ends

/-- A list ends as its items do, each on what those before it have left. -/
theorem Ends.items {α : Type} {item : Reader α}
    (hshrink : ∀ {c c' a}, item.exec c = (.ok a, c') → c'.rest.length < c.rest.length)
    (hitem : ∀ start bytes, Ends item start bytes) {start : Nat}
    {bytes : List UInt8} : Ends (items item) start bytes := by
  -- as for what lists accept, by the bytes that are left
  induction hlength : bytes.length using Nat.strongRecOn generalizing start bytes with
  | ind n ih =>
      rcases bytes with _ | ⟨byte, bytes⟩
      · exact .cut rfl
      by_cases hstop : byte = Mark.stop.byte
      · subst hstop
        exact .settled [Mark.stop.byte] bytes (.ok []) rfl (fun p h => by cases h)
          fun _ => rfl
      · refine Ends.congr ?_ fun more => exec_items_of_ne hshrink hstop
        refine (hitem start (byte :: bytes)).bind fun a read rest hbytes hfirst => ?_
        have hlt : rest.length < (byte :: bytes).length := hshrink hfirst
        exact (ih rest.length (hlength ▸ hlt) rfl).map

namespace Ends
variable {r : Registry} (hr : r.Numbered) {start : Nat} {bytes : List UInt8}
include hr

theorem operation : Ends (operation r) start bytes := by
  have hshrink : ∀ {c c' v}, (Reader.varnode r).exec c = (.ok v, c') →
      c'.rest.length < c.rest.length :=
    (Accepts.varnode hr).shrinks fun w v h => by cases h <;> exact List.cons_ne_nil _ _
  exact (mark .operation .operation).bind_all fun _ _ _ => opcode.bind_all fun _ _ _ =>
    (output r).bind_all fun _ _ _ => (items hshrink fun _ _ => varnode r).map

theorem record : Ends (record r) start bytes := by
  have hshrink : ∀ {c c' o}, (Reader.operation r).exec c = (.ok o, c') →
      c'.rest.length < c.rest.length :=
    (Accepts.operation hr).shrinks fun w o h => by cases h; exact List.cons_ne_nil _ _
  refine position_bind (next.bind_all fun byte _ _ => ?_)
  split
  · exact offset.map
  split
  · exact offset.bind_all fun _ _ _ => (space r).bind_all fun _ _ _ => offset.bind_all fun _ _ _ =>
      (items hshrink fun _ _ => operation hr).map
  · exact throw (by simp)

end Ends

/-- What the reader reads is delimited by its own bytes. -/
structure SelfDelimiting {α : Type} (x : Reader α) : Prop where
  /-- An answer depends on the bytes that were read for it, and not on those that follow. -/
  again : ∀ {start bytes a c}, x.exec ⟨start, bytes⟩ = (.ok a, c) →
    ∃ read, bytes = read ++ c.rest ∧ c.position = start + read.length ∧
      ∀ more, x.exec ⟨start, read ++ more⟩ = (.ok a, ⟨start + read.length, more⟩)
  /-- Cut short of these bytes, they are reported as cut, at their end. -/
  cut : ∀ {start bytes a c}, x.exec ⟨start, bytes⟩ = (.ok a, c) →
    ∀ k, start + k < c.position →
      x.exec ⟨start, bytes.take k⟩ = (.error (.cutShort (start + k)), ⟨start + k, []⟩)
  /-- Any other failure remains whatever is appended. -/
  refused : ∀ {start bytes e c}, x.exec ⟨start, bytes⟩ = (.error e, c) →
    (∀ p, e ≠ .cutShort p) →
      ∀ more, x.exec ⟨start, bytes ++ more⟩ = (.error e, ⟨c.position, c.rest ++ more⟩)
  /-- The cursor stays within the bytes. -/
  within : ∀ start bytes, ∃ read, bytes = read ++ (x.exec ⟨start, bytes⟩).2.rest ∧
    (x.exec ⟨start, bytes⟩).2.position = start + read.length

theorem Accepts.selfDelimiting {α : Type} {x : Reader α} {L : Language α} (hx : Accepts x L)
    (hends : ∀ start bytes, Ends x start bytes) : SelfDelimiting x where
  again := by
    intro start bytes a c h
    obtain ⟨w, rest, rfl, hw, rfl⟩ := (hx _ _ _ _).mp h
    exact ⟨w, rfl, rfl, hx.reads hw start⟩
  cut := by
    intro start bytes a c h k hk
    obtain ⟨w, rest, rfl, hw, rfl⟩ := (hx _ _ _ _).mp h
    have hk' : k < w.length := Nat.lt_of_add_lt_add_left hk
    have hlength : ((w ++ rest).take k).length = k := by
      rw [List.length_take, List.length_append]
      omega
    cases hends start ((w ++ rest).take k) with
    | cut hcut =>
        rw [hlength] at hcut
        exact hcut
    | settled read left result hbytes hresult hall =>
        -- what settled the answer before the cut would settle it without the cut
        have hwhole := hall ((w ++ rest).drop k)
        rw [List.take_append_drop, h] at hwhole
        have hposition : start + w.length = start + read.length :=
          congrArg (fun result => result.2.position) hwhole
        rw [hbytes, List.length_append] at hlength
        omega
  refused := by
    intro start bytes e c h he more
    cases hends start bytes with
    | cut hcut =>
        rw [hcut] at h
        cases h
        exact absurd rfl (he _)
    | settled read rest result hbytes hresult hall =>
        have hnow := hall []
        rw [List.append_nil, List.append_nil, h] at hnow
        cases hnow
        exact hall more
  within := by
    intro start bytes
    cases hends start bytes with
    | cut hcut => exact ⟨bytes, by rw [hcut, List.append_nil], by rw [hcut]⟩
    | settled read rest result hbytes hresult hall =>
        have hnow := hall []
        rw [List.append_nil, List.append_nil] at hnow
        exact ⟨read, by rw [hnow, hbytes], by rw [hnow]⟩

/-- Over every registry that comes about, records delimit themselves. -/
theorem record_selfDelimiting (history : List Registry.Request) :
    SelfDelimiting (record (Registry.start.after history)) := by
  have hr := Registry.numbered_after history
  exact (Accepts.record hr).selfDelimiting fun start bytes => Ends.record hr

end Pcode.Wire.Reader
