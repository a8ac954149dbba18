import Pcode.Proofs.FloatLayout
import Pcode.Proofs.Processor.Filling
import Pcode.Proofs.Registry.Anchoring
import Pcode.Proofs.Registry.Layout

/-!
# Arithmetic of a configuration

Whatever words the documents hold, a configuration is computed without leaving their range, but for
one sum: the offset of the least significant bytes of a big-endian register. It is told exactly which
stack pointers overflow. All other arithmetic is range-checked as well, and its checks never fail.
-/
namespace Pcode
open Config (Documents)

namespace FloatLayout

/-- A layout that is read has an exponent field whose highest value is a signed word. -/
theorem exponentMaxChecked_of_ofElement {e : Xml.Element} {f : FloatLayout}
    (h : ofElement e = .ok f) : exponentMaxChecked f.exponentSize = .ok f.exponentMax := by
  obtain ⟨-, hsmall, hmax⟩ := exponent_of_ofElement h
  rw [exponentMaxChecked_eq hsmall, hmax]

end FloatLayout

/-! ## The low part of a register -/

namespace BasedSpace

/-- A register lies so high in its space that the least significant bytes of it have no offset. -/
structure PartPastEnd (register : Varnode) (size : UInt64) (order : ByteOrder) : Prop where
  order : order = .big
  pos : 0 < size
  part : size < register.size
  offset : 2 ^ 64 ≤ register.offset.toNat + (register.size.toNat - size.toNat)

theorem narrowed_eq_error_iff {register : Varnode} {size : UInt64} {order : ByteOrder} :
    narrowed register size order = .error .overflow ↔ PartPastEnd register size order := by
  by_cases hpart : 0 < size ∧ size < register.size
  · cases order with
    | little =>
        unfold narrowed
        rw [if_pos hpart]
        exact iff_of_false nofun fun h => nomatch h.order
    | big =>
        have hle : size ≤ register.size := UInt64.le_of_lt hpart.2
        rw [narrowed_big hpart, bind_eq_error, Word.add_eq_error_iff,
          UInt64.toNat_sub_of_le _ _ hle]
        constructor
        · intro h
          rcases h with h | ⟨_, _, h⟩
          · exact ⟨rfl, hpart.1, hpart.2, h⟩
          · cases h
        · exact fun h => .inl h.offset
  · unfold narrowed
    rw [if_neg hpart]
    exact iff_of_false nofun fun h => hpart ⟨h.pos, h.part⟩

end BasedSpace

namespace Registry

theorem anchored_eq_overflow_iff {s : BasedSpace} {register : Varnode} {size : UInt64}
    {growsDown : Bool} {order : ByteOrder} :
    anchored s register size growsDown order = .error .overflow ↔
      BasedSpace.narrowed register size order = .error .overflow := by
  unfold anchored
  rw [bind_eq_error]
  rcases BasedSpace.narrowed register size order with ⟨⟨⟩⟩ | used
  · exact iff_of_true (.inl rfl) rfl
  · refine iff_of_false ?_ nofun
    intro h
    rcases h with h | ⟨_, _, h⟩
    · cases h
    · split at h
      next =>
        split at h
        next => cases h
        next => cases h
      next => cases h

theorem exec_anchor_overflow {id : SpaceId} {register : Varnode} {size : UInt64} {growsDown : Bool}
    {r : Registry} :
    ((anchor id register size growsDown).exec r).1 = .error .overflow ↔
      ∃ home b, r.find? register.space = some home ∧ r.find? id = some (.based b) ∧
        BasedSpace.PartPastEnd register size home.info.byteOrder := by
  rw [exec_anchor]
  rcases hhome : r.find? register.space with _ | home
  · simp
  rcases hs : r.find? id with _ | s
  · simp
  cases s with
  | based b =>
      have hanchored : anchored b register size growsDown home.info.byteOrder = .error .overflow ↔
          BasedSpace.PartPastEnd register size home.info.byteOrder :=
        anchored_eq_overflow_iff.trans BasedSpace.narrowed_eq_error_iff
      simp only [Option.some.injEq, Space.based.injEq, exists_and_left, exists_eq_left']
      rw [← hanchored]
      split
      next h => simp [h]
      next h => simp [h]
  | _ => simp

end Registry

namespace Processor

/-! ## Stages that do not overflow -/

theorem exec_refusing_ne_overflow {x : Filling Unit} {p : Processor} :
    ((Action.refusing x).exec p).1 ≠ .error .overflow := by
  unfold Action.refusing
  rw [Action.exec_mapCause]
  rcases (x.exec p).1 with _ | _ <;> exact nofun

/-! ## The stack pointer -/

/-- Of the register that a tag makes the base of the stack, a part is used that lies past the last
offset. -/
inductive StackPastEnd (p : Processor) (e : Xml.Element) : Prop
  | intro {s : StackPointer} {stack : SpaceId} {b : BasedSpace} {register : Varnode} {home : Space} :
      StackPointer.ofElement e = .ok s → p.registers.location? s.register = some register →
      p.registry.idInRole? .stack = some stack → p.registry.find? stack = some (.based b) →
      p.registry.find? register.space = some home →
      BasedSpace.PartPastEnd register s.size home.info.byteOrder → StackPastEnd p e

theorem ofExcept_ne_overflow {ε α : Type} {x : Except ε α} :
    Failure.ofExcept x ≠ .error .overflow := by
  cases x <;> exact nofun

theorem exec_fillStackPointer_overflow {e : Xml.Element} {p : Processor} :
    ((fillStackPointer e).exec p).1 = .error .overflow ↔ StackPastEnd p e := by
  unfold fillStackPointer
  rw [Action.exec_liftM_bind_error, or_iff_right ofExcept_ne_overflow]
  simp only [Action.exec_get_bind, Action.exec_liftM_bind_error, ofExcept_ne_overflow, false_or,
    Failure.ofExcept_eq_ok]
  constructor
  · intro h
    obtain ⟨s, hs, ⟨stack, register⟩, hfound, h⟩ := h
    obtain ⟨hregister, hstack⟩ := findStackPointer_eq_ok.mp hfound
    obtain ⟨home, b, hhome, hb, hpart⟩ := Registry.exec_anchor_overflow.mp h
    exact .intro hs hregister hstack hb hhome hpart
  · intro h
    obtain ⟨hs, hregister, hstack, hb, hhome, hpart⟩ := h
    exact ⟨_, hs, _, findStackPointer_eq_ok.mpr ⟨hregister, hstack⟩,
      Registry.exec_anchor_overflow.mpr ⟨_, _, hhome, hb, hpart⟩⟩

theorem exec_fillAll_overflow {d : Documents} {p : Processor} :
    ((fillAll d).exec p).1 = .error .overflow ↔
      ∃ q e, (fillParts d).exec p = (.ok (), q) ∧ d.tag? "stackpointer" = some e ∧
        StackPastEnd q e := by
  unfold fillAll
  rw [Action.exec_bind_error, or_iff_right exec_refusing_ne_overflow]
  constructor
  · intro h
    obtain ⟨⟨⟩, q, hparts, h⟩ := h
    rcases htag : d.tag? "stackpointer" with _ | e
    · rw [htag] at h
      cases h
    · rw [htag] at h
      exact ⟨q, e, Action.exec_mapCause_ok.mp hparts, rfl, exec_fillStackPointer_overflow.mp h⟩
  · intro h
    obtain ⟨q, e, hparts, htag, hpast⟩ := h
    refine ⟨(), q, Action.exec_mapCause_ok.mpr hparts, ?_⟩
    rw [htag]
    exact exec_fillStackPointer_overflow.mpr hpast

theorem exec_fill_overflow {d : Documents} {p : Processor} :
    (fill d).exec p = (.error .overflow, p) ↔
      p.isFrozen = false ∧ ((fillAll d).exec p).1 = .error .overflow := by
  rw [exec_fill]
  cases p.isFrozen with
  | true => exact iff_of_false nofun nofun
  | false => rcases (fillAll d).exec p with ⟨_ | ⟨⟨⟩⟩, filled⟩ <;> simp

/-! ## The whole configuration -/

/-- A configuration is taken, or it is not and leaves the model as it was. It overflows when all its
stages but the last succeed and the stack pointer is the low part of a big-endian register that has
no offset, and in no other case: the range checks of highest offsets and of the exponents of float
layouts never fail, of those of a low part only the one of its offset does, and the search for a
shortcut stays among letters. -/
theorem fill_ends (d : Documents) (p : Processor) :
    ((∃ q, (fill d).exec p = (.ok (), q)) ∨
      (∃ cause, (fill d).exec p = (.error (.refused cause), p)) ∨
      (fill d).exec p = (.error .overflow, p)) ∧
    ((fill d).exec p = (.error .overflow, p) ↔
      p.isFrozen = false ∧ ∃ q e, (fillParts d).exec p = (.ok (), q) ∧
        d.tag? "stackpointer" = some e ∧ StackPastEnd q e) ∧
    (∀ size unit, Word.highestChecked size unit = .ok (Word.highest size unit)) ∧
    (∀ e f, FloatLayout.ofElement e = .ok f →
      FloatLayout.exponentMaxChecked f.exponentSize = .ok f.exponentMax) ∧
    (∀ register size order, BasedSpace.narrowed register size order = .error .overflow ↔
      BasedSpace.PartPastEnd register size order) ∧
    ∀ c, Shortcut.next c ∈ Shortcut.letters := by
  refine ⟨?_, ?_, Word.highestChecked_eq, fun _ _ => FloatLayout.exponentMaxChecked_of_ofElement,
    fun _ _ _ => BasedSpace.narrowed_eq_error_iff, Shortcut.next_mem_letters⟩
  · rcases h : (fill d).exec p with ⟨cause | ⟨⟨⟩⟩, q⟩
    · obtain rfl := fill_eq_error h
      cases cause with
      | overflow => exact .inr (.inr rfl)
      | refused cause => exact .inr (.inl ⟨cause, rfl⟩)
    · exact .inl ⟨q, rfl⟩
  · rw [exec_fill_overflow, exec_fillAll_overflow]

/-- A big-endian model whose stack pointer is the low half of a register at the end of its space. -/
def topStack : Documents :=
  let attributes := fun (as : List (String × String)) =>
    as.map fun a => (⟨none, a.1, a.2⟩ : Xml.Attribute)
  ⟨[⟨"sleigh", attributes [("bigendian", "true")],
    [⟨"spaces", attributes [("defaultspace", "ram")],
        [Registry.tagOf "space" [("name", "ram"), ("index", "1"), ("size", "4"), ("delay", "1")],
          Registry.tagOf "space" [("name", "register"), ("index", "2"), ("size", "8")],
          Registry.tagOf "space_base"
            [("name", "stack"), ("index", "3"), ("size", "4"), ("contain", "ram")]]⟩,
      ⟨"register_data", [],
        [Registry.tagOf "register" [("name", "sp"), ("space", "register"),
          ("offset", "0xfffffffffffffffc"), ("size", "8")]]⟩,
      Registry.tagOf "stackpointer" [("register", "sp"), ("size", "4")]]⟩]⟩

theorem fill_topStack_overflows : ((fill topStack).exec start).1 = .error .overflow := by
  decide +kernel

end Processor

end Pcode
