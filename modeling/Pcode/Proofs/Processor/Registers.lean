import Pcode.Processor.Configured
import Pcode.Proofs.RegisterFile
import Pcode.Proofs.Spaces.Described

/-!
# Registers as declared

Registers are defined in order. A name keeps the location it has, so after all definitions the names
are those that were there and those that were defined, each with its one location.
-/
namespace Pcode

namespace Registry

/-- The tag of a register gives it this name and this location, in a space that the registry has by
the name in the tag. -/
structure Declares (r : Registry) (e : Xml.Element) (name : String) (location : Varnode) : Prop where
  tag : e.name = "register"
  name : e.text "name" = .ok name
  space : ∃ spaceName s, e.text "space" = .ok spaceName ∧ r.named? spaceName = some s ∧
    location.space = s.id
  offset : e.word "offset" = .ok location.offset
  size : e.word "size" = .ok location.size

/-- Registers are defined as their tags declare them, in the order of the tags. -/
inductive Registered (r : Registry) : List Xml.Element → RegisterFile → RegisterFile → Prop
  | nil (f : RegisterFile) : Registered r [] f f
  | cons {e : Xml.Element} {es : List Xml.Element} {name : String} {location : Varnode}
      {f g h : RegisterFile} : Declares r e name location →
      (RegisterFile.define name location).exec f = (.ok (), g) → Registered r es g h →
      Registered r (e :: es) f h

/-- A tag declares one register at most. -/
theorem Declares.unique {r : Registry} {e : Xml.Element} {name name' : String}
    {location location' : Varnode} (h : Declares r e name location)
    (h' : Declares r e name' location') : name' = name ∧ location' = location := by
  obtain ⟨spaceName, s, hspace, hs, hid⟩ := h.space
  obtain ⟨spaceName', s', hspace', hs', hid'⟩ := h'.space
  obtain rfl : spaceName' = spaceName := Except.ok.inj (hspace'.symm.trans hspace)
  obtain rfl : s' = s := Option.some.inj (hs'.symm.trans hs)
  refine ⟨Except.ok.inj (h'.name.symm.trans h.name), ?_⟩
  rcases location with ⟨id, offset, size⟩
  rcases location' with ⟨id', offset', size'⟩
  obtain rfl : id' = id := hid'.trans hid.symm
  obtain rfl : offset' = offset := Except.ok.inj (h'.offset.symm.trans h.offset)
  obtain rfl : size' = size := Except.ok.inj (h'.size.symm.trans h.size)
  rfl

namespace Registered
variable {r : Registry} {es : List Xml.Element} {f g : RegisterFile}

theorem indexed (h : Registered r es f g) (hf : f.Indexed) : g.Indexed := by
  induction h with
  | nil f => exact hf
  | cons _ hdefine _ ih => exact ih (hf.define hdefine)

theorem declares (h : Registered r es f g) :
    ∀ e ∈ es, ∃ name location, Declares r e name location := by
  induction h with
  | nil f => simp
  | cons hdeclares _ _ ih => exact List.forall_mem_cons.mpr ⟨⟨_, _, hdeclares⟩, ih⟩

/-- Afterwards a name has the location that it had or that a tag declares for it. -/
theorem location?_iff (h : Registered r es f g) (name : String) (location : Varnode) :
    g.location? name = some location ↔
      f.location? name = some location ∨ ∃ e ∈ es, Declares r e name location := by
  induction h with
  | nil f => simp
  | cons hdeclares hdefine _ ih =>
      rw [ih, RegisterFile.location?_define hdefine, or_assoc]
      refine or_congr_right ?_
      simp only [List.mem_cons, or_and_right, exists_or, exists_eq_left]
      refine or_congr_left ?_
      constructor
      · intro hnew
        obtain ⟨rfl, rfl⟩ := hnew
        exact hdeclares
      · exact hdeclares.unique

end Registered

end Registry

end Pcode
