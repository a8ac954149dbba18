import Pcode.Proofs.Actions
import Pcode.Spaces.Configured

/-!
# What the tag of a space says

The description of a space states what the attributes of its tag say, and there is one whenever these
attributes can be read.
-/
namespace Pcode

namespace Xml.Element

/-- Whether an optional word can be read does not depend on its default. -/
theorem exists_wordD_iff {e : Element} {name : String} (d d' : UInt64) :
    (∃ value, e.wordD name d = .ok value) ↔ ∃ value, e.wordD name d' = .ok value := by
  unfold wordD intD
  cases e.attribute? name with
  | none => exact iff_of_true ⟨_, rfl⟩ ⟨_, rfl⟩
  | some value => exact Iff.rfl

theorem exists_boolD_iff {e : Element} {name : String} (d d' : Bool) :
    (∃ value, e.boolD name d = .ok value) ↔ ∃ value, e.boolD name d' = .ok value := by
  unfold boolD
  cases e.attribute? name with
  | none => exact iff_of_true ⟨_, rfl⟩ ⟨_, rfl⟩
  | some value => exact Iff.rfl

theorem requireName_eq_ok {e : Element} {name : String} :
    e.requireName name = .ok () ↔ e.name = name := by
  unfold requireName
  split
  next h => exact iff_of_true rfl h
  next h =>
    refine iff_of_false ?_ h
    intro hok
    cases hok

end Xml.Element

namespace SpaceInfo

/-- The description states what the attributes of the tag say. -/
structure Described (purpose : Purpose) (e : Xml.Element) (order : ByteOrder) (info : SpaceInfo) :
    Prop where
  purpose : info.purpose = purpose
  name : e.text "name" = .ok info.name
  index : e.word "index" = .ok info.index
  pointerSize : e.word "size" = .ok info.pointerSize
  wordSize : e.wordD "wordsize" 1 = .ok info.wordSize
  someWordSize : info.wordSize ≠ 0
  delay : e.wordD "delay" 0 = .ok info.delay
  /-- Without a wait of its own a space has its delay for it. -/
  deadcodeWait : e.wordD "deadcodedelay" info.delay = .ok info.deadcodeWait
  /-- Without a byte order of its own a space has the given one. -/
  properties : ∃ big physical, e.boolD "bigendian" order.isBig = .ok big ∧
    e.boolD "physical" true = .ok physical ∧
    info.properties =
      if physical then (Space.valueProperties (.ofBig big)).insert .hasPhysical
      else Space.valueProperties (.ofBig big)
  highest : info.highest = Word.highest info.pointerSize info.wordSize
  shortcut : info.shortcut = (e.attribute? "shortcut").bind fun s => s.toList.head?

/-- The attributes of a space are those that must be there, and all can be read. -/
structure Legible (e : Xml.Element) : Prop where
  name : ∃ name, e.text "name" = .ok name
  index : ∃ index, e.word "index" = .ok index
  pointerSize : ∃ size, e.word "size" = .ok size
  wordSize : ∃ size, e.wordD "wordsize" 1 = .ok size ∧ size ≠ 0
  delay : ∃ delay, e.wordD "delay" 0 = .ok delay
  deadcodeWait : ∃ delay, e.wordD "deadcodedelay" 0 = .ok delay
  bigEndian : ∃ big, e.boolD "bigendian" true = .ok big
  physical : ∃ physical, e.boolD "physical" true = .ok physical

theorem ofElement_eq_ok {purpose : Purpose} {e : Xml.Element} {order : ByteOrder}
    {info : SpaceInfo} :
    ofElement purpose e order = .ok info ↔ Described purpose e order info := by
  unfold ofElement
  simp only [bind_eq_ok, check_eq_ok]
  constructor
  · intro h
    obtain ⟨name, hname, index, hindex, pointerSize, hpointer, wordSize, hword, delay, hdelay, wait,
      hwait, hne, big, hbig, physical, hphysical, hinfo⟩ := h
    cases hinfo
    exact ⟨rfl, hname, hindex, hpointer, hword, hne, hdelay, hwait,
      ⟨big, physical, hbig, hphysical, rfl⟩, rfl, rfl⟩
  · intro h
    obtain ⟨big, physical, hbig, hphysical, hproperties⟩ := h.properties
    refine ⟨_, h.name, _, h.index, _, h.pointerSize, _, h.wordSize, _, h.delay, _, h.deadcodeWait,
      h.someWordSize, big, hbig, physical, hphysical, ?_⟩
    rw [← hproperties, ← h.highest, ← h.shortcut, ← h.purpose]
    rfl

theorem exists_described_iff (purpose : Purpose) {e : Xml.Element} (order : ByteOrder) :
    (∃ info, Described purpose e order info) ↔ Legible e := by
  constructor
  · intro h
    obtain ⟨info, h⟩ := h
    obtain ⟨big, physical, hbig, hphysical, -⟩ := h.properties
    exact ⟨⟨_, h.name⟩, ⟨_, h.index⟩, ⟨_, h.pointerSize⟩, ⟨_, h.wordSize, h.someWordSize⟩,
      ⟨_, h.delay⟩, (Xml.Element.exists_wordD_iff _ _).mp ⟨_, h.deadcodeWait⟩,
      (Xml.Element.exists_boolD_iff _ _).mp ⟨_, hbig⟩, ⟨_, hphysical⟩⟩
  · intro h
    obtain ⟨name, hname⟩ := h.name
    obtain ⟨index, hindex⟩ := h.index
    obtain ⟨pointerSize, hpointer⟩ := h.pointerSize
    obtain ⟨wordSize, hword, hne⟩ := h.wordSize
    obtain ⟨delay, hdelay⟩ := h.delay
    obtain ⟨wait, hwait⟩ := (Xml.Element.exists_wordD_iff _ delay).mp h.deadcodeWait
    obtain ⟨big, hbig⟩ := (Xml.Element.exists_boolD_iff _ order.isBig).mp h.bigEndian
    obtain ⟨physical, hphysical⟩ := h.physical
    exact ⟨{ purpose, name, index, pointerSize, wordSize, delay
             deadcodeWait := wait
             highest := Word.highest pointerSize wordSize
             shortcut := (e.attribute? "shortcut").bind fun s => s.toList.head?
             properties :=
               if physical then (Space.valueProperties (.ofBig big)).insert .hasPhysical
               else Space.valueProperties (.ofBig big) },
      rfl, hname, hindex, hpointer, hword, hne, hdelay, hwait,
      ⟨big, physical, hbig, hphysical, rfl⟩, rfl, rfl⟩

end SpaceInfo

end Pcode
