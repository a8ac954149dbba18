import Pcode.Proofs.Spaces.Described
import Pcode.Registry.Configured

/-!
# The space of a tag

A tag describes a space in view of the spaces before it, one of which may contain it. What the tag
says of the space is what the space is, and there is such a space whenever the tag can be read.
-/
namespace Pcode

theorem BasedSpace.ofElement_eq_ok {e : Xml.Element} {container : Space} {s : BasedSpace} :
    ofElement e container = .ok s ↔ e.name = "space_base" ∧
      ∃ info, SpaceInfo.Described .based e container.info.byteOrder info ∧
        info.wordSize = container.info.wordSize ∧
        s = ⟨{ info with properties := info.properties.erase .hasPhysical }, container.id, none,
          true⟩ := by
  unfold ofElement
  simp only [bind_eq_ok, check_eq_ok, SpaceInfo.ofElement_eq_ok]
  constructor
  · intro h
    obtain ⟨⟨⟩, hname, info, hinfo, hword, hs⟩ := h
    cases hs
    exact ⟨Xml.Element.requireName_eq_ok.mp hname, info, hinfo, Decidable.not_not.mp hword, rfl⟩
  · intro h
    obtain ⟨hname, info, hinfo, hword, rfl⟩ := h
    exact ⟨⟨⟩, Xml.Element.requireName_eq_ok.mpr hname, info, hinfo, Decidable.not_not.mpr hword, rfl⟩

namespace Registry
open Config (Error)

/-- The space that a tag describes, where `ss` are the spaces before it. -/
inductive Makes (order : ByteOrder) (ss : List Space) (e : Xml.Element) : Space → Prop
  | processor {info : SpaceInfo} : e.name = "space" ∨ e.name = "space_other" →
      SpaceInfo.Described .processor e order info → Makes order ss e (.processor info)
  | temporary {info : SpaceInfo} : e.name = "space_unique" →
      SpaceInfo.Described .temporary e order info → Makes order ss e (.temporary info)
  | based {info : SpaceInfo} {container : Space} : e.name = "space_base" → container ∈ ss →
      e.text "contain" = .ok container.name →
      SpaceInfo.Described .based e container.info.byteOrder info →
      info.wordSize = container.info.wordSize →
      Makes order ss e (.based ⟨{ info with properties := info.properties.erase .hasPhysical },
        container.id, none, true⟩)

/-- A tag is read as the space that it describes. -/
theorem readSpace_eq_ok {r : Registry}
    (hnamed : ∀ {name s}, r.named? name = some s ↔ s ∈ r.spaces ∧ s.name = name)
    {e : Xml.Element} {order : ByteOrder} {s : Space} :
    r.readSpace e order = .ok s ↔ Makes order r.spaces e s := by
  unfold readSpace
  by_cases hbase : e.name = "space_base"
  · rw [if_pos hbase]
    simp only [bind_eq_ok]
    constructor
    · intro h
      obtain ⟨name, hname, h⟩ := h
      rcases hcontainer : r.named? name with _ | container
      · rw [hcontainer] at h
        cases h
      · rw [hcontainer] at h
        obtain ⟨hmem, rfl⟩ := hnamed.mp hcontainer
        obtain ⟨space, hspace, h⟩ := bind_eq_ok.mp h
        cases h
        obtain ⟨-, info, hinfo, hword, rfl⟩ := BasedSpace.ofElement_eq_ok.mp hspace
        exact .based hbase hmem hname hinfo hword
    · intro h
      cases h with
      | processor htag => rcases htag with htag | htag <;> simp [htag] at hbase
      | temporary htag => simp [htag] at hbase
      | @based info container _ hmem hname hinfo hword =>
          have hspace := BasedSpace.ofElement_eq_ok.mpr ⟨hbase, info, hinfo, hword, rfl⟩
          refine ⟨container.name, hname, ?_⟩
          rw [hnamed.mpr ⟨hmem, rfl⟩]
          exact bind_eq_ok.mpr ⟨_, hspace, rfl⟩
  · rw [if_neg hbase]
    unfold Space.ofElement
    constructor
    · intro h
      split at h
      next htag =>
        obtain ⟨info, hinfo, h⟩ := bind_eq_ok.mp h
        cases h
        exact .temporary htag (SpaceInfo.ofElement_eq_ok.mp hinfo)
      split at h
      next htag =>
        obtain ⟨info, hinfo, h⟩ := bind_eq_ok.mp h
        cases h
        exact .processor htag (SpaceInfo.ofElement_eq_ok.mp hinfo)
      next => cases h
    · intro h
      cases h with
      | processor htag hinfo =>
          have hunique : e.name ≠ "space_unique" := by
            rcases htag with htag | htag <;> simp [htag]
          rw [if_neg hunique, if_pos htag]
          exact bind_eq_ok.mpr ⟨_, SpaceInfo.ofElement_eq_ok.mpr hinfo, rfl⟩
      | temporary htag hinfo =>
          rw [if_pos htag]
          exact bind_eq_ok.mpr ⟨_, SpaceInfo.ofElement_eq_ok.mpr hinfo, rfl⟩
      | based htag => exact absurd htag hbase

namespace Makes
variable {order : ByteOrder} {ss : List Space} {e : Xml.Element} {s : Space}

theorem name (h : Makes order ss e s) : e.text "name" = .ok s.name := by
  cases h with
  | processor _ hinfo => exact hinfo.name
  | temporary _ hinfo => exact hinfo.name
  | based _ _ _ hinfo => exact hinfo.name

theorem index (h : Makes order ss e s) : e.word "index" = .ok s.info.index := by
  cases h with
  | processor _ hinfo => exact hinfo.index
  | temporary _ hinfo => exact hinfo.index
  | based _ _ _ hinfo => exact hinfo.index

theorem wordSize (h : Makes order ss e s) : e.wordD "wordsize" 1 = .ok s.info.wordSize := by
  cases h with
  | processor _ hinfo => exact hinfo.wordSize
  | temporary _ hinfo => exact hinfo.wordSize
  | based _ _ _ hinfo => exact hinfo.wordSize

/-- What a space is for is told by the name of its tag. -/
theorem purpose (h : Makes order ss e s) :
    s.purpose = if e.name = "space_unique" then .temporary
      else if e.name = "space_base" then .based else .processor := by
  cases h with
  | processor htag hinfo =>
      have hpurpose := hinfo.purpose
      rcases htag with htag | htag <;> simp [htag, Space.purpose, Space.info, hpurpose]
  | temporary htag hinfo => simp [htag, Space.purpose, Space.info, hinfo.purpose]
  | based htag _ _ hinfo => simp [htag, Space.purpose, Space.info, hinfo.purpose]

theorem purpose_ne (h : Makes order ss e s) : s.purpose ≠ .constant := by
  rw [h.purpose]
  split
  next => simp
  next => split <;> simp

/-- Of the names that are reserved, only that of temporaries matters to a tag. -/
theorem reserved_iff (h : Makes order ss e s) :
    (∀ name, s.purpose.reservedName? = some name → s.name = name) ↔
      (e.name = "space_unique" → s.name = "unique") := by
  rw [h.purpose]
  split
  next hunique => simp [Purpose.reservedName?, hunique]
  next hunique => split <;> simp [Purpose.reservedName?, hunique]

end Makes

/-- A tag describes a space when it is one of the four, its attributes can be read, and it is
contained, if at all, in a space with words of its size. -/
theorem exists_makes_iff {order : ByteOrder} {ss : List Space} {e : Xml.Element} :
    (∃ s, Makes order ss e s) ↔
      (e.name = "space" ∨ e.name = "space_other" ∨ e.name = "space_unique" ∨
        e.name = "space_base") ∧ SpaceInfo.Legible e ∧
      (e.name = "space_base" → ∃ container ∈ ss, e.text "contain" = .ok container.name ∧
        e.wordD "wordsize" 1 = .ok container.info.wordSize) := by
  constructor
  · intro h
    obtain ⟨s, h⟩ := h
    cases h with
    | processor htag hinfo =>
        refine ⟨htag.imp_right .inl, (SpaceInfo.exists_described_iff _ _).mp ⟨_, hinfo⟩, ?_⟩
        intro hbase
        rcases htag with htag | htag <;> simp [htag] at hbase
    | temporary htag hinfo =>
        refine ⟨.inr (.inr (.inl htag)), (SpaceInfo.exists_described_iff _ _).mp ⟨_, hinfo⟩, ?_⟩
        intro hbase
        simp [htag] at hbase
    | based htag hmem hname hinfo hword =>
        refine ⟨.inr (.inr (.inr htag)), (SpaceInfo.exists_described_iff _ _).mp ⟨_, hinfo⟩, ?_⟩
        intro _
        exact ⟨_, hmem, hname, hword ▸ hinfo.wordSize⟩
  · intro h
    obtain ⟨htag, hlegible, hcontainer⟩ := h
    by_cases hbase : e.name = "space_base"
    · obtain ⟨container, hmem, hname, hword⟩ := hcontainer hbase
      obtain ⟨info, hinfo⟩ :=
        (SpaceInfo.exists_described_iff .based container.info.byteOrder).mpr hlegible
      have hsame : info.wordSize = container.info.wordSize :=
        Except.ok.inj (hinfo.wordSize.symm.trans hword)
      exact ⟨_, .based hbase hmem hname hinfo hsame⟩
    by_cases hunique : e.name = "space_unique"
    · obtain ⟨info, hinfo⟩ :=
        (SpaceInfo.exists_described_iff .temporary order).mpr hlegible
      exact ⟨_, .temporary hunique hinfo⟩
    · obtain ⟨info, hinfo⟩ :=
        (SpaceInfo.exists_described_iff .processor order).mpr hlegible
      refine ⟨_, .processor ?_ hinfo⟩
      rcases htag with htag | htag | htag | htag
      · exact .inl htag
      · exact .inr htag
      · exact absurd htag hunique
      · exact absurd htag hbase

end Registry

end Pcode
