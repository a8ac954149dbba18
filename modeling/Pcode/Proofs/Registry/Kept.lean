import Pcode.Proofs.Registry.Requests

/-!
# What steps keep

Spaces, roles and joined values are never removed or replaced: a step may add to them, and what it
changes of a space leaves the identity of the space alone.
-/
namespace Pcode

/-- The base register of a space, if it has one, and the direction in which the stack grows. -/
def Space.base? (s : Space) : Option (Anchor × Bool) :=
  s.based?.bind fun b => b.anchor.map fun a => (a, b.growsDown)

/-- A space and what became of it: it may be marked, narrowed and given another waiting time, and be
given a base register if it has none. -/
structure Space.Kept (s t : Space) : Prop where
  index : t.info.index = s.info.index
  name : t.name = s.name
  purpose : t.purpose = s.purpose
  shortcut : t.info.shortcut = s.info.shortcut
  wordSize : t.info.wordSize = s.info.wordSize
  delay : t.info.delay = s.info.delay
  byteOrder : t.info.byteOrder = s.info.byteOrder
  container : t.based?.map BasedSpace.container = s.based?.map BasedSpace.container
  form : t.isConstant = s.isConstant
  marks : ∀ p, s.info.properties.has p = true → t.info.properties.has p = true
  base : ∀ base, s.base? = some base → t.base? = some base

theorem Properties.has_insert_of_has {s : Properties} {p q : Property} (h : s.has p = true) :
    (s.insert q).has p = true := by
  rw [Properties.has_insert, h, Bool.true_or]

/-- A mark that is not the byte order leaves the byte order alone. -/
theorem ByteOrder.ofBig_has_insert {s : Properties} {p : Property} (h : p ≠ .bigEndian) :
    ByteOrder.ofBig ((s.insert p).has .bigEndian) = ByteOrder.ofBig (s.has .bigEndian) := by
  rw [Properties.has_insert, beq_eq_false_iff_ne.mpr h, Bool.or_false]

theorem Adjustment.byteOrder_apply (a : Adjustment) (s : SpaceInfo) :
    (a.apply s).byteOrder = s.byteOrder := by
  cases a with
  | deadcodeWait delay => rfl
  | reverseJustify => exact ByteOrder.ofBig_has_insert (by decide)
  | narrow size => exact ByteOrder.ofBig_has_insert (by decide)

theorem Adjustment.has_properties_apply (a : Adjustment) {s : SpaceInfo} {p : Property}
    (h : s.properties.has p = true) : (a.apply s).properties.has p = true := by
  cases a with
  | deadcodeWait delay => exact h
  | reverseJustify => exact Properties.has_insert_of_has h
  | narrow size => exact Properties.has_insert_of_has h

namespace Space.Kept

theorem refl (s : Space) : s.Kept s :=
  ⟨rfl, rfl, rfl, rfl, rfl, rfl, rfl, rfl, rfl, fun _ h => h, fun _ h => h⟩

theorem trans {s t u : Space} (h : s.Kept t) (h' : t.Kept u) : s.Kept u where
  index := h'.index.trans h.index
  name := h'.name.trans h.name
  purpose := h'.purpose.trans h.purpose
  shortcut := h'.shortcut.trans h.shortcut
  wordSize := h'.wordSize.trans h.wordSize
  delay := h'.delay.trans h.delay
  byteOrder := h'.byteOrder.trans h.byteOrder
  container := h'.container.trans h.container
  form := h'.form.trans h.form
  marks := fun p hp => h'.marks p (h.marks p hp)
  base := fun base hbase => h'.base base (h.base base hbase)

theorem id {s t : Space} (h : s.Kept t) : t.id = s.id := congrArg SpaceId.ofIndex h.index

theorem adjusted (s : Space) (a : Adjustment) : s.Kept (s.modifyInfo a.apply) := by
  have horder : (s.modifyInfo a.apply).info.byteOrder = s.info.byteOrder := by
    rw [info_modifyInfo, a.byteOrder_apply]
  have hmarks : ∀ p, s.info.properties.has p = true →
      (s.modifyInfo a.apply).info.properties.has p = true := by
    intro p hp
    rw [info_modifyInfo]
    exact a.has_properties_apply hp
  cases a <;> cases s <;>
    exact ⟨rfl, rfl, rfl, rfl, rfl, rfl, horder, rfl, rfl, hmarks, fun _ h => h⟩

end Space.Kept

namespace Registry
open Relation (ReflTransGen)

theorem kept_anchored {s t : BasedSpace} {register : Varnode} {size : UInt64} {growsDown : Bool}
    {order : ByteOrder} (h : anchored s register size growsDown order = .ok t) :
    (Space.based s).Kept (.based t) := by
  unfold anchored at h
  obtain ⟨used, -, h⟩ := bind_eq_ok.mp h
  rcases hs : s.anchor with _ | known
  · rw [hs] at h
    cases h
    have hnone : (Space.based s).base? = none := by simp [Space.base?, Space.based?, hs]
    refine ⟨rfl, rfl, rfl, rfl, rfl, rfl, ?_, rfl, rfl, ?_, fun _ h => by rw [hnone] at h; cases h⟩
    · by_cases hused : used ≠ register
      · simp only [if_pos hused]
        exact ByteOrder.ofBig_has_insert (by decide)
      · simp only [if_neg hused]
        rfl
    · intro p hp
      by_cases hused : used ≠ register
      · simp only [if_pos hused]
        exact Properties.has_insert_of_has hp
      · simp only [if_neg hused]
        exact hp
  · rw [hs] at h
    obtain ⟨-, h⟩ := check_eq_ok.mp h
    cases h
    exact .refl _

namespace SpaceStep
variable {r t : Registry}

/-- A space stays at its position. -/
theorem at? (h : SpaceStep r t) {i : Nat} {s : Space} (hs : r.at? i = some s) :
    ∃ s', t.at? i = some s' ∧ s.Kept s' := by
  have hlt : i < r.spaces.length := (List.getElem?_eq_some_iff.mp hs).1
  cases h with
  | insert _ =>
      refine ⟨s, ?_, .refl s⟩
      change (r.spaces ++ _)[i]? = _
      rw [List.getElem?_append_left hlt]
      exact hs
  | adjust id a =>
      change r.spaces[i]? = some s at hs
      change ∃ s', (r.spaces.modify id.index _)[i]? = some s' ∧ _
      rw [List.getElem?_modify, hs]
      by_cases hi : id.index = i
      · exact ⟨s.modifyInfo a.apply, by simp [hi], .adjusted s a⟩
      · exact ⟨s, by simp [hi], .refl s⟩
  | @anchor id registers b b' _ _ _ _ hb hanchored =>
      change ∃ s', (r.spaces.set id.index (.based b'))[i]? = some s' ∧ _
      rw [List.getElem?_set]
      by_cases hi : id.index = i
      · rw [if_pos hi, if_pos (hi ▸ hlt)]
        change r.spaces[id.index]? = some (.based b) at hb
        rw [hi] at hb
        cases hs.symm.trans hb
        exact ⟨_, rfl, kept_anchored hanchored⟩
      · rw [if_neg hi]
        exact ⟨s, hs, .refl s⟩
  | _ => exact ⟨s, hs, .refl s⟩

theorem idInRole? (h : SpaceStep r t) {role : Role} {id : SpaceId}
    (hr : r.idInRole? role = some id) : t.idInRole? role = some id := by
  cases h with
  | insert _ =>
      simp only [Registry.idInRole?, push] at hr ⊢
      split
      · rw [List.lookup_append, hr]
        rfl
      · exact hr
  | _ => exact hr

theorem defaultId (h : SpaceStep r t) {id : SpaceId} (hr : r.defaultId = some id) :
    t.defaultId = some id := by
  cases h with
  | chooseDefault hnone _ _ =>
      rw [hnone] at hr
      cases hr
  | _ => exact hr

theorem joins_eq (h : SpaceStep r t) :
    t.joins = r.joins ∧ t.joinIndex = r.joinIndex ∧ t.joinNext = r.joinNext := by
  cases h <;> exact ⟨rfl, rfl, rfl⟩

end SpaceStep

namespace Step
variable {r t : Registry}

theorem at? (h : Step r t) {i : Nat} {s : Space} (hs : r.at? i = some s) :
    ∃ s', t.at? i = some s' ∧ s.Kept s' := by
  cases h with
  | spaces h => exact h.at? hs
  | join _ _ _ _ => exact ⟨s, hs, .refl s⟩

theorem idInRole? (h : Step r t) {role : Role} {id : SpaceId}
    (hr : r.idInRole? role = some id) : t.idInRole? role = some id := by
  cases h with
  | spaces h => exact h.idInRole? hr
  | join _ _ _ _ => exact hr

theorem isJoinable (h : Step r t) {id : SpaceId} (hid : r.isJoinable id = true) :
    t.isJoinable id = true := by
  unfold Registry.isJoinable at hid ⊢
  rcases hs : r.find? id with _ | s
  · rw [hs] at hid
    cases hid
  · rw [hs] at hid
    obtain ⟨s', hs', hkept⟩ := h.at? hs
    change t.find? id = some s' at hs'
    rw [hs', Option.any_some, hkept.purpose]
    exact hid

theorem mem_joins (h : Step r t) {v : Joined} (hv : v ∈ r.joins) : v ∈ t.joins := by
  cases h with
  | spaces h => exact h.joins_eq.1 ▸ hv
  | join _ _ _ _ => exact List.mem_append_left _ hv

end Step

end Registry

end Pcode
