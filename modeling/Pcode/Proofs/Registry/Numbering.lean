import Pcode.Proofs.Registry.Kept

/-!
# Numbering of spaces

The spaces of a registry are numbered by their positions, so that a handle taken from a space finds
that space again.
-/
namespace Pcode

/-- A space that is given its character stays what it is otherwise. -/
theorem Shortcut.index_assign (taken : List (Char × SpaceId)) (s : Space) :
    (assign taken s).1.info.index = s.info.index := by
  unfold assign
  split
  next => rfl
  next =>
    split
    next => rw [Space.info_modifyInfo]
    next => rw [Space.info_modifyInfo]

namespace Registry

/-- The index of every space is its position. -/
def Numbered (r : Registry) : Prop := ∀ i s, r.at? i = some s → s.info.index.toNat = i

theorem numbered_start : Numbered start := by
  intro i s hs
  cases i with
  | zero =>
      cases hs
      rfl
  | succ i => cases hs

/-- A space that was not there before is the one inserted. -/
theorem SpaceStep.index_of_new {r t : Registry} (h : SpaceStep r t) {i : Nat} {s : Space}
    (hi : r.at? i = none) (hs : t.at? i = some s) : s.info.index.toNat = i := by
  have hlt := (List.getElem?_eq_some_iff.mp hs).1
  have hge := List.getElem?_eq_none_iff.mp hi
  cases h with
  | @insert s' hfits =>
      change i < (r.spaces ++ _).length at hlt
      rw [List.length_append, List.length_singleton] at hlt
      have hlast : i = r.spaces.length := by omega
      change (r.spaces ++ [(Shortcut.assign r.shortcuts s').1])[i]? = some s at hs
      rw [hlast, List.getElem?_concat_length, Option.some.injEq] at hs
      rw [← hs, Shortcut.index_assign, hfits.index, hlast]
      rfl
  | adjust id a =>
      change i < (r.spaces.modify _ _).length at hlt
      rw [List.length_modify] at hlt
      omega
  | anchor _ _ _ =>
      change i < (r.spaces.set _ _).length at hlt
      rw [List.length_set] at hlt
      omega
  | chooseDefault _ _ _ => exact absurd (hi.symm.trans hs) (by simp)
  | resolve _ => exact absurd (hi.symm.trans hs) (by simp)

theorem Step.numbered {r t : Registry} (h : Step r t) (hr : Numbered r) : Numbered t := by
  intro i s hs
  rcases hold : r.at? i with _ | s'
  · cases h with
    | spaces h => exact h.index_of_new hold hs
    | join _ _ _ _ => exact absurd (hold.symm.trans hs) (by simp)
  · obtain ⟨s'', hs'', hkept⟩ := h.at? hold
    cases hs.symm.trans hs''
    rw [hkept.index]
    exact hr i s' hold

theorem numbered_after (history : List Request) : Numbered (start.after history) :=
  holds_after numbered_start Step.numbered history

/-- A space that a handle finds has this handle. -/
theorem Numbered.id_of_find? {r : Registry} (hr : Numbered r) {id : SpaceId} {s : Space}
    (hs : r.find? id = some s) : s.id = id := by
  have hindex := hr _ s hs
  rcases id with ⟨value⟩
  change SpaceId.mk s.info.index.toUInt32 = ⟨value⟩
  congr 1
  apply UInt32.toNat_inj.mp
  rw [UInt64.toNat_toUInt32, hindex]
  exact Nat.mod_eq_of_lt value.toNat_lt

end Registry

end Pcode
