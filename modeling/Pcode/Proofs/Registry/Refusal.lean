import Pcode.Proofs.Registry.Adoption
import Pcode.Proofs.Registry.Repeats

/-!
# Refused requests

A request that is refused leaves the registry as it was. Most operations check all their conditions
before they change anything; adoption changes the registry in several steps, and none of them fails
once the target has been found to hold the constant space alone.
-/
namespace Pcode.Registry
open Pcode.Action (AllOrNothing)
open Config (Error)

/-! ## Operations that check first -/

theorem allOrNothing_insert (s : Space) (r : Registry) : AllOrNothing (insert s) r := by
  intro e t h
  rw [exec_insert] at h
  split at h
  next => cases h
  next =>
    cases h
    rfl

theorem allOrNothing_chooseDefault (id : SpaceId) (r : Registry) :
    AllOrNothing (chooseDefault id) r := by
  intro e t h
  rw [exec_chooseDefault] at h
  split at h
  next =>
    cases h
    rfl
  next =>
    split at h
    next =>
      cases h
      rfl
    next =>
      split at h
      next =>
        cases h
        rfl
      next => cases h

theorem allOrNothing_narrow (name : String) (size : UInt64) (r : Registry) :
    AllOrNothing (narrow name size) r := by
  intro e t h
  rw [exec_narrow] at h
  split at h
  next =>
    cases h
    rfl
  next => cases h

theorem allOrNothing_anchor (id : SpaceId) (register : Varnode) (size : UInt64) (growsDown : Bool)
    (r : Registry) : AllOrNothing (anchor id register size growsDown) r := by
  intro e t h
  rw [exec_anchor] at h
  split at h
  next =>
    cases h
    rfl
  next =>
    cases h
    rfl
  next =>
    split at h
    next => cases h
    next =>
      cases h
      rfl
  next =>
    cases h
    rfl

theorem allOrNothing_joinAddress (pieces : List Varnode) (logical : UInt64) (r : Registry) :
    AllOrNothing (joinAddress pieces logical) r :=
  AllOrNothing.bind_pure (fun _ _ => error_join) fun v => v.whole.address

theorem allOrNothing_widen (real : Address) (size logical : UInt64) (r : Registry) :
    AllOrNothing (widen real size logical) r := by
  intro e t h
  rw [exec_widen] at h
  split at h
  next => cases h
  next => exact allOrNothing_joinAddress _ _ r e t h

theorem allOrNothing_concat (hi : Address) (hiSize : UInt64) (lo : Address) (loSize : UInt64)
    (r : Registry) : AllOrNothing (concat hi hiSize lo loSize) r := by
  intro e t h
  rw [exec_concat] at h
  split at h
  next =>
    split at h
    next =>
      split at h
      next => cases h
      next => exact allOrNothing_joinAddress _ _ r e t h
    next =>
      cases h
      rfl
  next =>
    cases h
    rfl

/-! ## Adoption -/

theorem allOrNothing_adopt (sourceHistory history : List Request) :
    AllOrNothing (adopt (start.after sourceHistory)) (start.after history) := by
  intro e t h
  rcases exec_adopt_after sourceHistory history with ⟨u, hok⟩ | hrefused
  · rw [hok] at h
    cases h
  · rw [hrefused] at h
    cases h
    rfl

/-- Every operation on a registry either is granted or leaves the registry exactly as it was:
insertion, the choice of a default space, base registers, narrowing, the adoption of the spaces of
any other registry, and the requests for joined values. -/
theorem refused_unchanged (history : List Request) :
    (∀ s, AllOrNothing (insert s) (start.after history)) ∧
    (∀ id, AllOrNothing (chooseDefault id) (start.after history)) ∧
    (∀ id register size growsDown,
      AllOrNothing (anchor id register size growsDown) (start.after history)) ∧
    (∀ name size, AllOrNothing (narrow name size) (start.after history)) ∧
    (∀ sourceHistory, AllOrNothing (adopt (start.after sourceHistory)) (start.after history)) ∧
    (∀ pieces logical, AllOrNothing (join pieces logical) (start.after history)) ∧
    (∀ real size logical, AllOrNothing (widen real size logical) (start.after history)) ∧
    ∀ hi hiSize lo loSize, AllOrNothing (concat hi hiSize lo loSize) (start.after history) := by
  refine ⟨?_, ?_, ?_, ?_, ?_, ?_, ?_, ?_⟩
  · exact fun s => allOrNothing_insert s _
  · exact fun id => allOrNothing_chooseDefault id _
  · exact fun id register size growsDown => allOrNothing_anchor id register size growsDown _
  · exact fun name size => allOrNothing_narrow name size _
  · exact fun sourceHistory => allOrNothing_adopt sourceHistory history
  · exact fun pieces logical _ _ => error_join
  · exact fun real size logical => allOrNothing_widen real size logical _
  · exact fun hi hiSize lo loSize => allOrNothing_concat hi hiSize lo loSize _

end Pcode.Registry
