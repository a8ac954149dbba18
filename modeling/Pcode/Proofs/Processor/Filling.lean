import Pcode.Proofs.Processor.Stages

/-!
# Filling a model

A configuration is taken by a model without a default space and leaves it with one, so that no model
takes two.
-/
namespace Pcode

namespace Registry

theorem chooseDefaultNamed_eq_ok {name : String} {r t : Registry}
    (h : (chooseDefaultNamed name).exec r = (.ok (), t)) :
    r.defaultId = none ∧ ∃ id, t.defaultId = some id := by
  unfold chooseDefaultNamed at h
  rw [Action.exec_get_bind] at h
  split at h
  next => cases h
  next s _ =>
    obtain ⟨hnone, -, rfl⟩ := exec_chooseDefault_ok.mp h
    exact ⟨hnone, s.id, rfl⟩

/-- Spaces are filled in where no default space was chosen, and then one is. -/
theorem fill_eq_ok {e : Xml.Element} {order : ByteOrder} {r t : Registry}
    (h : (fill e order).exec r = (.ok (), t)) :
    r.defaultId = none ∧ ∃ id, t.defaultId = some id := by
  unfold fill at h
  obtain ⟨_, -, h⟩ := Action.exec_liftM_bind_ok.mp h
  obtain ⟨name, -, h⟩ := Action.exec_liftM_bind_ok.mp h
  obtain ⟨_, inserted, hinserted, h⟩ := Action.exec_bind_ok.mp h
  obtain ⟨_, chosen, hchosen, h⟩ := Action.exec_bind_ok.mp h
  obtain ⟨hnone, id, hid⟩ := chooseDefaultNamed_eq_ok hchosen
  constructor
  · rcases hr : r.defaultId with _ | id
    · rfl
    · have hkept := (moves_insertElements order e.children).keeps
        (P := fun u => u.defaultId = some id) (fun h => h.defaultId) hr
      rw [hinserted, hnone] at hkept
      cases hkept
  · have hkept := (moves_insertUsual order).keeps (P := fun u => u.defaultId = some id)
      (fun h => h.defaultId) hid
    rw [h] at hkept
    exact ⟨id, hkept⟩

end Registry

namespace Processor
open Config (Documents)

/-- A complete configuration is taken where no default space was chosen, and then one is. -/
theorem fillAll_eq_ok {d : Documents} {p q : Processor} (h : (fillAll d).exec p = (.ok (), q)) :
    p.registry.defaultId = none ∧ ∃ id, q.registry.defaultId = some id := by
  obtain ⟨_, filled, narrowed, -, hfilled, hnarrowed, -, hanchored⟩ := (takes_of_fillAll h).spaces
  obtain ⟨hnone, id, hid⟩ := Registry.fill_eq_ok hfilled
  refine ⟨hnone, id, ?_⟩
  exact Action.keep_of_steps (P := fun r => r.defaultId = some id) (fun _ _ hstep => hstep.defaultId)
    (hnarrowed.steps.trans hanchored.steps) hid

theorem exec_fill (d : Documents) (p : Processor) :
    (fill d).exec p =
      if p.isFrozen then (.error (.refused (.broken .oneConfiguration)), p)
      else
        match (fillAll d).exec p with
        | (.ok (), filled) => (.ok (), filled)
        | (.error cause, _) => (.error cause, p) := rfl

/-- A configuration that is not taken changes nothing. -/
theorem fill_eq_error {d : Documents} {p q : Processor} {cause : Failure Config.Error}
    (h : (fill d).exec p = (.error cause, q)) : q = p := by
  rw [exec_fill] at h
  split at h
  next =>
    cases h
    rfl
  next =>
    split at h
    next => cases h
    next =>
      cases h
      rfl

/-- A model that is not frozen takes the configuration as a whole. -/
theorem exec_fill_ok {d : Documents} {p q : Processor} :
    (fill d).exec p = (.ok (), q) ↔ p.isFrozen = false ∧ (fillAll d).exec p = (.ok (), q) := by
  rw [exec_fill]
  cases p.isFrozen with
  | true => simp
  | false => rcases (fillAll d).exec p with ⟨_ | ⟨⟨⟩⟩, filled⟩ <;> simp

theorem fill_eq_ok {d : Documents} {p q : Processor} (h : (fill d).exec p = (.ok (), q)) :
    p.registry.defaultId = none ∧ ∃ id, q.registry.defaultId = some id :=
  fillAll_eq_ok (exec_fill_ok.mp h).2

/-- A model with a default space takes no configuration. -/
theorem fill_of_default {p : Processor} {id : SpaceId} (hp : p.registry.defaultId = some id)
    (d : Documents) : ∃ cause, (fill d).exec p = (.error cause, p) := by
  rcases h : (fill d).exec p with ⟨cause | ⟨⟩, q⟩
  · obtain rfl := fill_eq_error h
    exact ⟨cause, rfl⟩
  · rw [(fill_eq_ok h).1] at hp
    cases hp

end Processor

end Pcode
