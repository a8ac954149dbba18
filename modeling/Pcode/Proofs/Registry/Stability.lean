import Pcode.Proofs.Registry.Placement

/-!
# What requests leave alone

Requests add to a registry: spaces, joined values, a default space, the base register of a space.
What it has is not taken away or exchanged. Spaces stay where they are and stay what they are, names,
shortcuts and roles lead to the spaces they led to, and joined values stay in place.
-/
namespace Pcode

/-- Characters that are registered stay so. -/
theorem Shortcut.lookup_assign {taken : List (Char × SpaceId)} {c : Char} {id : SpaceId}
    (h : taken.lookup c = some id) (s : Space) : (assign taken s).2.lookup c = some id := by
  have hlonger : ∀ entry, (taken ++ [entry]).lookup c = some id := by
    intro entry
    rw [List.lookup_append, h]
    rfl
  unfold assign
  split
  next c' _ =>
    simp only
    split
    · exact h
    · exact hlonger _
  next =>
    split
    · exact hlonger _
    · exact h

namespace Registry
open Relation (ReflTransGen)

/-- The registry `t` has what `r` has, in the same places. -/
structure Persists (r t : Registry) : Prop where
  spaces : ∀ i s, r.at? i = some s → ∃ s', t.at? i = some s' ∧ s.Kept s'
  names : ∀ name id, r.idNamed? name = some id → t.idNamed? name = some id
  shortcuts : ∀ c id, r.shortcuts.lookup c = some id → t.shortcuts.lookup c = some id
  roles : ∀ role id, r.idInRole? role = some id → t.idInRole? role = some id
  default : ∀ id, r.defaultId = some id → t.defaultId = some id
  joins : ∀ (i : Nat) (v : Joined), r.joins[i]? = some v → t.joins[i]? = some v
  joinNext : r.joinNext ≤ t.joinNext

namespace Persists
variable {r t u : Registry}

theorem refl (r : Registry) : Persists r r where
  spaces := fun _ s hs => ⟨s, hs, .refl s⟩
  names := fun _ _ h => h
  shortcuts := fun _ _ h => h
  roles := fun _ _ h => h
  default := fun _ h => h
  joins := fun _ _ h => h
  joinNext := UInt64.le_refl _

theorem trans (h : Persists r t) (h' : Persists t u) : Persists r u where
  spaces := by
    intro i s hs
    obtain ⟨s', hs', hkept⟩ := h.spaces i s hs
    obtain ⟨s'', hs'', hkept'⟩ := h'.spaces i s' hs'
    exact ⟨s'', hs'', hkept.trans hkept'⟩
  names := fun name id hid => h'.names name id (h.names name id hid)
  shortcuts := fun c id hid => h'.shortcuts c id (h.shortcuts c id hid)
  roles := fun role id hid => h'.roles role id (h.roles role id hid)
  default := fun id hid => h'.default id (h.default id hid)
  joins := fun i v hv => h'.joins i v (h.joins i v hv)
  joinNext := UInt64.le_trans h.joinNext h'.joinNext

/-- What an entry leads to is there, and what it still leads to is the same space. -/
theorem found (h : Persists r t) {entry entry' : Option SpaceId}
    (hentry : ∀ id, entry = some id → entry' = some id) {s : Space}
    (hs : entry.bind r.find? = some s) : ∃ s', entry'.bind t.find? = some s' ∧ s.Kept s' := by
  obtain ⟨id, hid, hfound⟩ := Option.bind_eq_some_iff.mp hs
  obtain ⟨s', hs', hkept⟩ := h.spaces id.index s hfound
  rw [hentry id hid]
  exact ⟨s', hs', hkept⟩

theorem size_le (h : Persists r t) : r.size ≤ t.size := by
  by_contra hlt
  obtain ⟨s, hs⟩ : ∃ s, r.at? t.size = some s :=
    ⟨_, List.getElem?_eq_getElem (Nat.lt_of_not_le hlt)⟩
  obtain ⟨s', hs', -⟩ := h.spaces _ s hs
  exact Nat.lt_irrefl _ (List.getElem?_eq_some_iff.mp hs').1

end Persists

/-- An inserted space comes behind the others, in the list and in every table. -/
theorem persists_push (r : Registry) (s : Space) (hs : r.Fits s) : Persists r (r.push s) where
  spaces := fun _ _ h => (SpaceStep.insert hs).at? h
  names := by
    intro name id hid
    change (r.names ++ _).lookup name = some id
    rw [List.lookup_append, show r.names.lookup name = some id from hid]
    rfl
  shortcuts := fun _ _ hid => Shortcut.lookup_assign hid s
  roles := fun _ _ hid => (SpaceStep.insert hs).idInRole? hid
  default := fun _ hid => hid
  joins := fun _ _ hv => hv
  joinNext := UInt64.le_refl _

theorem SpaceStep.persists {r t : Registry} (h : SpaceStep r t) : Persists r t := by
  have hspaces : ∀ i s, r.at? i = some s → ∃ s', t.at? i = some s' ∧ s.Kept s' := fun _ _ => h.at?
  have hdefault : ∀ id, r.defaultId = some id → t.defaultId = some id := fun _ => h.defaultId
  cases h with
  | insert hs => exact persists_push r _ hs
  | _ => exact { Persists.refl r with spaces := hspaces, default := hdefault }

/-- A new joined value is placed behind the others. -/
theorem persists_addJoin {r : Registry} {space : SpaceId} {pieces : List Varnode}
    {logical joinNext : UInt64} {value : Joined}
    (h : r.Planned space pieces logical value joinNext) : Persists r (r.addJoin value joinNext) where
  spaces := fun _ s hs => ⟨s, hs, .refl s⟩
  names := fun _ _ hid => hid
  shortcuts := fun _ _ hid => hid
  roles := fun _ _ hid => hid
  default := fun _ hid => hid
  joins := by
    intro i v hv
    have hlt := (List.getElem?_eq_some_iff.mp hv).1
    change (r.joins ++ [value])[i]? = some v
    rw [List.getElem?_append_left hlt, hv]
  joinNext := by
    have hnext := h.next
    change r.joinNext ≤ joinNext
    rw [UInt64.le_iff_toNat_le]
    omega

theorem Step.persists {r t : Registry} (h : Step r t) : Persists r t := by
  cases h with
  | spaces h => exact h.persists
  | join _ _ _ hplan => exact persists_addJoin (planJoin_eq_ok_iff.mp hplan)

theorem persists_of_steps {r t : Registry} (h : ReflTransGen Step r t) : Persists r t :=
  Action.keep_of_steps (P := Persists r) (fun _ _ hstep hr => hr.trans hstep.persists) h (.refl r)

/-- After any requests, granted or refused, a registry has what it had before them. Every space is at
its position, with its index, name, purpose, shortcut, units, delay, container and, if it had one,
its base register. Names, shortcuts, roles and the default lead to the spaces they led to. Joined
values have their positions, pieces and places, and the next one is not placed before where it would
have been. -/
theorem persists_after (r : Registry) (later : List Request) :
    Persists r (r.after later) ∧
    (∀ name s, r.named? name = some s → ∃ s', (r.after later).named? name = some s' ∧ s.Kept s') ∧
    (∀ c s, r.withShortcut? c = some s →
      ∃ s', (r.after later).withShortcut? c = some s' ∧ s.Kept s') ∧
    (∀ role s, r.inRole? role = some s → ∃ s', (r.after later).inRole? role = some s' ∧ s.Kept s') ∧
    ∀ s, r.default? = some s → ∃ s', (r.after later).default? = some s' ∧ s.Kept s' := by
  have h : Persists r (r.after later) := persists_of_steps (steps_after r later)
  refine ⟨h, ?_, ?_, ?_, ?_⟩
  · intro name s
    exact h.found (h.names name)
  · intro c s
    exact h.found (h.shortcuts c)
  · intro role s
    exact h.found (h.roles role)
  · intro s
    exact h.found h.default

end Registry

end Pcode
