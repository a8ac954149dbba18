import Mathlib.Algebra.GroupWithZero.Nat
import Mathlib.Data.List.Forall2
import Mathlib.Data.List.Nodup
import Pcode.Proofs.Registry.Alphabet
import Pcode.Proofs.Registry.Numbering

/-!
# The tables of a registry

Names, roles and shortcuts are kept in tables beside the spaces. Each table finds, for a key, the
first space that has it. No two spaces have one name, and a role goes with one name, so names and
roles are those of one space at most; shortcuts may be shared, but every space has one.
-/
namespace Pcode

/-! ## What insertion adds -/

/-- A space as described, and the same space once it is inserted: it has a shortcut, its own if it
came with one. -/
def Space.Given (s t : Space) : Prop :=
  ∃ c, t = s.modifyInfo (fun d => { d with shortcut := some c }) ∧
    ∀ own, s.info.shortcut = some own → own = c

namespace Space.Given
variable {s t : Space}

theorem index (h : s.Given t) : t.info.index = s.info.index := by
  obtain ⟨c, rfl, -⟩ := h
  rw [info_modifyInfo]

theorem id (h : s.Given t) : t.id = s.id := by
  unfold Space.id SpaceInfo.id
  rw [h.index]

theorem name (h : s.Given t) : t.name = s.name := by
  obtain ⟨c, rfl, -⟩ := h
  unfold Space.name
  rw [info_modifyInfo]

theorem purpose (h : s.Given t) : t.purpose = s.purpose := by
  obtain ⟨c, rfl, -⟩ := h
  unfold Space.purpose
  rw [info_modifyInfo]

theorem wordSize (h : s.Given t) : t.info.wordSize = s.info.wordSize := by
  obtain ⟨c, rfl, -⟩ := h
  rw [info_modifyInfo]

theorem isConstant (h : s.Given t) : t.isConstant = s.isConstant := by
  obtain ⟨c, rfl, -⟩ := h
  cases s <;> rfl

theorem role (h : s.Given t) : Role.ofInfo? t.info = Role.ofInfo? s.info := by
  obtain ⟨c, rfl, -⟩ := h
  rw [info_modifyInfo]
  rfl

theorem shortcut (h : s.Given t) : t.info.shortcut ≠ none := by
  obtain ⟨c, rfl, -⟩ := h
  rw [info_modifyInfo]
  simp

end Space.Given

theorem Space.Kept.role {s t : Space} (h : s.Kept t) :
    Role.ofInfo? t.info = Role.ofInfo? s.info := by
  have hpurpose : t.info.purpose = s.info.purpose := h.purpose
  have hname : t.info.name = s.info.name := h.name
  unfold Role.ofInfo?
  rw [hpurpose, hname]

namespace Shortcut

theorem given_assign (taken : List (Char × SpaceId)) (s : Space) : s.Given (assign taken s).1 := by
  unfold assign
  split
  next c hc =>
    refine ⟨c, ?_, fun own h => Option.some.inj (h.symm.trans hc)⟩
    cases s <;> simp_all [Space.modifyInfo, Space.info] <;> rw [← hc]
  next hnone =>
    split
    next c _ => exact ⟨c, rfl, fun own h => by rw [hnone] at h; cases h⟩
    next => exact ⟨'z', rfl, fun own h => by rw [hnone] at h; cases h⟩

end Shortcut

namespace Registry

/-! ## What a table finds -/

/-- The table finds, for every key, the first space that has it. -/
def Finds {κ : Type} [BEq κ] (table : List (κ × SpaceId)) (key : Space → Option κ)
    (ss : List Space) : Prop :=
  ∀ k, table.lookup k = (ss.find? fun s => key s == some k).map Space.id

namespace Finds
variable {κ : Type} [BEq κ] {table : List (κ × SpaceId)} {key : Space → Option κ}
  {ss ts : List Space} {s : Space} {k : κ}

theorem nil : Finds [] key [] := fun _ => rfl

/-- Steps that keep what the key depends on keep what the table finds. -/
theorem kept (h : Finds table key ss) (hkept : List.Forall₂ Space.Kept ss ts)
    (hkey : ∀ {s t : Space}, s.Kept t → key t = key s) : Finds table key ts := by
  intro k
  rw [h k]
  clear h
  induction hkept with
  | nil => rfl
  | @cons s t ss ts hst _ ih =>
      rw [List.find?_cons, List.find?_cons, hkey hst]
      cases key s == some k with
      | true =>
          change some s.id = some t.id
          unfold Space.id SpaceInfo.id
          rw [hst.index]
      | false => exact ih

/-- A space without a key is appended without an entry. -/
theorem append_of_none (h : Finds table key ss) (hs : key s = none) :
    Finds table key (ss ++ [s]) := by
  intro k
  rw [h k, List.find?_append]
  simp [hs]

variable [LawfulBEq κ]

/-- The table misses the keys that no space has. -/
theorem lookup_eq_none_iff (h : Finds table key ss) :
    table.lookup k = none ↔ ∀ s ∈ ss, key s ≠ some k := by
  rw [h k, Option.map_eq_none_iff, List.find?_eq_none]
  simp

/-- A space whose key is taken is appended without an entry. -/
theorem append_of_taken (h : Finds table key ss) (hs : key s = some k)
    (htaken : (table.lookup k).isSome = true) : Finds table key (ss ++ [s]) := by
  intro k'
  rw [h k', List.find?_append]
  by_cases hk : k = k'
  · subst hk
    rw [h k, Option.isSome_map] at htaken
    rw [Option.or_of_isSome htaken]
  · simp [hs, hk]

theorem append (h : Finds table key ss) (hs : key s = some k) :
    Finds (table ++ [(k, s.id)]) key (ss ++ [s]) := by
  intro k'
  rw [List.lookup_append, h k', List.find?_append]
  by_cases hk : k = k'
  · subst hk
    cases ss.find? fun s => key s == some k <;> simp [hs]
  · have hmissed : [(k, s.id)].lookup k' = none := by
      simpa [List.lookup_eq_none_iff] using fun h => hk h.symm
    simp [hs, hk, hmissed]

end Finds

/-! ## The tables after every step -/

section Push
variable {r : Registry} (s : Space)

theorem finds_names_push (h : Finds r.names (fun s => some s.name) r.spaces) :
    Finds (r.push s).names (fun s => some s.name) (r.push s).spaces := by
  have hgiven := Shortcut.given_assign r.shortcuts s
  have hnew := h.append (s := (Shortcut.assign r.shortcuts s).1) (congrArg some hgiven.name)
  rw [hgiven.id] at hnew
  exact hnew

theorem finds_roles_push (h : Finds r.roles (fun s => Role.ofInfo? s.info) r.spaces) :
    Finds (r.push s).roles (fun s => Role.ofInfo? s.info) (r.push s).spaces := by
  have hgiven := Shortcut.given_assign r.shortcuts s
  have hrole := hgiven.role
  unfold push
  simp only
  split
  next role hsome =>
    have hnew := h.append (hrole.trans hsome)
    rw [hgiven.id] at hnew
    exact hnew
  next hnone => exact h.append_of_none (hrole.trans hnone)

theorem finds_shortcuts_push (h : Finds r.shortcuts (fun s => s.info.shortcut) r.spaces) :
    Finds (r.push s).shortcuts (fun s => s.info.shortcut) (r.push s).spaces := by
  change Finds (Shortcut.assign r.shortcuts s).2 _ (r.spaces ++ [(Shortcut.assign r.shortcuts s).1])
  unfold Shortcut.assign
  split
  next c hc =>
    simp only
    split
    next htaken => exact h.append_of_taken hc htaken
    next => exact h.append hc
  next =>
    split
    next c _ =>
      have hnew := h.append (s := s.modifyInfo fun d => { d with shortcut := some c }) (k := c)
        (by rw [Space.info_modifyInfo])
      have hid : (s.modifyInfo fun d => { d with shortcut := some c }).id = s.id := by
        unfold Space.id
        rw [Space.info_modifyInfo]
        rfl
      rw [hid] at hnew
      exact hnew
    next hnone =>
      -- no letter is free, so `z` is taken
      have htaken := Shortcut.isSome_lookup_of_free?_eq_none hnone
        (.inr (Shortcut.mem_letters_iff (c := 'z').mpr (by decide)))
      refine h.append_of_taken ?_ htaken
      rw [Space.info_modifyInfo]

end Push

/-- The tables are those of the spaces. -/
structure Tabled (r : Registry) : Prop where
  names : Finds r.names (fun s => some s.name) r.spaces
  roles : Finds r.roles (fun s => Role.ofInfo? s.info) r.spaces
  shortcuts : Finds r.shortcuts (fun s => s.info.shortcut) r.spaces
  resolvers : r.resolvers.length = r.size
  pos : 0 < r.size
  distinct : (r.spaces.map Space.name).Nodup
  reserved : ∀ s ∈ r.spaces, ∀ name, s.purpose.reservedName? = some name → s.name = name
  marked : ∀ s ∈ r.spaces, s.info.shortcut ≠ none
  constant : ∀ i s, r.at? i = some s → (s.purpose = .constant ↔ i = 0)

theorem tabled_start : Tabled start where
  names := finds_names_push _ Finds.nil
  roles := finds_roles_push _ Finds.nil
  shortcuts := finds_shortcuts_push _ Finds.nil
  resolvers := rfl
  pos := by decide
  distinct := by decide
  reserved := by
    intro s hs name hname
    obtain rfl := List.mem_singleton.mp hs
    cases hname
  marked := by
    intro s hs
    obtain rfl := List.mem_singleton.mp hs
    decide
  constant := by
    intro i s hs
    cases i with
    | zero =>
        cases hs
        decide
    | succ i => cases hs

/-- A space that fits has a name of its own. -/
theorem Tabled.name_ne_of_fits {r : Registry} (hr : Tabled r) {s : Space} (hs : r.Fits s)
    {t : Space} (ht : t ∈ r.spaces) : t.name ≠ s.name := by
  intro h
  exact hr.names.lookup_eq_none_iff.mp hs.name t ht (congrArg some h)

theorem Tabled.push {r : Registry} (hr : Tabled r) {s : Space} (hs : r.Fits s) :
    Tabled (r.push s) := by
  have hgiven := Shortcut.given_assign r.shortcuts s
  have hspaces : (r.push s).spaces = r.spaces ++ [(Shortcut.assign r.shortcuts s).1] := rfl
  refine ⟨finds_names_push s hr.names, finds_roles_push s hr.roles,
    finds_shortcuts_push s hr.shortcuts, ?_, ?_, ?_, ?_, ?_, ?_⟩
  · change (r.resolvers ++ [none]).length = _
    rw [size_push, List.length_append, hr.resolvers, List.length_singleton]
  · rw [size_push]
    exact Nat.succ_pos _
  · rw [hspaces, List.map_append, List.map_singleton, hgiven.name, List.nodup_append]
    refine ⟨hr.distinct, List.nodup_singleton _, ?_⟩
    intro n hn m hm
    obtain ⟨t, ht, rfl⟩ := List.mem_map.mp hn
    obtain rfl := List.mem_singleton.mp hm
    exact hr.name_ne_of_fits hs ht
  · rw [hspaces]
    intro t ht name hname
    rcases List.mem_append.mp ht with hold | hnew
    · exact hr.reserved t hold name hname
    · obtain rfl := List.mem_singleton.mp hnew
      rw [hgiven.purpose] at hname
      rw [hgiven.name]
      exact hs.reserved name hname
  · rw [hspaces]
    intro t ht
    rcases List.mem_append.mp ht with hold | hnew
    · exact hr.marked t hold
    · obtain rfl := List.mem_singleton.mp hnew
      exact hgiven.shortcut
  · intro i t ht
    have hpos : 0 < r.spaces.length := hr.pos
    change (r.spaces ++ _)[i]? = _ at ht
    rcases Nat.lt_or_ge i r.spaces.length with hi | hi
    · rw [List.getElem?_append_left hi] at ht
      exact hr.constant i t ht
    · rw [List.getElem?_append_right hi] at ht
      obtain rfl := List.mem_singleton.mp (List.mem_of_getElem? ht)
      rw [hgiven.purpose]
      exact iff_of_false hs.purpose (by omega)

/-- Where a space stands in one list, one that goes with it stands in the other. -/
theorem exists_at?_of_forall₂ {R : Space → Space → Prop} {ss ts : List Space}
    (h : List.Forall₂ R ss ts) {i : Nat} {t : Space} (ht : ts[i]? = some t) :
    ∃ s, ss[i]? = some s ∧ R s t := by
  induction h generalizing i with
  | nil => cases ht
  | cons hst _ ih =>
      cases i with
      | zero =>
          cases ht
          exact ⟨_, rfl, hst⟩
      | succ i => exact ih ht

theorem exists_mem_of_forall₂ {R : Space → Space → Prop} {ss ts : List Space}
    (h : List.Forall₂ R ss ts) {t : Space} (ht : t ∈ ts) : ∃ s ∈ ss, R s t := by
  obtain ⟨i, hi⟩ := List.mem_iff_getElem?.mp ht
  obtain ⟨s, hs, hst⟩ := exists_at?_of_forall₂ h hi
  exact ⟨s, List.mem_of_getElem? hs, hst⟩

theorem map_name_of_forall₂ {ss ts : List Space} (h : List.Forall₂ Space.Kept ss ts) :
    ss.map Space.name = ts.map Space.name := by
  induction h with
  | nil => rfl
  | cons hst _ ih => rw [List.map_cons, List.map_cons, hst.name, ih]

/-- A change that keeps the spaces and the tables. -/
theorem Tabled.kept {r t : Registry} (hr : Tabled r)
    (hspaces : List.Forall₂ Space.Kept r.spaces t.spaces) (hnames : t.names = r.names)
    (hroles : t.roles = r.roles) (hshortcuts : t.shortcuts = r.shortcuts)
    (hresolvers : t.resolvers.length = r.resolvers.length) : Tabled t where
  names := hnames ▸ hr.names.kept hspaces fun h => congrArg some h.name
  roles := hroles ▸ hr.roles.kept hspaces fun h => h.role
  shortcuts := hshortcuts ▸ hr.shortcuts.kept hspaces fun h => h.shortcut
  resolvers := hresolvers.trans (hr.resolvers.trans hspaces.length_eq)
  pos := by
    unfold size
    rw [← hspaces.length_eq]
    exact hr.pos
  distinct := map_name_of_forall₂ hspaces ▸ hr.distinct
  reserved := by
    intro t ht name hname
    obtain ⟨s, hs, hst⟩ := exists_mem_of_forall₂ hspaces ht
    rw [hst.purpose] at hname
    rw [hst.name]
    exact hr.reserved s hs name hname
  marked := by
    intro t ht
    obtain ⟨s, hs, hst⟩ := exists_mem_of_forall₂ hspaces ht
    rw [hst.shortcut]
    exact hr.marked s hs
  constant := by
    intro i t ht
    obtain ⟨s, hs, hst⟩ := exists_at?_of_forall₂ hspaces ht
    rw [hst.purpose]
    exact hr.constant i s hs

theorem SpaceStep.forall₂_kept {r t : Registry} (h : SpaceStep r t)
    (hsize : r.spaces.length = t.spaces.length) :
    List.Forall₂ Space.Kept r.spaces t.spaces := by
  refine List.forall₂_of_length_eq_of_get hsize ?_
  intro i hi hi'
  obtain ⟨s, hs, hkept⟩ := h.at? (List.getElem?_eq_getElem hi)
  obtain ⟨_, rfl⟩ := List.getElem?_eq_some_iff.mp hs
  exact hkept

theorem SpaceStep.tabled {r t : Registry} (h : SpaceStep r t) (hr : Tabled r) : Tabled t := by
  have hkept := h.forall₂_kept
  cases h with
  | insert hfits => exact hr.push hfits
  | chooseDefault _ _ _ => exact hr.kept (hkept rfl) rfl rfl rfl rfl
  | adjust id a => exact hr.kept (hkept (List.length_modify ..).symm) rfl rfl rfl rfl
  | anchor _ _ _ => exact hr.kept (hkept (List.length_set ..).symm) rfl rfl rfl rfl
  | resolve hlength => exact hr.kept (hkept rfl) rfl rfl rfl hlength

theorem Step.tabled {r t : Registry} (h : Step r t) (hr : Tabled r) : Tabled t := by
  cases h with
  | spaces h => exact h.tabled hr
  | join _ _ _ _ =>
      exact hr.kept (List.forall₂_same.mpr fun s _ => Space.Kept.refl s) rfl rfl rfl rfl

theorem tabled_after (history : List Request) : Tabled (start.after history) :=
  holds_after tabled_start Step.tabled history

end Registry
end Pcode
