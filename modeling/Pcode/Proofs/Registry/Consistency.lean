import Pcode.Proofs.Registry.Tables

/-!
# Consistency of a registry

Whatever requests a registry has met, all ways to find a space lead to the same space: its position,
its handle, the constant that denotes it, its name and its role. Handles have 32 bits, so this holds
as long as the registry has no more spaces than there are handles.
-/
namespace Pcode

/-- The spaces that a role is for. -/
def Role.GoesTo : Role → Space → Prop
  | .temporaries, s => s.purpose = .temporary
  | .callSpecs, s => s.purpose = .callSpec
  | .opReferences, s => s.purpose = .opReference
  | .joins, s => s.purpose = .joined
  | .stack, s => s.purpose = .based ∧ s.name = "stack"

theorem Role.ofInfo?_eq_some_iff {role : Role} {s : Space} :
    ofInfo? s.info = some role ↔ role.GoesTo s := by
  unfold ofInfo?
  cases role <;> cases h : s.info.purpose <;> simp [GoesTo, Space.purpose, Space.name, h]

/-- The name of the space that has the role. -/
def Role.spaceName : Role → String
  | .temporaries => "unique"
  | .callSpecs => "fspec"
  | .opReferences => "iop"
  | .joins => "join"
  | .stack => "stack"

theorem Role.GoesTo.name {role : Role} {s : Space} (h : role.GoesTo s)
    (hreserved : ∀ name, s.purpose.reservedName? = some name → s.name = name) :
    s.name = role.spaceName := by
  cases role with
  | stack => exact h.2
  | _ =>
      apply hreserved
      rw [h]
      rfl

namespace Registry

/-! ## The default space -/

/-- The space at position zero has the form of constants, and the default space is another one. -/
structure DefaultKnown (r : Registry) : Prop where
  first : ∃ info, r.at? 0 = some (.constant info)
  known : ∀ id, r.defaultId = some id → id.index ≠ 0 ∧ ∃ s, r.find? id = some s

theorem defaultKnown_start : DefaultKnown start where
  first := ⟨_, rfl⟩
  known _ h := by cases h

theorem SpaceStep.first {r t : Registry} (h : SpaceStep r t)
    (hr : ∃ info, r.at? 0 = some (.constant info)) : ∃ info, t.at? 0 = some (.constant info) := by
  obtain ⟨info, hinfo⟩ := hr
  have hpos := (List.getElem?_eq_some_iff.mp hinfo).1
  cases h with
  | insert _ =>
      refine ⟨info, ?_⟩
      change (r.spaces ++ _)[0]? = _
      rw [List.getElem?_append_left hpos]
      exact hinfo
  | adjust id a =>
      change ∃ info, (r.spaces.modify id.index _)[0]? = _
      change r.spaces[0]? = _ at hinfo
      rw [List.getElem?_modify, hinfo]
      by_cases hid : id.index = 0
      · exact ⟨a.apply info, by simp [hid, Space.modifyInfo]⟩
      · exact ⟨info, by simp [hid]⟩
  | @anchor id _ _ _ _ _ _ _ hbased _ =>
      refine ⟨info, ?_⟩
      have hid : id.index ≠ 0 := by
        intro hid
        change r.at? id.index = _ at hbased
        rw [hid, hinfo] at hbased
        cases hbased
      change (r.spaces.set id.index _)[0]? = _
      rw [List.getElem?_set_ne hid]
      exact hinfo
  | _ => exact ⟨info, hinfo⟩

theorem Step.defaultKnown {r t : Registry} (h : Step r t) (hr : DefaultKnown r) :
    DefaultKnown t := by
  have hkept : ∀ id, r.defaultId = some id → id.index ≠ 0 ∧ ∃ s, t.find? id = some s := by
    intro id hid
    obtain ⟨hne, s, hs⟩ := hr.known id hid
    obtain ⟨s', hs', -⟩ := h.at? hs
    exact ⟨hne, s', hs'⟩
  cases h with
  | spaces h =>
      refine ⟨h.first hr.first, ?_⟩
      cases h with
      | @chooseDefault id s _ hs hform =>
          intro id' hid'
          cases hid'
          refine ⟨?_, s, hs⟩
          intro hzero
          obtain ⟨info, hinfo⟩ := hr.first
          change r.at? id.index = _ at hs
          rw [hzero, hinfo] at hs
          cases hs
          cases hform
      | _ => exact hkept
  | join _ _ _ _ => exact ⟨hr.first, hkept⟩

theorem defaultKnown_after (history : List Request) : DefaultKnown (start.after history) :=
  holds_after defaultKnown_start Step.defaultKnown history

/-! ## All ways to find a space -/

section Found
variable {r : Registry} (hr : r.Numbered) (hsize : r.size < 2 ^ 32)
include hr hsize

theorem Numbered.index_id {i : Nat} {s : Space} (hs : r.at? i = some s) : s.id.index = i := by
  have hlt : i < r.size := (List.getElem?_eq_some_iff.mp hs).1
  change (SpaceId.ofIndex s.info.index).index = i
  rw [SpaceId.index_ofIndex, hr i s hs, Nat.mod_eq_of_lt]
  exact Nat.lt_trans hlt hsize

theorem Numbered.find?_id {s : Space} (hs : s ∈ r.spaces) : r.find? s.id = some s := by
  obtain ⟨i, hi⟩ := List.mem_iff_getElem?.mp hs
  unfold find?
  rw [hr.index_id hsize hi]
  exact hi

/-- What a table finds leads to the space itself. -/
theorem Numbered.bind_lookup {κ : Type} [BEq κ] {table : List (κ × SpaceId)}
    {key : Space → Option κ} (h : Finds table key r.spaces) (k : κ) :
    (table.lookup k).bind r.find? = r.spaces.find? fun s => key s == some k := by
  rw [h k]
  cases hfind : r.spaces.find? fun s => key s == some k with
  | none => rfl
  | some s => exact hr.find?_id hsize (List.mem_of_find?_eq_some hfind)

theorem Numbered.after?_id {i : Nat} {s : Space} (hs : r.at? i = some s) :
    r.after? (some s.id) = (r.at? (i + 1)).map Space.id := by
  change (r.at? (s.id.index + 1)).map Space.id = _
  rw [hr.index_id hsize hs]

/-- A walk that stands before position `i` meets the spaces from there on. -/
theorem Numbered.walk_eq (n : Nat) {i : Nat} {id : Option SpaceId}
    (h : r.after? id = (r.at? i).map Space.id) :
    r.walk n id = ((r.spaces.drop i).take n).map Space.id := by
  induction n generalizing i id with
  | zero => simp [walk]
  | succ n ih =>
      unfold walk
      rw [h]
      rcases hs : r.at? i with _ | s
      · have hge := List.getElem?_eq_none_iff.mp hs
        simp [List.drop_eq_nil_of_le hge]
      · obtain ⟨hlt, hget⟩ := List.getElem?_eq_some_iff.mp hs
        have hrest := ih (hr.after?_id hsize hs)
        rw [List.drop_eq_getElem_cons hlt, hget]
        simp [hrest]

end Found

/-- In a list without a repetition of names, a space is found by what only its name can have. -/
theorem find?_eq_some_iff {ss : List Space} (hss : (ss.map Space.name).Nodup) {p : Space → Bool}
    (name : String) (hp : ∀ s ∈ ss, p s = true → s.name = name) {s : Space} :
    ss.find? p = some s ↔ s ∈ ss ∧ p s = true := by
  constructor
  · intro h
    exact ⟨List.mem_of_find?_eq_some h, List.find?_some h⟩
  · intro h
    obtain ⟨hmem, hs⟩ := h
    rcases hfind : ss.find? p with _ | t
    · exact absurd hs (List.find?_eq_none.mp hfind s hmem)
    · have ht := List.mem_of_find?_eq_some hfind
      have hname := (hp t ht (List.find?_some hfind)).trans (hp s hmem hs).symm
      rw [List.inj_on_of_nodup_map hss ht hmem hname]

theorem Tabled.name_of_role {r : Registry} (hr : Tabled r) {s : Space} (hs : s ∈ r.spaces)
    {role : Role} (h : role.GoesTo s) : s.name = role.spaceName :=
  h.name (hr.reserved s hs)

/-- A name finds the space that has it. -/
theorem Tabled.named?_eq_some_iff {r : Registry} (hr : Tabled r) (hnumbered : r.Numbered)
    (hsize : r.size < 2 ^ 32) {name : String} {s : Space} :
    r.named? name = some s ↔ s ∈ r.spaces ∧ s.name = name := by
  change (r.names.lookup name).bind r.find? = some s ↔ _
  rw [hnumbered.bind_lookup hsize hr.names name, find?_eq_some_iff hr.distinct name]
  · simp
  · intro t _ hname
    simpa using hname

/-- In a table of roles there is the space that a role goes to, and no other. -/
theorem Tabled.find?_role_eq_some_iff {r : Registry} (hr : Tabled r) {role : Role} {s : Space} :
    r.spaces.find? (fun s => Role.ofInfo? s.info == some role) = some s ↔
      s ∈ r.spaces ∧ role.GoesTo s := by
  rw [find?_eq_some_iff hr.distinct role.spaceName, beq_iff_eq,
    Role.ofInfo?_eq_some_iff]
  intro t ht hrole
  rw [beq_iff_eq, Role.ofInfo?_eq_some_iff] at hrole
  exact hr.name_of_role ht hrole

theorem Tabled.idInRole?_eq_some_iff {r : Registry} (hr : Tabled r) {role : Role} {id : SpaceId} :
    r.idInRole? role = some id ↔ ∃ s ∈ r.spaces, role.GoesTo s ∧ s.id = id := by
  change r.roles.lookup role = some id ↔ _
  rw [hr.roles role, Option.map_eq_some_iff]
  simp only [hr.find?_role_eq_some_iff, and_assoc]

/-- All ways to find a space agree. -/
structure Consistent (r : Registry) : Prop where
  /-- The space at a position has this index, and its handle stands for this position. -/
  index : ∀ i s, r.at? i = some s → s.info.index.toNat = i ∧ s.id.index = i
  /-- The handle of a space finds it. -/
  found : ∀ i s, r.at? i = some s → r.find? s.id = some s
  /-- The constant that stands for a space denotes it. -/
  denoted : ∀ i s, r.at? i = some s →
    (Address.denoting s.id).space = .constant ∧
      r.denoted? (Address.denoting s.id).offset = some s
  /-- After a space comes the one at the next position. -/
  after : ∀ i s, r.at? i = some s → r.after? (some s.id) = (r.at? (i + 1)).map Space.id
  /-- A walk from the start meets every space once, in order, and then ends. -/
  walk : ∀ n, r.walk n none = (r.spaces.take n).map Space.id
  names : (r.spaces.map Space.name).Nodup
  /-- A name finds the space that has it, and nothing where no space does. -/
  named : ∀ name s, r.named? name = some s ↔ s ∈ r.spaces ∧ s.name = name
  /-- The space at position zero, which exists, is the only one of constants. -/
  constant : (∃ s, r.at? 0 = some s) ∧ ∀ i s, r.at? i = some s → (s.purpose = .constant ↔ i = 0)
  /-- A role is held by the handle of the space it goes to, which is the only such space, and by
  none where there is no such space. -/
  idInRole : ∀ role id, r.idInRole? role = some id ↔ ∃ s ∈ r.spaces, role.GoesTo s ∧ s.id = id
  inRole : ∀ role s, r.inRole? role = some s ↔ s ∈ r.spaces ∧ role.GoesTo s
  /-- The default space is defined and is not the space at position zero. -/
  default : ∀ id, r.defaultId = some id → id.index ≠ 0 ∧ ∃ s, r.find? id = some s
  /-- Every space has a shortcut, and a shortcut finds the first space that has it. -/
  shortcut : (∀ s ∈ r.spaces, s.info.shortcut ≠ none) ∧
    ∀ c, r.withShortcut? c = r.spaces.find? fun s => s.info.shortcut == some c
  /-- Every space has a place for a resolver. -/
  resolvers : r.resolvers.length = r.size

/-- A registry that has no more spaces than handles is consistent after every history of requests,
refused ones included. -/
theorem consistent_after {history : List Request} (hsize : (start.after history).size < 2 ^ 32) :
    Consistent (start.after history) := by
  have hnumbered := numbered_after history
  have htabled := tabled_after history
  have hdefault := defaultKnown_after history
  generalize start.after history = r at *
  refine ⟨?_, ?_, ?_, ?_, ?_, htabled.distinct, ?_, ?_, ?_, ?_, hdefault.known,
    ⟨htabled.marked, ?_⟩, htabled.resolvers⟩
  · intro i s hs
    exact ⟨hnumbered i s hs, hnumbered.index_id hsize hs⟩
  · intro i s hs
    exact hnumbered.find?_id hsize (List.mem_of_getElem? hs)
  · intro i s hs
    refine ⟨rfl, ?_⟩
    have hfound := hnumbered.find?_id hsize (List.mem_of_getElem? hs)
    unfold denoted? Address.denoting Address.constant
    rw [UInt32.toNat_toUInt64]
    exact hfound
  · intro i s hs
    exact hnumbered.after?_id hsize hs
  · intro n
    exact hnumbered.walk_eq hsize n rfl
  · intro name s
    exact htabled.named?_eq_some_iff hnumbered hsize
  · exact ⟨⟨_, List.getElem?_eq_getElem htabled.pos⟩, htabled.constant⟩
  · intro role id
    exact htabled.idInRole?_eq_some_iff
  · intro role s
    change (r.roles.lookup role).bind r.find? = some s ↔ _
    rw [hnumbered.bind_lookup hsize htabled.roles role, htabled.find?_role_eq_some_iff]
  · exact hnumbered.bind_lookup hsize htabled.shortcuts

/-- Requests of which some are refused: an index out of order, a name and a default space that are
taken. -/
def someRefused : List Request :=
  [.insert (.ofMemory "ram" 1 4 1 .little 1), .insert (.ofMemory "rom" 3 4 1 .little 1),
    .insert (.ofMemory "ram" 2 4 1 .little 1), .insert (.ofTemporaries "unique" 2 .little),
    .chooseDefault ⟨1⟩, .chooseDefault ⟨2⟩, .reverseJustify ⟨7⟩, .insert (.ofJoins 3)]

theorem consistent_after_someRefused :
    (start.after someRefused).size < 2 ^ 32 ∧ Consistent (start.after someRefused) := by
  have hsize : (start.after someRefused).size = 4 := by decide +kernel
  have hlt : (start.after someRefused).size < 2 ^ 32 := by
    rw [hsize]
    decide
  exact ⟨hlt, consistent_after hlt⟩

end Registry

end Pcode
