import Pcode.Proofs.Registry.Insertion
import Pcode.Proofs.Registry.Stability

/-!
# Adoption

A registry that holds the constant space alone takes in the spaces of another one by one. Whatever
has become of both, every space fits in its turn and is stored as it is in the source, and tables
that find the same among the same spaces are tables of the same content: what is built again by
insertion is the layout of the source, with no joined values.
-/
namespace Pcode

/-! ## Spaces that are stored as they are -/

theorem Space.modifyInfo_of_eq {f : SpaceInfo → SpaceInfo} {s : Space} (h : f s.info = s.info) :
    s.modifyInfo f = s := by
  cases s <;> simp_all only [Space.modifyInfo, Space.info]

/-- A space that comes with a shortcut is stored as it is. -/
theorem Space.Given.eq_of_marked {s t : Space} (h : s.Given t) (hs : s.info.shortcut ≠ none) :
    t = s := by
  obtain ⟨c, rfl, hown⟩ := h
  obtain ⟨own, hmark⟩ := Option.ne_none_iff_exists'.mp hs
  obtain rfl := hown own hmark
  apply Space.modifyInfo_of_eq
  rw [← hmark]

namespace Registry

theorem eq_of_given {ss added : List Space} (h : List.Forall₂ Space.Given ss added)
    (hmarked : ∀ s ∈ ss, s.info.shortcut ≠ none) : added = ss := by
  induction h with
  | nil => rfl
  | cons hst _ ih =>
      rw [List.forall_mem_cons] at hmarked
      rw [hst.eq_of_marked hmarked.1, ih hmarked.2]

/-- Tables agree when they find the same among the same spaces behind their first ones. -/
theorem Finds.lookup_eq {κ : Type} [BEq κ] {table table' : List (κ × SpaceId)}
    {key : Space → Option κ} {s t : Space} {rest : List Space} (h : Finds table key (s :: rest))
    (h' : Finds table' key (t :: rest)) (hkey : key t = key s) (hid : t.id = s.id) (k : κ) :
    table'.lookup k = table.lookup k := by
  rw [h k, h' k, List.find?_cons, List.find?_cons, hkey]
  cases key s == some k with
  | true => exact congrArg some hid
  | false => rfl

/-! ## Registries without joined values -/

/-- Without a space for them there are no joined values. -/
def JoinsNeedSpace (r : Registry) : Prop :=
  r.idInRole? .joins = none → r.joins = [] ∧ r.joinIndex = [] ∧ r.joinNext = 0

theorem joinsNeedSpace_start : JoinsNeedSpace start := fun _ => ⟨rfl, rfl, rfl⟩

theorem Step.joinsNeedSpace {r t : Registry} (h : Step r t) (hr : JoinsNeedSpace r) :
    JoinsNeedSpace t := by
  intro hnone
  have hbefore : r.idInRole? .joins = none := by
    rcases hrole : r.idInRole? .joins with _ | id
    · rfl
    · rw [h.idInRole? hrole] at hnone
      cases hnone
  cases h with
  | spaces h =>
      obtain ⟨hjoins, hindex, hnext⟩ := h.joins_eq
      rw [hjoins, hindex, hnext]
      exact hr hbefore
  | join hspace _ _ _ =>
      rw [hspace] at hbefore
      cases hbefore

theorem joinsNeedSpace_after (history : List Request) : JoinsNeedSpace (start.after history) :=
  holds_after joinsNeedSpace_start Step.joinsNeedSpace history

/-! ## Taking in the spaces -/

/-- The default space, when there is one, can be chosen again by another registry. -/
def DefaultUsable (r : Registry) : Prop :=
  ∀ id, r.defaultId = some id → ∃ s, r.find? id = some s ∧ s.isConstant = false

theorem defaultUsable_start : DefaultUsable start := by
  intro id hid
  cases hid

theorem Step.defaultUsable {r t : Registry} (h : Step r t) (hr : DefaultUsable r) :
    DefaultUsable t := by
  have hkept : ∀ id, r.defaultId = some id → ∃ s, t.find? id = some s ∧ s.isConstant = false := by
    intro id hid
    obtain ⟨s, hs, hform⟩ := hr id hid
    obtain ⟨s', hs', hkept⟩ := h.at? hs
    exact ⟨s', hs', hkept.form.trans hform⟩
  cases h with
  | spaces h =>
      cases h with
      | chooseDefault _ hs hform =>
          intro id hid
          cases hid
          exact ⟨_, hs, hform⟩
      | _ => exact hkept
  | join _ _ _ _ => exact hkept

theorem defaultUsable_after (history : List Request) : DefaultUsable (start.after history) :=
  holds_after defaultUsable_start Step.defaultUsable history

/-- The first space is that of constants, as it was at the start. -/
theorem spaces_after (history : List Request) :
    ∃ first rest, (start.after history).spaces = first :: rest ∧ constants.Kept first := by
  obtain ⟨first, hfirst, hkept⟩ :=
    (persists_of_steps (steps_after start history)).spaces 0 constants rfl
  change (start.after history).spaces[0]? = some first at hfirst
  rcases hspaces : (start.after history).spaces with _ | ⟨s, rest⟩
  · rw [hspaces] at hfirst
    cases hfirst
  · rw [hspaces] at hfirst
    cases hfirst
    exact ⟨first, rest, rfl, hkept⟩

theorem spaces_of_size_one {history : List Request} (hsize : (start.after history).size = 1) :
    ∃ first, (start.after history).spaces = [first] ∧ constants.Kept first := by
  obtain ⟨first, rest, hspaces, hkept⟩ := spaces_after history
  change (start.after history).spaces.length = 1 at hsize
  rw [hspaces, List.length_cons, Nat.succ.injEq, List.length_eq_zero_iff] at hsize
  exact ⟨first, hsize ▸ hspaces, hkept⟩

section Adoption
variable {source r : Registry} {s t : Space} {rest : List Space}

/-- The spaces of one registry, less the first, fit behind the first of another. -/
theorem fitBehind_rest (hnumbered : Numbered source) (htabled : Tabled source)
    (hsource : source.spaces = s :: rest) (hr : r.spaces = [t]) (hname : t.name = s.name) :
    FitBehind r rest := by
  have hat : ∀ k u, rest[k]? = some u → source.at? (k + 1) = some u := by
    intro k u hu
    change source.spaces[k + 1]? = some u
    rw [hsource]
    exact hu
  refine ⟨?_, ?_, ?_, ?_⟩
  · intro k u hu
    have hsize : r.size = 1 := congrArg List.length hr
    rw [hnumbered _ u (hat k u hu), hsize, Nat.add_comm]
  · intro u hu hpurpose
    obtain ⟨k, hk⟩ := List.mem_iff_getElem?.mp hu
    exact absurd ((htabled.constant _ u (hat k u hk)).mp hpurpose) (Nat.succ_ne_zero k)
  · intro u hu
    exact htabled.reserved u (hsource ▸ List.mem_cons_of_mem s hu)
  · have hdistinct := htabled.distinct
    rw [hsource, List.map_cons] at hdistinct
    rw [hr, List.singleton_append, List.map_cons, hname]
    exact hdistinct

/-- A registry that holds the constant space alone has no default space. -/
theorem DefaultKnown.defaultId_eq_none (hr : DefaultKnown r) (hsize : r.size = 1) :
    r.defaultId = none := by
  rcases hdefault : r.defaultId with _ | id
  · rfl
  · obtain ⟨hne, u, hu⟩ := hr.known id hdefault
    have hlt : id.index < r.size := (List.getElem?_eq_some_iff.mp hu).1
    omega

theorem exec_adopt_of_size (hsize : r.size = 1) {filled : Registry}
    (hfilled : (insertAll (source.spaces.drop 1)).exec r = (.ok (), filled)) :
    (adopt source).exec r =
      match source.defaultId with
      | some id => (chooseDefault id).exec (takeResolvers source filled)
      | none => (.ok (), takeResolvers source filled) := by
  unfold adopt
  rw [Action.exec_get_bind, if_neg (not_not.mpr hsize)]
  simp only
  rw [Action.exec_bind_of_ok hfilled, Action.exec_bind_of_ok (Action.exec_modify _ _)]
  cases source.defaultId <;> rfl

end Adoption

/-- A registry that holds the constant space alone takes in all other spaces of any registry as they
are. -/
theorem exec_insertAll_rest (sourceHistory history : List Request)
    (hsize : (start.after history).size = 1) :
    ∃ filled, (insertAll ((start.after sourceHistory).spaces.drop 1)).exec (start.after history) =
        (.ok (), filled) ∧ filled.defaultId = none ∧ Tabled filled ∧
      filled.spaces = (start.after history).spaces ++ (start.after sourceHistory).spaces.drop 1 := by
  obtain ⟨s, rest, hsource, hs⟩ := spaces_after sourceHistory
  obtain ⟨t, hr, ht⟩ := spaces_of_size_one hsize
  have htabled := tabled_after sourceHistory
  have hfit := fitBehind_rest (numbered_after sourceHistory) htabled
    hsource hr (ht.name.trans hs.name.symm)
  obtain ⟨hiff, hfilled⟩ := exec_insertAll_ok (tabled_after history) rest
  obtain ⟨filled, hexec⟩ := hiff.mpr hfit
  obtain ⟨hfilledTabled, hdefault, added, hspaces, hadded⟩ := hfilled filled hexec
  have hmarked : ∀ u ∈ rest, u.info.shortcut ≠ none := fun u hu =>
    htabled.marked u (hsource ▸ List.mem_cons_of_mem s hu)
  refine ⟨filled, ?_, ?_, hfilledTabled, ?_⟩
  · rw [hsource]
    exact hexec
  · exact hdefault.trans ((defaultKnown_after history).defaultId_eq_none hsize)
  · rw [hspaces, eq_of_given hadded hmarked, hsource, List.drop_one, List.tail_cons]

/-- Behind the first spaces of two registries the same spaces are found. -/
theorem at?_of_spaces {source t : Registry} {first s : Space} {rest : List Space}
    (hsource : source.spaces = s :: rest) (ht : t.spaces = first :: rest) {i : Nat} (hi : i ≠ 0) :
    t.at? i = source.at? i := by
  obtain ⟨k, rfl⟩ := Nat.exists_eq_succ_of_ne_zero hi
  unfold at?
  rw [hsource, ht, List.getElem?_cons_succ, List.getElem?_cons_succ]

/-- Resolvers for as many spaces are all replaced. -/
theorem resolvers_takeResolvers {source r : Registry}
    (hlength : r.resolvers.length = source.resolvers.length) :
    (takeResolvers source r).resolvers = source.resolvers := by
  apply List.ext_getElem?
  intro i
  change (r.resolvers.mapIdx fun i known => (source.resolvers[i]?).getD known)[i]? = _
  rw [List.getElem?_mapIdx]
  rcases Nat.lt_or_ge i source.resolvers.length with hi | hi
  · have hi' : i < r.resolvers.length := hlength ▸ hi
    rw [List.getElem?_eq_getElem hi', List.getElem?_eq_getElem hi]
    rfl
  · have hi' : r.resolvers.length ≤ i := hlength ▸ hi
    rw [List.getElem?_eq_none hi', List.getElem?_eq_none hi]
    rfl

/-- What is taken over as it is by a registry that holds the constant space alone. -/
structure Adopted (source r t : Registry) : Prop where
  spaces : t.spaces = r.spaces ++ source.spaces.drop 1
  resolvers : t.resolvers = source.resolvers
  defaultId : t.defaultId = source.defaultId

theorem exec_adopt_fresh (sourceHistory history : List Request)
    (hsize : (start.after history).size = 1) :
    ∃ t, (adopt (start.after sourceHistory)).exec (start.after history) = (.ok (), t) ∧
      Adopted (start.after sourceHistory) (start.after history) t := by
  obtain ⟨s, rest, hsource, -⟩ := spaces_after sourceHistory
  obtain ⟨filled, hexec, hnone, htabled, hspaces⟩ :=
    exec_insertAll_rest sourceHistory history hsize
  have hsame : filled.size = (start.after sourceHistory).size := by
    have hone : (start.after history).spaces.length = 1 := hsize
    unfold size
    rw [hspaces, hsource, List.length_append, hone, List.drop_one, List.tail_cons,
      List.length_cons, Nat.add_comm]
  have hresolvers := resolvers_takeResolvers
    (htabled.resolvers.trans (hsame.trans (tabled_after sourceHistory).resolvers.symm))
  rw [exec_adopt_of_size hsize hexec]
  rcases hid : (start.after sourceHistory).defaultId with _ | id
  · exact ⟨_, rfl, hspaces, hresolvers, hnone.trans hid.symm⟩
  · obtain ⟨u, hu, hform⟩ := defaultUsable_after sourceHistory id hid
    have hne := ((defaultKnown_after sourceHistory).known id hid).1
    obtain ⟨first, hr, -⟩ := spaces_of_size_one hsize
    have hfilled : filled.find? id = some u := by
      rw [hr, hsource] at hspaces
      exact (at?_of_spaces hsource hspaces hne).trans hu
    exact ⟨_, exec_chooseDefault_ok.mpr ⟨hnone, ⟨u, hfilled, hform⟩, rfl⟩, hspaces, hresolvers,
      hid.symm⟩

theorem exec_adopt_of_size_ne {source r : Registry} (hsize : r.size ≠ 1) :
    (adopt source).exec r = (.error (.broken .freshTarget), r) := by
  unfold adopt
  rw [Action.exec_get_bind, if_pos hsize]
  rfl

/-- Adoption is granted exactly when the target holds the constant space alone, whatever has become
of both registries. -/
theorem exec_adopt_after (sourceHistory history : List Request) :
    (∃ t, (adopt (start.after sourceHistory)).exec (start.after history) = (.ok (), t)) ∨
      (adopt (start.after sourceHistory)).exec (start.after history) =
        (.error (.broken .freshTarget), start.after history) := by
  by_cases hsize : (start.after history).size = 1
  · obtain ⟨t, hexec, -⟩ := exec_adopt_fresh sourceHistory history hsize
    exact .inl ⟨t, hexec⟩
  · exact .inr (exec_adopt_of_size_ne hsize)

/-! ## The same layout -/

/-- A registry with the spaces of another, but for that of constants, found in the same ways, and
without joined values. -/
structure Reproduces (source t : Registry) : Prop where
  size : t.size = source.size
  at? : ∀ i, i ≠ 0 → t.at? i = source.at? i
  idNamed? : ∀ name, t.idNamed? name = source.idNamed? name
  idWithShortcut? : ∀ c, t.shortcuts.lookup c = source.shortcuts.lookup c
  idInRole? : ∀ role, t.idInRole? role = source.idInRole? role
  defaultId : t.defaultId = source.defaultId
  resolvers : t.resolvers = source.resolvers
  resolve? : ∀ id, id.index ≠ 0 → ∀ value size point,
    t.resolve? id value size point = source.resolve? id value size point
  joins : t.joins = []
  joinIndex : t.joinIndex = []
  joinNext : t.joinNext = 0

/-- A registry that holds the constant space alone has no joined values, and adoption makes none. -/
theorem joins_of_adopt {source : Registry} {history : List Request} {t : Registry}
    (hsize : (start.after history).size = 1)
    (hexec : (adopt source).exec (start.after history) = (.ok (), t)) :
    t.joins = [] ∧ t.joinIndex = [] ∧ t.joinNext = 0 := by
  obtain ⟨first, hr, hfirst⟩ := spaces_of_size_one hsize
  have hroles := (tabled_after history).roles
  rw [hr] at hroles
  have hnone : (start.after history).idInRole? .joins = none := by
    apply hroles.lookup_eq_none_iff.mpr
    intro s hs
    obtain rfl := List.mem_singleton.mp hs
    rw [hfirst.role]
    decide
  have hkept := (moves_adopt source).keeps
    (P := fun u => u.joins = [] ∧ u.joinIndex = [] ∧ u.joinNext = 0)
    (fun hstep hu => by
      obtain ⟨hjoins, hindex, hnext⟩ := hstep.joins_eq
      rwa [hjoins, hindex, hnext])
    (joinsNeedSpace_after history hnone)
  rwa [hexec] at hkept

theorem reproduces_of_adopted {sourceHistory history : List Request} {t : Registry}
    (hsize : (start.after history).size = 1)
    (hexec : (adopt (start.after sourceHistory)).exec (start.after history) = (.ok (), t))
    (h : Adopted (start.after sourceHistory) (start.after history) t) :
    Reproduces (start.after sourceHistory) t := by
  obtain ⟨s, rest, hsource, hs⟩ := spaces_after sourceHistory
  obtain ⟨first, hr, hfirst⟩ := spaces_of_size_one hsize
  have ht : t.spaces = first :: rest := by
    rw [h.spaces, hr, hsource]
    rfl
  have hat : ∀ i, i ≠ 0 → t.at? i = (start.after sourceHistory).at? i :=
    fun i hi => at?_of_spaces hsource ht hi
  have htabled : Tabled t := by
    have hkept := (moves_adopt (start.after sourceHistory)).keeps SpaceStep.tabled
      (tabled_after history)
    rwa [hexec] at hkept
  have hsourceTabled := tabled_after sourceHistory
  -- the first spaces need not be equal, but their keys and handles are
  have hid : first.id = s.id := hfirst.id.trans hs.id.symm
  obtain ⟨hjoins, hindex, hnext⟩ := joins_of_adopt hsize hexec
  refine
    { size := ?_
      at? := hat
      idNamed? := ?_
      idWithShortcut? := ?_
      idInRole? := ?_
      defaultId := h.defaultId
      resolvers := h.resolvers
      resolve? := ?_
      joins := hjoins
      joinIndex := hindex
      joinNext := hnext }
  · unfold size
    rw [ht, hsource, List.length_cons, List.length_cons]
  · exact (hsource ▸ hsourceTabled.names).lookup_eq (ht ▸ htabled.names)
      (congrArg some (hfirst.name.trans hs.name.symm)) hid
  · exact (hsource ▸ hsourceTabled.shortcuts).lookup_eq (ht ▸ htabled.shortcuts)
      (hfirst.shortcut.trans hs.shortcut.symm) hid
  · exact (hsource ▸ hsourceTabled.roles).lookup_eq (ht ▸ htabled.roles)
      (hfirst.role.trans hs.role.symm) hid
  · intro id hne value size point
    unfold resolve? find?
    rw [h.resolvers, hat _ hne]

/-- Adoption fails exactly when the target holds more than the constant space. Otherwise, whatever
has become of the source and the target, the target has the layout of the source afterwards. -/
theorem adoption_reproduces (sourceHistory history : List Request) :
    (1 < (start.after history).size →
      (adopt (start.after sourceHistory)).exec (start.after history) =
        (.error (.broken .freshTarget), start.after history)) ∧
    (¬1 < (start.after history).size →
      ∃ t, (adopt (start.after sourceHistory)).exec (start.after history) = (.ok (), t) ∧
        Reproduces (start.after sourceHistory) t) := by
  refine ⟨fun hmore => exec_adopt_of_size_ne (Nat.ne_of_gt hmore), ?_⟩
  intro hsmall
  have hpos := (tabled_after history).pos
  have hsize : (start.after history).size = 1 := by omega
  obtain ⟨t, hexec, hadopted⟩ := exec_adopt_fresh sourceHistory history hsize
  exact ⟨t, hexec, reproduces_of_adopted hsize hexec hadopted⟩

end Registry

end Pcode
