import Mathlib.Data.List.Dedup
import Mathlib.Data.List.Induction
import Pcode.Proofs.Actions
import Pcode.Proofs.Locations
import Pcode.RegisterFile

/-!
# Names and locations

Whatever is defined, in whatever order, the two tables of a register file agree: a name has the
location it was first defined at, and a location is reported by the name that was first given to it.
-/
namespace Pcode.RegisterFile

/-! ## Tables -/

section Table
variable {κ α : Type} [BEq κ] [LawfulBEq κ] {table : List (κ × α)}

theorem isSome_lookup_iff {key : κ} :
    (table.lookup key).isSome ↔ key ∈ table.map Prod.fst := by
  rw [List.lookup_isSome_iff, List.mem_map]
  constructor
  · intro ⟨e, he, hkey⟩
    exact ⟨e, he, (beq_iff_eq.mp hkey).symm⟩
  · intro ⟨e, he, hkey⟩
    exact ⟨e, he, beq_iff_eq.mpr hkey.symm⟩

variable (h : (table.map Prod.fst).Nodup)
include h

theorem lookup_eq_some_iff_mem (key : κ) (value : α) :
    table.lookup key = some value ↔ (key, value) ∈ table := by
  induction table with
  | nil => simp
  | cons e es ih =>
      rw [List.map_cons, List.nodup_cons] at h
      rw [List.lookup_cons, List.mem_cons]
      by_cases hkey : key = e.1
      · have hout : (key, value) ∉ es := by
          intro hmem
          exact h.1 (hkey ▸ List.mem_map_of_mem hmem)
        rw [beq_iff_eq.mpr hkey]
        rcases e with ⟨first, known⟩
        change some known = some value ↔ _
        obtain rfl : key = first := hkey
        simp [hout, eq_comm]
      · have hne : (key, value) ≠ e := by
          rintro rfl
          exact hkey rfl
        rw [beq_eq_false_iff_ne.mpr hkey]
        simp [hne, ih h.2]

theorem nodup_snoc {key : κ} (hnew : table.lookup key = none) (value : α) :
    ((table ++ [(key, value)]).map Prod.fst).Nodup := by
  rw [List.map_append, List.map_singleton, List.nodup_append]
  refine ⟨h, List.nodup_singleton _, ?_⟩
  intro known hknown last hlast
  cases List.mem_singleton.mp hlast
  obtain ⟨e, he, rfl⟩ := List.mem_map.mp hknown
  have hne := List.lookup_eq_none_iff.mp hnew e he
  exact fun heq => (bne_iff_ne.mp hne) heq.symm

end Table

/-! ## Definitions -/

/-- What is found by location is found by name. -/
structure Indexed (f : RegisterFile) : Prop where
  byName : ∀ name location, (name, location) ∈ f.byName → f.location? name = some location
  byLocation : ∀ location name, (location, name) ∈ f.byLocation → f.location? name = some location

theorem indexed_empty : Indexed empty where
  byName := by simp [empty]
  byLocation := by simp [empty]

theorem location?_push (f : RegisterFile) (name : String) (location : Varnode) (name' : String) :
    (f.push name location).location? name' =
      (f.location? name').or (if name' = name then some location else none) := by
  change (f.byName ++ [(name, location)]).lookup name' = _
  rw [List.lookup_append, List.lookup_cons]
  by_cases h : name' = name
  · simp [h, location?]
  · simp [h, beq_eq_false_iff_ne.mpr h, location?]

/-- A location keeps the name it has. -/
theorem name?_push (f : RegisterFile) (name : String) (location location' : Varnode) :
    (f.push name location).name? location' =
      (f.name? location').or (if location' = location then some name else none) := by
  change (if (f.name? location).isSome then f.byLocation else f.byLocation ++ [(location, name)]).lookup
    location' = _
  by_cases h : location' = location
  · subst h
    rw [if_pos rfl]
    cases hknown : f.name? location' with
    | some known => exact hknown
    | none =>
        change (f.byLocation ++ [(location', name)]).lookup location' = _
        rw [List.lookup_append]
        unfold name? at hknown
        rw [hknown, List.lookup_cons, BEq.rfl]
  · rw [if_neg h, Option.or_none]
    split
    next => rfl
    next =>
      rw [List.lookup_append, List.lookup_cons, beq_eq_false_iff_ne.mpr h]
      exact Option.or_none

theorem exec_define (name : String) (location : Varnode) (f : RegisterFile) :
    (define name location).exec f =
      match f.location? name with
      | some known => (if known ≠ location then .error (.registerTaken name) else .ok (), f)
      | none => (.ok (), f.push name location) := by
  unfold define
  rw [Action.exec_get_bind]
  rcases f.location? name with _ | known
  · rfl
  · by_cases h : known = location <;> simp [h]

theorem exec_define_ok {name : String} {location : Varnode} {f g : RegisterFile} {u : Unit} :
    (define name location).exec f = (.ok u, g) ↔
      f.location? name = some location ∧ f = g ∨
        f.location? name = none ∧ f.push name location = g := by
  rw [exec_define]
  rcases f.location? name with _ | known
  · simp
  · by_cases h : known = location <;> simp [h]

/-- A definition is refused when its name has another location, and changes nothing then. -/
theorem exec_define_error {name : String} {location : Varnode} {f g : RegisterFile}
    {e : Config.Error} :
    (define name location).exec f = (.error e, g) ↔
      (∃ known, f.location? name = some known ∧ known ≠ location) ∧
        e = .registerTaken name ∧ g = f := by
  rw [exec_define]
  rcases f.location? name with _ | known
  · simp
  · by_cases h : known = location
    · simp [h]
    · simp only [ne_eq, h, not_false_eq_true, if_true, Prod.mk.injEq, Except.error.injEq,
        Option.some.injEq, exists_eq_left', true_and]
      exact and_congr eq_comm eq_comm

section Define
variable {name : String} {location : Varnode} {f g : RegisterFile} {u : Unit}
  (h : (define name location).exec f = (.ok u, g))
include h

/-- After a definition the name has the location, and every other name has what it had. -/
theorem location?_define (name' : String) (location' : Varnode) :
    g.location? name' = some location' ↔
      f.location? name' = some location' ∨ name' = name ∧ location' = location := by
  rcases exec_define_ok.mp h with ⟨hknown, rfl⟩ | ⟨hnew, rfl⟩
  · constructor
    · exact .inl
    · intro hor
      rcases hor with hold | ⟨rfl, rfl⟩
      · exact hold
      · exact hknown
  · rw [location?_push]
    by_cases hname : name' = name
    · subst hname
      simp [hnew, eq_comm]
    · simp [hname]

theorem Indexed.define (hf : Indexed f) : Indexed g := by
  have hkept : ∀ {n w}, f.location? n = some w → g.location? n = some w :=
    fun hold => (location?_define h _ _).mpr (.inl hold)
  have hnew : g.location? name = some location := (location?_define h _ _).mpr (.inr ⟨rfl, rfl⟩)
  rcases exec_define_ok.mp h with ⟨-, rfl⟩ | ⟨-, rfl⟩
  · exact hf
  · refine ⟨?_, ?_⟩
    · intro n w hmem
      rcases List.mem_append.mp hmem with hold | hlast
      · exact hkept (hf.byName n w hold)
      · cases List.mem_singleton.mp hlast
        exact hnew
    · intro w n hmem
      change (w, n) ∈ (if _ then _ else _) at hmem
      split at hmem
      next => exact hkept (hf.byLocation w n hmem)
      next =>
        rcases List.mem_append.mp hmem with hold | hlast
        · exact hkept (hf.byLocation w n hold)
        · cases List.mem_singleton.mp hlast
          exact hnew

end Define

/-! ## Histories -/

/-- The file that a definition leaves behind, whether it is granted or not. -/
def perform (f : RegisterFile) (d : String × Varnode) : RegisterFile :=
  ((define d.1 d.2).exec f).2

/-- The file after a history of definitions. -/
def after (history : List (String × Varnode)) : RegisterFile := history.foldl perform empty

def grants (f : RegisterFile) (d : String × Varnode) : Bool := ((define d.1 d.2).exec f).1.isOk

/-- The definitions of a history that are granted, in their order, from a file on. -/
def granted (f : RegisterFile) : List (String × Varnode) → List (String × Varnode)
  | [] => []
  | d :: rest =>
    if grants f d then d :: granted (perform f d) rest else granted (perform f d) rest

theorem granted_append (f : RegisterFile) (xs ys : List (String × Varnode)) :
    granted f (xs ++ ys) = granted f xs ++ granted (xs.foldl perform f) ys := by
  induction xs generalizing f with
  | nil => rfl
  | cons d xs ih =>
      rw [List.cons_append, List.foldl_cons, granted, granted, ih]
      split
      next => rfl
      next => rfl

theorem granted_snoc (history : List (String × Varnode)) (d : String × Varnode) :
    granted empty (history ++ [d]) =
      granted empty history ++ if grants (after history) d then [d] else [] :=
  granted_append empty history [d]

theorem after_snoc (history : List (String × Varnode)) (d : String × Varnode) :
    after (history ++ [d]) = perform (after history) d :=
  List.foldl_concat ..

/-- The two tables of a file after a history of definitions. -/
structure Tied (f : RegisterFile) (history : List (String × Varnode)) : Prop where
  location? : ∀ name, f.location? name = history.lookup name
  name? : ∀ location,
    f.name? location = ((granted empty history).find? fun d => d.2 == location).map Prod.fst
  named : ∀ name location, f.location? name = some location → (f.name? location).isSome
  located : ∀ name location, f.name? location = some name → f.location? name = some location
  nodupNames : (f.byName.map Prod.fst).Nodup
  nodupLocations : (f.byLocation.map Prod.fst).Nodup

theorem tied_empty : Tied empty [] where
  location? := by intro name; rfl
  name? := by intro location; rfl
  named := by intro name location h; cases h
  located := by intro name location h; cases h
  nodupNames := List.nodup_nil
  nodupLocations := List.nodup_nil

section Step
variable {history : List (String × Varnode)} {name : String} {location : Varnode}

theorem lookup_snoc (asked : String) :
    (history ++ [(name, location)]).lookup asked =
      (history.lookup asked).or (if asked = name then some location else none) := by
  rw [List.lookup_append, List.lookup_cons]
  by_cases h : asked = name
  · rw [if_pos h, beq_iff_eq.mpr h]
  · rw [if_neg h, beq_eq_false_iff_ne.mpr h]
    rfl

/-- A definition of a name that is known changes nothing. -/
theorem Tied.known {f : RegisterFile} (h : Tied f history) {known : Varnode}
    (hknown : f.location? name = some known)
    (hgranted : granted empty (history ++ [(name, location)]) =
      granted empty history ++ if known = location then [(name, location)] else []) :
    Tied f (history ++ [(name, location)]) where
  location? := by
    intro asked
    rw [lookup_snoc, ← h.location?]
    by_cases hasked : asked = name
    · rw [hasked, hknown, Option.some_or]
    · rw [if_neg hasked, Option.or_none]
  name? := by
    intro asked
    rw [hgranted, List.find?_append, Option.map_or, ← h.name?]
    by_cases hlast : known = location ∧ location = asked
    · obtain ⟨rfl, rfl⟩ := hlast
      obtain ⟨first, hfirst⟩ := Option.isSome_iff_exists.mp (h.named _ _ hknown)
      rw [hfirst, Option.some_or]
    · have hnone : (if known = location then [(name, location)] else []).find?
          (fun d => d.2 == asked) = none := by
        split
        next heq => simpa [heq] using hlast
        next => rfl
      rw [hnone, Option.map_none, Option.or_none]
  named := h.named
  located := h.located
  nodupNames := h.nodupNames
  nodupLocations := h.nodupLocations

/-- A definition of a new name adds it to both tables. -/
theorem Tied.push {f : RegisterFile} (h : Tied f history) (hnew : f.location? name = none)
    (hgranted : granted empty (history ++ [(name, location)]) =
      granted empty history ++ [(name, location)]) :
    Tied (f.push name location) (history ++ [(name, location)]) where
  location? := by
    intro asked
    rw [lookup_snoc, location?_push, h.location?]
  name? := by
    intro asked
    rw [hgranted, List.find?_append, Option.map_or, ← h.name?, name?_push, List.find?_singleton]
    by_cases hasked : asked = location
    · simp [hasked]
    · simp [hasked, Ne.symm hasked]
  named := by
    intro n w hw
    rw [location?_push] at hw
    rw [name?_push, Option.isSome_or]
    rcases Option.or_eq_some_iff.mp hw with hold | ⟨-, hlast⟩
    · rw [h.named n w hold, Bool.true_or]
    · split at hlast
      next =>
        cases hlast
        rw [if_pos rfl, Option.isSome_some, Bool.or_true]
      next => cases hlast
  located := by
    intro n w hn
    rw [name?_push] at hn
    rw [location?_push]
    rcases Option.or_eq_some_iff.mp hn with hold | ⟨-, hlast⟩
    · rw [h.located n w hold, Option.some_or]
    · split at hlast
      next heq =>
        cases hlast
        rw [hnew, if_pos rfl, heq, Option.none_or]
      next => cases hlast
  nodupNames := nodup_snoc h.nodupNames hnew location
  nodupLocations := by
    change ((if _ then _ else _ : List (Varnode × String)).map Prod.fst).Nodup
    split
    next => exact h.nodupLocations
    next hfree => exact nodup_snoc h.nodupLocations (Option.not_isSome_iff_eq_none.mp hfree) name

/-- What holds of the tables holds after one more definition. -/
theorem Tied.snoc (h : Tied (after history) history) (d : String × Varnode) :
    Tied (after (history ++ [d])) (history ++ [d]) := by
  rcases d with ⟨name, location⟩
  have hexec := exec_define name location (after history)
  have hgranted := granted_snoc history (name, location)
  rw [after_snoc]
  unfold RegisterFile.perform grants at *
  rw [hexec] at hgranted ⊢
  rcases hlookup : (after history).location? name with _ | known
  · rw [hlookup] at hgranted
    exact h.push hlookup hgranted
  · rw [hlookup] at hgranted
    refine h.known hlookup (hgranted.trans ?_)
    by_cases heq : known = location <;> simp [heq, Except.isOk, Except.toBool]

end Step

theorem tied_after (history : List (String × Varnode)) : Tied (after history) history := by
  induction history using List.reverseRecOn with
  | nil => exact tied_empty
  | append_singleton history d ih => exact ih.snoc d

/-! ## The listing by location -/

/-- Listed locations come in strictly increasing order. -/
theorem Tied.pairwise_locations {f : RegisterFile} {history : List (String × Varnode)}
    (h : Tied f history) : f.locations.Pairwise fun a b => compare a.1 b.1 = .lt := by
  have hperm : f.locations.Perm f.byLocation := List.mergeSort_perm ..
  have hsorted : f.locations.Pairwise fun a b => (compare a.1 b.1).isLE = true := by
    apply List.pairwise_mergeSort
    · intro a b c hab hbc
      exact Std.TransCmp.isLE_trans hab hbc
    · intro a b
      have hswap : compare b.1 a.1 = (compare a.1 b.1).swap := Std.OrientedCmp.eq_swap
      rw [hswap]
      cases compare a.1 b.1 <;> rfl
  have hdistinct : f.locations.Pairwise fun a b => a.1 ≠ b.1 :=
    List.pairwise_map.mp ((hperm.map Prod.fst).nodup_iff.mpr h.nodupLocations)
  refine (hsorted.and hdistinct).imp ?_
  intro a b ⟨hle, hne⟩
  cases hcompare : compare a.1 b.1 with
  | lt => rfl
  | eq => exact absurd (Std.LawfulEqCmp.eq_of_compare hcompare) hne
  | gt =>
      rw [hcompare] at hle
      cases hle

theorem Tied.mem_locations_iff {f : RegisterFile} {history : List (String × Varnode)}
    (h : Tied f history) (location : Varnode) (name : String) :
    (location, name) ∈ f.locations ↔ f.name? location = some name := by
  have hperm : f.locations.Perm f.byLocation := List.mergeSort_perm ..
  rw [hperm.mem_iff]
  exact (lookup_eq_some_iff_mem h.nodupLocations location name).symm

/-- There are as many names as different ones were defined. -/
theorem Tied.size_eq {f : RegisterFile} {history : List (String × Varnode)} (h : Tied f history) :
    f.size = (history.map Prod.fst).dedup.length := by
  have hsame : ∀ name, name ∈ f.byName.map Prod.fst ↔ name ∈ history.map Prod.fst := by
    intro name
    have hlookup : f.byName.lookup name = history.lookup name := h.location? name
    rw [← isSome_lookup_iff, ← isSome_lookup_iff, hlookup]
  have hperm : (f.byName.map Prod.fst).Perm (history.map Prod.fst).dedup := by
    rw [List.perm_ext_iff_of_nodup h.nodupNames (List.nodup_dedup _)]
    intro name
    rw [List.mem_dedup, hsame]
  rw [← hperm.length_eq, List.length_map]
  rfl

/-! ## Both ways -/

/-- What the register file after a history tells, whichever way it is asked. -/
structure TwoWay (history : List (String × Varnode)) : Prop where
  /-- A name has the location of its first definition. -/
  location? : ∀ name, (after history).location? name = history.lookup name
  keeps : ∀ name location later, (after history).location? name = some location →
    (after (history ++ later)).location? name = some location
  refused_iff : ∀ name location,
    (∃ e f, (define name location).exec (after history) = (.error e, f)) ↔
      ∃ known, (after history).location? name = some known ∧ known ≠ location
  refused : ∀ name location e f, (define name location).exec (after history) = (.error e, f) →
    e = .registerTaken name ∧ f = after history
  /-- A location has a name when a granted definition was of this very location. -/
  isSome_name?_iff : ∀ location, ((after history).name? location).isSome ↔
    ∃ name, (name, location) ∈ granted empty history
  /-- The name of a location is the one in the first of these definitions. -/
  name? : ∀ location, (after history).name? location =
    ((granted empty history).find? fun d => d.2 == location).map Prod.fst
  location?_of_name? : ∀ location name, (after history).name? location = some name →
    (after history).location? name = some location
  increasing : (after history).locations.Pairwise fun a b => compare a.1 b.1 = .lt
  mem_locations_iff : ∀ location name, (location, name) ∈ (after history).locations ↔
    (after history).name? location = some name
  size : (after history).size = (history.map Prod.fst).dedup.length

/-- After every history of definitions, granted and refused, names and locations are told of each
other as the history has them. -/
theorem names_and_locations_agree (history : List (String × Varnode)) : TwoWay history := by
  have h := tied_after history
  refine
    { location? := h.location?
      keeps := ?_
      refused_iff := ?_
      refused := fun _ _ _ _ hexec => (exec_define_error.mp hexec).2
      isSome_name?_iff := ?_
      name? := h.name?
      location?_of_name? := fun location name => h.located name location
      increasing := h.pairwise_locations
      mem_locations_iff := h.mem_locations_iff
      size := h.size_eq }
  · intro name location later hknown
    rw [h.location?] at hknown
    rw [(tied_after (history ++ later)).location?, List.lookup_append, hknown, Option.some_or]
  · intro name location
    constructor
    · intro ⟨e, f, hexec⟩
      exact (exec_define_error.mp hexec).1
    · intro hknown
      exact ⟨_, _, exec_define_error.mpr ⟨hknown, rfl, rfl⟩⟩
  · intro location
    rw [h.name?, Option.isSome_map, List.find?_isSome]
    constructor
    · intro ⟨d, hd, heq⟩
      exact ⟨d.1, beq_iff_eq.mp heq ▸ hd⟩
    · intro ⟨name, hmem⟩
      exact ⟨_, hmem, BEq.rfl⟩

end Pcode.RegisterFile
