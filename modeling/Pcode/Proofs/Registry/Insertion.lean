import Pcode.Proofs.Registry.Listing

/-!
# Inserting several spaces

Spaces are all inserted exactly when their indices go on from those there are and all names differ.
They then stand in order behind the spaces that were there.
-/
namespace Pcode.Registry

/-- The spaces may be inserted one after the other: their indices go on from those of the registry,
their names are those reserved for their purposes, and no two names agree. -/
structure FitBehind (r : Registry) (ss : List Space) : Prop where
  index : ∀ k s, ss[k]? = some s → s.info.index.toNat = r.size + k
  purpose : ∀ s ∈ ss, s.purpose ≠ .constant
  reserved : ∀ s ∈ ss, ∀ name, s.purpose.reservedName? = some name → s.name = name
  names : ((r.spaces ++ ss).map Space.name).Nodup

theorem map_name_push (r : Registry) (s : Space) (ss : List Space) :
    ((r.push s).spaces ++ ss).map Space.name = (r.spaces ++ s :: ss).map Space.name := by
  have hname := (Shortcut.given_assign r.shortcuts s).name
  change ((r.spaces ++ [(Shortcut.assign r.shortcuts s).1]) ++ ss).map Space.name = _
  simp [hname]

/-- Spaces fit behind a registry when the first fits and the others fit behind it. -/
theorem fitBehind_cons {r : Registry} (hr : Tabled r) {s : Space} {ss : List Space} :
    FitBehind r (s :: ss) ↔ r.Fits s ∧ FitBehind (r.push s) ss := by
  rw [hr.fits_iff]
  constructor
  · intro h
    have hnew : ∀ t ∈ r.spaces, t.name ≠ s.name := by
      have hdisjoint := h.names
      rw [List.map_append, List.nodup_append] at hdisjoint
      exact fun t ht => hdisjoint.2.2 _ (List.mem_map_of_mem ht) _ List.mem_cons_self
    refine ⟨⟨h.index 0 s rfl, h.purpose s List.mem_cons_self, h.reserved s List.mem_cons_self,
      hnew⟩, ?_, ?_, ?_, ?_⟩
    · intro k t ht
      rw [size_push, h.index (k + 1) t ht]
      omega
    · exact fun t ht => h.purpose t (List.mem_cons_of_mem _ ht)
    · exact fun t ht => h.reserved t (List.mem_cons_of_mem _ ht)
    · exact map_name_push r s ss ▸ h.names
  · intro h
    obtain ⟨⟨hindex, hpurpose, hreserved, -⟩, hrest⟩ := h
    refine ⟨?_, ?_, ?_, map_name_push r s ss ▸ hrest.names⟩
    · intro k t ht
      cases k with
      | zero =>
          cases ht
          exact hindex
      | succ k =>
          have hnext := hrest.index k t ht
          rw [size_push] at hnext
          omega
    · exact List.forall_mem_cons.mpr ⟨hpurpose, hrest.purpose⟩
    · exact List.forall_mem_cons.mpr ⟨hreserved, hrest.reserved⟩

theorem exec_insertAll_cons_ok {s : Space} {ss : List Space} {r t : Registry} :
    (insertAll (s :: ss)).exec r = (.ok (), t) ↔
      r.Fits s ∧ (insertAll ss).exec (r.push s) = (.ok (), t) := by
  rw [insertAll, Action.exec_bind_ok]
  constructor
  · intro h
    obtain ⟨_, _, hfirst, h⟩ := h
    obtain ⟨hfits, -, rfl⟩ := exec_insert_ok.mp hfirst
    exact ⟨hfits, h⟩
  · intro h
    obtain ⟨hfits, h⟩ := h
    exact ⟨s.id, r.push s, exec_insert_ok.mpr ⟨hfits, rfl, rfl⟩, h⟩

/-- Spaces are all inserted exactly when they fit, and then stand behind the others. -/
theorem exec_insertAll_ok {r : Registry} (hr : Tabled r) (ss : List Space) :
    ((∃ t, (insertAll ss).exec r = (.ok (), t)) ↔ FitBehind r ss) ∧
      ∀ t, (insertAll ss).exec r = (.ok (), t) →
        Tabled t ∧ t.defaultId = r.defaultId ∧ ∃ added, t.spaces = r.spaces ++ added ∧
          List.Forall₂ Space.Given ss added := by
  induction ss generalizing r with
  | nil =>
      have hfit : FitBehind r [] :=
        ⟨by simp, by simp, by simp, (List.append_nil r.spaces).symm ▸ hr.distinct⟩
      refine ⟨iff_of_true ⟨r, rfl⟩ hfit, ?_⟩
      intro t ht
      cases ht
      exact ⟨hr, rfl, [], (List.append_nil _).symm, .nil⟩
  | cons s ss ih =>
      simp only [exec_insertAll_cons_ok]
      rw [fitBehind_cons hr]
      refine ⟨?_, ?_⟩
      · constructor
        · intro h
          obtain ⟨t, hfits, ht⟩ := h
          exact ⟨hfits, (ih (hr.push hfits)).1.mp ⟨t, ht⟩⟩
        · intro h
          obtain ⟨hfits, hrest⟩ := h
          obtain ⟨t, ht⟩ := (ih (hr.push hfits)).1.mpr hrest
          exact ⟨t, hfits, ht⟩
      · intro t ht
        obtain ⟨hfits, ht⟩ := ht
        obtain ⟨htabled, hdefault, added, hspaces, hadded⟩ := (ih (hr.push hfits)).2 t ht
        refine ⟨htabled, hdefault, (Shortcut.assign r.shortcuts s).1 :: added, ?_,
          .cons (Shortcut.given_assign r.shortcuts s) hadded⟩
        rw [hspaces]
        exact List.append_assoc ..

end Pcode.Registry
