import Pcode.Proofs.Registry.Consistency
import Pcode.Proofs.Registry.Stability
import Pcode.Proofs.Spaces.Described

/-!
# Narrowed spaces

Spaces are narrowed one after the other, each found by its name. Names lead to different spaces, so
the size of a space is that of the last tag that names it, whatever the other tags do.
-/
namespace Pcode

theorem Narrowing.ofElement_eq_ok {e : Xml.Element} {wish : Narrowing} :
    ofElement e = .ok wish ↔ e.name = "truncate_space" ∧ e.text "space" = .ok wish.spaceName ∧
      e.word "size" = .ok wish.size := by
  unfold ofElement
  simp only [bind_eq_ok]
  constructor
  · intro h
    obtain ⟨⟨⟩, htag, name, hname, size, hsize, h⟩ := h
    cases h
    exact ⟨Xml.Element.requireName_eq_ok.mp htag, hname, hsize⟩
  · intro h
    obtain ⟨htag, hname, hsize⟩ := h
    exact ⟨(), Xml.Element.requireName_eq_ok.mpr htag, _, hname, _, hsize, rfl⟩

theorem Space.base?_modifyInfo (f : SpaceInfo → SpaceInfo) (s : Space) :
    (s.modifyInfo f).base? = s.base? := by
  cases s <;> rfl

namespace Registry
open Relation (ReflTransGen)

theorem steps_of_spaceSteps {r t : Registry} (h : ReflTransGen SpaceStep r t) :
    ReflTransGen Step r t :=
  ReflTransGen.mono (fun _ _ => .spaces) _ _ h

/-- Every space is found by its handle and by its name. -/
structure Orderly (r : Registry) : Prop where
  numbered : Numbered r
  tabled : Tabled r
  few : r.size < 2 ^ 32

namespace Orderly
variable {r t : Registry} (hr : Orderly r)
include hr

theorem of_steps (h : ReflTransGen SpaceStep r t) (hfew : t.size < 2 ^ 32) : Orderly t where
  numbered := Action.keep_of_steps (P := Numbered) (fun _ _ => Step.numbered)
    (steps_of_spaceSteps h) hr.numbered
  tabled := Action.keep_of_steps (P := Tabled) (fun _ _ => SpaceStep.tabled) h hr.tabled
  few := hfew

theorem modifyInfo (id : SpaceId) (a : Adjustment) : Orderly (r.modifyInfo id a.apply) :=
  hr.of_steps (.single (.adjust r id a)) (size_modifyInfo r id _ ▸ hr.few)

theorem named?_eq_some_iff {name : String} {s : Space} :
    r.named? name = some s ↔ s ∈ r.spaces ∧ s.name = name :=
  hr.tabled.named?_eq_some_iff hr.numbered hr.few

theorem exists_of_idNamed? {name : String} {id : SpaceId} (h : r.idNamed? name = some id) :
    ∃ s, r.find? id = some s ∧ s.name = name := by
  have hfound : r.names.lookup name = some id := h
  rw [hr.tabled.names name, Option.map_eq_some_iff] at hfound
  obtain ⟨s, hs, rfl⟩ := hfound
  exact ⟨s, hr.numbered.find?_id hr.few (List.mem_of_find?_eq_some hs),
    by simpa using List.find?_some hs⟩

/-- The handle in a role leads to the space that holds the role. -/
theorem goesTo_of_idInRole? {role : Role} {id : SpaceId} {s : Space}
    (hid : r.idInRole? role = some id) (hs : r.find? id = some s) :
    s ∈ r.spaces ∧ role.GoesTo s := by
  obtain ⟨t, hmem, hgoes, rfl⟩ := hr.tabled.idInRole?_eq_some_iff.mp hid
  obtain rfl : s = t := Option.some.inj (hs.symm.trans (hr.numbered.find?_id hr.few hmem))
  exact ⟨hmem, hgoes⟩

/-- Different names lead to different positions. -/
theorem index_ne {name name' : String} {id id' : SpaceId} (h : r.idNamed? name = some id)
    (h' : r.idNamed? name' = some id') (hne : name ≠ name') : id.index ≠ id'.index := by
  intro hsame
  obtain ⟨s, hs, hname⟩ := hr.exists_of_idNamed? h
  obtain ⟨s', hs', hname'⟩ := hr.exists_of_idNamed? h'
  have hat : r.at? id.index = some s' := hsame ▸ hs'
  obtain rfl : s = s' := Option.some.inj (hs.symm.trans hat)
  exact hne (hname.symm.trans hname')

end Orderly

theorem at?_modifyInfo (r : Registry) (id : SpaceId) (f : SpaceInfo → SpaceInfo) (i : Nat) :
    (r.modifyInfo id f).at? i =
      if id.index = i then (r.at? i).map (Space.modifyInfo f) else r.at? i := by
  change (r.spaces.modify id.index _)[i]? = _
  rw [List.getElem?_modify]
  change _ = if _ then r.spaces[i]?.map _ else r.spaces[i]?
  split <;> cases r.spaces[i]? <;> rfl

/-- No space has a base register. -/
def Unbased (r : Registry) : Prop := ∀ i s, r.at? i = some s → s.base? = none

/-- A space that holds a base register is not among spaces without any. -/
theorem Unbased.anchor {r : Registry} (hr : Unbased r) {i : Nat} {b : BasedSpace}
    (hb : r.at? i = some (.based b)) : b.anchor = none := by
  have hbase := hr i _ hb
  rcases hanchor : b.anchor with _ | known
  · rfl
  · simp [Space.base?, Space.based?, hanchor] at hbase

theorem Unbased.modifyInfo {r : Registry} (hr : Unbased r) (id : SpaceId)
    (f : SpaceInfo → SpaceInfo) : Unbased (r.modifyInfo id f) := by
  intro i s hs
  rw [at?_modifyInfo] at hs
  split at hs
  next =>
    obtain ⟨before, hbefore, rfl⟩ := Option.map_eq_some_iff.mp hs
    rw [Space.base?_modifyInfo]
    exact hr i before hbefore
  next => exact hr i s hs

/-- The spaces named by some tags are narrowed, in the order of the tags. -/
inductive Narrowed : List Xml.Element → Registry → Registry → Prop
  | nil (r : Registry) : Narrowed [] r r
  | cons {e : Xml.Element} {es : List Xml.Element} {wish : Narrowing} {id : SpaceId}
      {r t : Registry} : Narrowing.ofElement e = .ok wish → r.idNamed? wish.spaceName = some id →
      Narrowed es (r.modifyInfo id (Adjustment.narrow wish.size).apply) t → Narrowed (e :: es) r t

theorem exec_narrow_ok {name : String} {size : UInt64} {r t : Registry} {u : Unit} :
    (narrow name size).exec r = (.ok u, t) ↔
      ∃ id, r.idNamed? name = some id ∧ r.modifyInfo id (Adjustment.narrow size).apply = t := by
  rw [exec_narrow]
  cases r.idNamed? name <;> simp

namespace Narrowed
variable {es : List Xml.Element} {r t : Registry}

theorem steps (h : Narrowed es r t) : ReflTransGen SpaceStep r t := by
  induction h with
  | nil r => exact .refl
  | cons _ _ _ ih => exact .head (.adjust _ _ _) ih

theorem size_eq (h : Narrowed es r t) : t.size = r.size := by
  induction h with
  | nil r => rfl
  | cons _ _ _ ih => rw [ih, size_modifyInfo]

theorem orderly (h : Narrowed es r t) (hr : Orderly r) : Orderly t :=
  hr.of_steps h.steps (h.size_eq ▸ hr.few)

theorem unbased (h : Narrowed es r t) (hr : Unbased r) : Unbased t := by
  induction h with
  | nil r => exact hr
  | cons _ _ _ ih => exact ih (hr.modifyInfo _ _)

theorem split {es' : List Xml.Element} (h : Narrowed (es ++ es') r t) :
    ∃ m, Narrowed es r m ∧ Narrowed es' m t := by
  induction es generalizing r with
  | nil => exact ⟨r, .nil r, h⟩
  | cons e es ih =>
      cases h with
      | cons hwish hid h =>
          obtain ⟨m, hm, ht⟩ := ih h
          exact ⟨m, .cons hwish hid hm, ht⟩

/-- A space that none of the tags names stays as it is. -/
theorem at?_of_not_named (h : Narrowed es r t) (hr : Orderly r) {name : String} {id : SpaceId}
    (hid : r.idNamed? name = some id) (hnot : ∀ e ∈ es, e.text "space" ≠ .ok name) :
    t.at? id.index = r.at? id.index := by
  induction h with
  | nil r => rfl
  | @cons e es wish id' r t hwish hid' _ ih =>
      obtain ⟨hhead, htail⟩ := List.forall_mem_cons.mp hnot
      obtain ⟨-, hspace, -⟩ := Narrowing.ofElement_eq_ok.mp hwish
      have hne : wish.spaceName ≠ name := by
        rintro rfl
        exact hhead hspace
      rw [ih (hr.modifyInfo id' _) hid htail, at?_modifyInfo, if_neg (hr.index_ne hid' hid hne)]

/-- Every tag names a space, which is narrowed, and has the size in the tag unless a later tag names
it again. -/
theorem narrowed_at {before after : List Xml.Element} {e : Xml.Element}
    (h : Narrowed (before ++ e :: after) r t) (hr : Orderly r) :
    ∃ name size s, e.text "space" = .ok name ∧ e.word "size" = .ok size ∧
      t.named? name = some s ∧ s.info.isNarrowed = true ∧
      ((∀ e' ∈ after, e'.text "space" ≠ .ok name) →
        s.info.pointerSize = size ∧ s.info.highest = Word.highest size s.info.wordSize) := by
  obtain ⟨m, hm, h⟩ := h.split
  have hm' := hm.orderly hr
  cases h with
  | @cons _ _ wish id _ _ hwish hid h =>
      obtain ⟨-, hspace, hsize⟩ := Narrowing.ofElement_eq_ok.mp hwish
      obtain ⟨s, hs, -⟩ := hm'.exists_of_idNamed? hid
      have hnarrow : (m.modifyInfo id (Adjustment.narrow wish.size).apply).at? id.index =
          some (s.modifyInfo (Adjustment.narrow wish.size).apply) := by
        rw [at?_modifyInfo, if_pos rfl]
        exact congrArg _ hs
      have hpersists := persists_of_steps (steps_of_spaceSteps h.steps)
      obtain ⟨s', hs', hkept⟩ := hpersists.spaces _ _ hnarrow
      refine ⟨wish.spaceName, wish.size, s', hspace, hsize, ?_, ?_, ?_⟩
      · exact Option.bind_eq_some_iff.mpr ⟨id, hpersists.names _ id hid, hs'⟩
      · refine hkept.marks .truncated ?_
        rw [Space.info_modifyInfo]
        exact (Properties.has_insert _ _ _).trans (Bool.or_eq_true_iff.mpr (.inr rfl))
      · intro hlast
        rw [h.at?_of_not_named (hm'.modifyInfo id _) hid hlast, hnarrow] at hs'
        cases hs'
        rw [Space.info_modifyInfo]
        exact ⟨rfl, rfl⟩

end Narrowed

end Registry

end Pcode
