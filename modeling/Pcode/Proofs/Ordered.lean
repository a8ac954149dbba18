import Mathlib.Tactic.Common
import Pcode.Ordered

/-!
# Ordered lists

Halving finds where the items that satisfy a condition end, and a table kept in a lawful order gives
for every key what was last put there.
-/
namespace Pcode.Ordered

section Halving
variable {α : Type} {p : α → Bool} {xs : List α}

/-- The items that satisfy the condition come first. -/
def Partitioned (p : α → Bool) (xs : List α) : Prop :=
  ∀ {i j : Nat}, i ≤ j → xs[j]?.any p = true → xs[i]?.any p = true

theorem lt_boundary_iff (h : Partitioned p xs) {low high : Nat} (hle : low ≤ high)
    (hlow : ∀ i < low, xs[i]?.any p = true) (hhigh : ∀ i, xs[i]?.any p = true → i < high)
    (i : Nat) : i < boundary p xs low high ↔ xs[i]?.any p = true := by
  fun_induction boundary p xs low high with
  | case1 low high hlt middle hp ih =>
      have hmiddle : middle < high := by omega
      apply ih (by omega) _ hhigh
      intro j hj
      exact h (by omega) hp
  | case2 low high hlt middle hp ih =>
      apply ih (by omega) hlow
      intro j hj
      by_contra hge
      exact hp (h (by omega) hj)
  | case3 low high hge =>
      constructor
      · exact hlow i
      · intro hi
        have := hhigh i hi
        omega

theorem lt_partitionPoint_iff (h : Partitioned p xs) (i : Nat) :
    i < partitionPoint p xs ↔ xs[i]?.any p = true := by
  apply lt_boundary_iff h (Nat.zero_le _)
  · intro j hj
    exact absurd hj (Nat.not_lt_zero j)
  · intro j hj
    by_contra hge
    rw [List.getElem?_eq_none (Nat.le_of_not_lt hge)] at hj
    cases hj

end Halving

section Table
open Std (TransCmp OrientedCmp LawfulEqCmp)
variable {κ α : Type} {order : κ → κ → Ordering}

theorem find?_place [TransCmp order] (key asked : κ) (value : α) (table : List (κ × α)) :
    find? order asked (place order key value table) =
      if order asked key = .eq then some value else find? order asked table := by
  induction table with
  | nil =>
      simp only [place, find?]
      cases order asked key <;> rfl
  | cons e es ih =>
      simp only [place]
      cases hk : order key e.1 with
      | lt =>
          simp only [find?]
          cases ha : order asked key with
          | lt =>
              rw [TransCmp.lt_trans ha hk]
              rfl
          | eq => rfl
          | gt => rfl
      | eq =>
          simp only [find?]
          rw [TransCmp.congr_right hk]
          cases order asked e.1 <;> rfl
      | gt =>
          have hlt := OrientedCmp.lt_of_gt hk
          simp only [find?]
          cases ha : order asked e.1 with
          | lt =>
              rw [if_neg]
              rw [TransCmp.lt_trans ha hlt]
              decide
          | eq =>
              rw [if_neg]
              rw [TransCmp.lt_of_eq_of_lt ha hlt]
              decide
          | gt => exact ih

theorem find?_place_self [TransCmp order] (key : κ) (value : α) (table : List (κ × α)) :
    find? order key (place order key value table) = some value := by
  rw [find?_place, if_pos Std.ReflCmp.compare_self]

theorem find?_place_of_ne [TransCmp order] [LawfulEqCmp order] {key asked : κ} (h : asked ≠ key)
    (value : α) (table : List (κ × α)) :
    find? order asked (place order key value table) = find? order asked table := by
  rw [find?_place, if_neg]
  exact fun heq => h (LawfulEqCmp.eq_of_compare heq)

/-- What is put in its place is found by its key, also where the table is searched from the front. -/
theorem lookup_place [LawfulEqCmp order] [BEq κ] [LawfulBEq κ] (key asked : κ)
    (value : α) (table : List (κ × α)) :
    (place order key value table).lookup asked =
      if asked == key then some value else table.lookup asked := by
  induction table with
  | nil =>
      rw [place, List.lookup_cons]
      cases asked == key <;> rfl
  | cons e es ih =>
      simp only [place]
      cases hk : order key e.1 with
      | lt =>
          change ((key, value) :: e :: es).lookup asked = _
          rw [List.lookup_cons]
          cases asked == key <;> rfl
      | eq =>
          obtain rfl := LawfulEqCmp.eq_of_compare hk
          change ((e.1, value) :: es).lookup asked = _
          rw [List.lookup_cons, List.lookup_cons]
          cases asked == e.1 <;> rfl
      | gt =>
          change (e :: place order key value es).lookup asked = _
          rw [List.lookup_cons, List.lookup_cons, ih]
          by_cases hasked : asked = e.1
          · have hself : order e.1 e.1 = .eq := Std.ReflCmp.compare_self
            have hne : asked ≠ key := by
              intro heq
              rw [← heq, hasked, hself] at hk
              cases hk
            rw [beq_iff_eq.mpr hasked, beq_eq_false_iff_ne.mpr hne]
            rfl
          · rw [beq_eq_false_iff_ne.mpr hasked]

end Table

end Pcode.Ordered
