import Mathlib.Tactic.Common
import Pcode.Joined
import Pcode.Proofs.Locations
import Pcode.Proofs.Word

/-!
# Pieces of joined values

The order of pieces is a lawful total order that identifies equal sequences only, and the size of a
joined value is the larger of the size of its pieces and the logical size.
-/
namespace Pcode.Joined
open Std (TransCmp LawfulEqCmp)

/-! ## The order of pieces -/

/-- Compares two pieces by space, offset and size. -/
def pieceOrder : Varnode → Varnode → Ordering :=
  compareLex (compareOn fun p => p.space.index) <|
    compareLex (compareOn Varnode.offset) (compareOn Varnode.size)

instance : TransCmp pieceOrder := by
  unfold pieceOrder
  infer_instance

theorem eq_of_pieceOrder {p q : Varnode} (h : pieceOrder p q = .eq) : p = q := by
  simp only [pieceOrder, compareLex_eq_eq, compareOn, Std.LawfulEqOrd.compare_eq_iff_eq] at h
  obtain ⟨hspace, hoffset, hsize⟩ := h
  rcases p with ⟨⟨s⟩, o, n⟩
  rcases q with ⟨⟨t⟩, o', n'⟩
  have hs : s = t := UInt32.toNat_inj.mp hspace
  subst hs
  cases hoffset
  cases hsize
  rfl

instance : LawfulEqCmp pieceOrder where
  eq_of_compare := eq_of_pieceOrder

theorem order_eq_compareLex : order = List.compareLex pieceOrder := by
  funext ps qs
  induction ps generalizing qs with
  | nil => cases qs <;> rfl
  | cons p ps ih =>
      cases qs with
      | nil => rfl
      | cons q qs =>
          rw [List.compareLex_cons_cons, ← ih]
          simp only [order, pieceOrder, compareLex, compareOn, Ordering.then_assoc]

instance : TransCmp order := order_eq_compareLex ▸ inferInstance

instance : LawfulEqCmp order := order_eq_compareLex ▸ inferInstance

/-- Pieces are compared as varnodes are, since spaces have the order of their indices. -/
theorem pieceOrder_eq_compare : pieceOrder = compare := by
  funext p q
  have hspace : compare p.space.index q.space.index = compare p.space q.space := by
    rw [SpaceId.compare_eq_compareOn]
    exact (UInt32.compare_eq_toNat_compare_toNat p.space.value q.space.value).symm
  rw [Varnode.compare_eq_compareLex]
  simp only [pieceOrder, compareLex, compareOn, hspace]

theorem order_eq_compare : order = compare := by
  rw [order_eq_compareLex, pieceOrder_eq_compare, List.compare_eq_compareLex]

/-- The first place where two sequences differ decides, and without one their lengths do. -/
theorem order_eq_zipWith (ps qs : List Varnode) :
    order ps qs =
      ((List.zipWith pieceOrder ps qs).foldr Ordering.then .eq).then
        (compare ps.length qs.length) := by
  rw [order_eq_compareLex]
  induction ps generalizing qs with
  | nil => cases qs <;> rfl
  | cons p ps ih =>
      cases qs with
      | nil => rfl
      | cons q qs =>
          have hlength :
              compare (p :: ps).length (q :: qs).length = compare ps.length qs.length := by
            simp only [List.length_cons, Nat.compare_eq_ite_lt, Nat.succ_lt_succ_iff]
          rw [List.compareLex_cons_cons, ih, List.zipWith_cons_cons, List.foldr_cons,
            Ordering.then_assoc, hlength]

theorem order_append_of_ne_nil (ps : List Varnode) {more : List Varnode} (h : more ≠ []) :
    order ps (ps ++ more) = .lt := by
  rw [order_eq_compareLex]
  induction ps with
  | nil =>
      cases more with
      | nil => exact absurd rfl h
      | cons _ _ => rfl
  | cons p ps ih =>
      have hself : pieceOrder p p = .eq := Std.ReflCmp.compare_self
      rw [List.cons_append, List.compareLex_cons_cons, ih, hself]
      rfl

/-- Sequences are equal in the order when they have the same pieces at the same places. -/
theorem order_eq_eq_iff {ps qs : List Varnode} :
    order ps qs = .eq ↔ ps.length = qs.length ∧
      ∀ (i : Nat) (p q : Varnode), ps[i]? = some p → qs[i]? = some q →
        p.space = q.space ∧ p.offset = q.offset ∧ p.size = q.size := by
  rw [LawfulEqCmp.compare_eq_iff_eq]
  constructor
  · intro heq
    subst heq
    refine ⟨rfl, ?_⟩
    intro i p q hp hq
    obtain rfl : p = q := Option.some.inj (hp.symm.trans hq)
    exact ⟨rfl, rfl, rfl⟩
  · intro ⟨hlength, hplaces⟩
    apply List.ext_getElem hlength
    intro i hi hi'
    obtain ⟨hspace, hoffset, hsize⟩ := hplaces i ps[i] qs[i] (List.getElem?_eq_getElem hi)
      (List.getElem?_eq_getElem hi')
    calc
      ps[i] = ⟨ps[i].space, ps[i].offset, ps[i].size⟩ := rfl
      _ = ⟨qs[i].space, qs[i].offset, qs[i].size⟩ := by rw [hspace, hoffset, hsize]
      _ = qs[i] := rfl

/-- The order of pieces is total, antisymmetric and transitive, equal for the same pieces in the
same places alone, and puts a sequence before its extensions. It is the lexicographic order over the
order of varnodes. -/
theorem order_lexicographic (ps qs rs : List Varnode) :
    ((order ps qs).isLE ∨ (order qs ps).isLE) ∧
    ((order ps qs).isLE → (order qs ps).isLE → ps = qs) ∧
    ((order ps qs).isLE → (order qs rs).isLE → (order ps rs).isLE) ∧
    order qs ps = (order ps qs).swap ∧
    (order ps qs = .eq ↔ ps.length = qs.length ∧
      ∀ (i : Nat) (p q : Varnode), ps[i]? = some p → qs[i]? = some q →
        p.space = q.space ∧ p.offset = q.offset ∧ p.size = q.size) ∧
    (ps <+: qs → ps ≠ qs → order ps qs = .lt) ∧
    order ps qs = compare ps qs ∧
    order ps qs = ((List.zipWith compare ps qs).foldr Ordering.then .eq).then
      (compare ps.length qs.length) := by
  have hswap : order qs ps = (order ps qs).swap := Std.OrientedCmp.eq_swap
  refine ⟨?_, ?_, Std.TransCmp.isLE_trans, hswap, order_eq_eq_iff, ?_, ?_, ?_⟩
  · rw [hswap]
    cases order ps qs <;> decide
  · intro hle hge
    rw [hswap] at hge
    have heq : order ps qs = .eq := by
      cases h : order ps qs with
      | lt => rw [h] at hge; cases hge
      | eq => rfl
      | gt => rw [h] at hle; cases hle
    exact LawfulEqCmp.eq_of_compare heq
  · intro hprefix hne
    obtain ⟨more, rfl⟩ := hprefix
    apply order_append_of_ne_nil
    intro hnil
    rw [hnil, List.append_nil] at hne
    exact hne rfl
  · rw [order_eq_compare]
  · rw [order_eq_zipWith, pieceOrder_eq_compare]

/-! ## Sizes -/

/-- The number of bytes of all pieces. -/
def total (pieces : List Varnode) : Nat := (pieces.map fun p => p.size.toNat).sum

theorem foldlM_add_eq_ok_iff {pieces : List Varnode} {start result : UInt64} :
    pieces.foldlM (fun total p => Word.add total p.size) start = .ok result ↔
      result.toNat = start.toNat + total pieces := by
  induction pieces generalizing start with
  | nil =>
      change Except.ok start = .ok result ↔ _
      rw [Except.ok.injEq, ← UInt64.toNat_inj, eq_comm]
      rfl
  | cons p ps ih =>
      have htotal : total (p :: ps) = p.size.toNat + total ps := rfl
      rw [List.foldlM_cons, htotal, ← Nat.add_assoc]
      rcases h : Word.add start p.size with e | sum
      · constructor
        · intro h'
          cases h'
        · intro h'
          have hlt := result.toNat_lt
          have hfits : Word.add start p.size = .ok (start + p.size) := by
            rw [Word.add_eq_ok_iff, UInt64.toNat_add, Nat.mod_eq_of_lt (by omega)]
          rw [h] at hfits
          cases hfits
      · rw [Word.add_eq_ok_iff] at h
        rw [h]
        exact ih

theorem totalSize_eq_ok_iff {pieces : List Varnode} {result : UInt64} :
    totalSize pieces = .ok result ↔ result.toNat = total pieces := by
  unfold totalSize
  rw [foldlM_add_eq_ok_iff]
  simp

/-- The pieces make no value, however much room there is: there are none, the value would be empty,
or it would be a single piece that is not extended. -/
def Unfit (pieces : List Varnode) (logical : UInt64) : Prop :=
  pieces = [] ∨ max (total pieces) logical.toNat = 0 ∨
    pieces.length = 1 ∧ logical.toNat ≤ total pieces

theorem sizeFor_of_total {pieces : List Varnode} {logical whole : UInt64}
    (h : whole.toNat = total pieces) :
    sizeFor pieces logical =
      if pieces = [] then .error (.refused .noPieces)
      else if max whole logical = 0 then .error (.refused .emptyValue)
      else if pieces.length = 1 ∧ max whole logical ≤ whole then
        .error (.refused (.notExtended whole logical))
      else .ok (max whole logical) := by
  unfold sizeFor
  rw [totalSize_eq_ok_iff.mpr h]
  simp only [List.isEmpty_iff]
  split
  · rfl
  · change (if max whole logical = 0 then _ else _) = _
    split
    · rfl
    · split <;> rfl

theorem sizeFor_eq_ok_iff {pieces : List Varnode} {logical size : UInt64} :
    sizeFor pieces logical = .ok size ↔
      ¬Unfit pieces logical ∧ size.toNat = max (total pieces) logical.toNat := by
  rcases ht : totalSize pieces with e | whole
  · have hbig : ∀ size : UInt64, size.toNat ≠ max (total pieces) logical.toNat := by
      intro size hsize
      have hlt := size.toNat_lt
      have hfits : totalSize pieces = .ok (UInt64.ofNat (total pieces)) := by
        rw [totalSize_eq_ok_iff, UInt64.toNat_ofNat_of_lt']
        change total pieces < 2 ^ 64
        omega
      rw [ht] at hfits
      cases hfits
    constructor
    · intro h
      unfold sizeFor at h
      rw [ht] at h
      simp only at h
      split at h <;> cases h
    · intro h
      exact absurd h.2 (hbig size)
  · have htotal := totalSize_eq_ok_iff.mp ht
    have hzero : max whole logical = 0 ↔ max (total pieces) logical.toNat = 0 := by
      rw [← UInt64.toNat_inj, Word.toNat_max, htotal]
      rfl
    have hle : max whole logical ≤ whole ↔ logical.toNat ≤ total pieces := by
      rw [UInt64.le_iff_toNat_le, Word.toNat_max, htotal]
      omega
    have hsize : max whole logical = size ↔
        size.toNat = max (total pieces) logical.toNat := by
      rw [← UInt64.toNat_inj, Word.toNat_max, htotal, eq_comm]
    rw [sizeFor_of_total htotal, Unfit, ← hzero, ← hle, ← hsize]
    split
    next h => simp [h]
    next h₁ =>
      split
      next h => simp [h]
      next h₂ =>
        split
        next h => simp [h]
        next h₃ => simp [h₁, h₂, h₃]

theorem total_lt_of_unfit {pieces : List Varnode} {logical : UInt64} (h : Unfit pieces logical) :
    total pieces < 2 ^ 64 := by
  rcases h with rfl | hzero | ⟨hone, -⟩
  · decide
  · omega
  · obtain ⟨p, rfl⟩ := List.length_eq_one_iff.mp hone
    have hlt := p.size.toNat_lt
    simpa [total] using hlt

/-- Unfit pieces are refused: the sum of their sizes does not overflow before. -/
theorem sizeFor_of_unfit {pieces : List Varnode} {logical : UInt64} (h : Unfit pieces logical) :
    ∃ cause, sizeFor pieces logical = .error (.refused cause) := by
  obtain ⟨whole, htotal⟩ : ∃ whole : UInt64, whole.toNat = total pieces :=
    ⟨UInt64.ofNat (total pieces), UInt64.toNat_ofNat_of_lt' (total_lt_of_unfit h)⟩
  have hno : ∀ size, sizeFor pieces logical ≠ .ok size := fun size hok =>
    (sizeFor_eq_ok_iff.mp hok).1 h
  rw [sizeFor_of_total htotal] at hno ⊢
  split
  · exact ⟨_, rfl⟩
  · split
    · exact ⟨_, rfl⟩
    · split
      · exact ⟨_, rfl⟩
      · rename_i h₁ h₂ h₃
        rw [if_neg h₁, if_neg h₂, if_neg h₃] at hno
        exact absurd rfl (hno _)

/-- Other pieces are never refused; at most the sum of their sizes overflows. -/
theorem overflow_of_sizeFor {pieces : List Varnode} {logical : UInt64} (h : ¬Unfit pieces logical)
    {e : Failure Error} (he : sizeFor pieces logical = .error e) : e = .overflow := by
  rcases ht : totalSize pieces with _ | whole
  · unfold sizeFor at he
    rw [ht] at he
    simp only [List.isEmpty_iff] at he
    split at he
    next hnone => exact absurd (.inl hnone) h
    next => cases he; rfl
  · have htotal := totalSize_eq_ok_iff.mp ht
    have hok : sizeFor pieces logical = .ok (max whole logical) := by
      rw [sizeFor_eq_ok_iff, Word.toNat_max, htotal]
      exact ⟨h, rfl⟩
    rw [hok] at he
    cases he

end Pcode.Joined
