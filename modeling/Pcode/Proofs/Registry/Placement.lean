import Pcode.Proofs.Joined
import Pcode.Proofs.Ordered
import Pcode.Proofs.Registry.Kept

/-!
# Placement of joined values

Joined values take up their space one after the other and without gaps, so that every offset lies in
the place of exactly one of them or past the last.
-/
namespace Pcode

namespace Joined

/-- The bytes that a joined value of `size` bytes takes up: the next multiple of sixteen. -/
def roomFor (size : Nat) : Nat := (size + 15) / 16 * 16

/-- The bytes that a joined value takes up. -/
def room (v : Joined) : Nat := roomFor v.whole.size.toNat

/-- The place of the value starts no later than `offset` and ends after it. -/
def Covers (v : Joined) (offset : UInt64) : Prop :=
  v.whole.offset.toNat ≤ offset.toNat ∧ offset.toNat < v.whole.offset.toNat + v.room

/-- Values that are not empty take up the offsets from `start` on, each where the one before ends,
and the last one ends at `stop`. -/
def Tiles : Nat → List Joined → Nat → Prop
  | start, [], stop => start = stop
  | start, v :: vs, stop =>
    v.whole.offset.toNat = start ∧ v.whole.size ≠ 0 ∧ Tiles (start + v.room) vs stop

theorem dvd_room (v : Joined) : 16 ∣ v.room := Nat.dvd_mul_left ..

namespace Tiles
variable {start stop : Nat} {vs : List Joined}

theorem append {middle : Nat} {ws : List Joined} (h : Tiles start vs middle)
    (h' : Tiles middle ws stop) : Tiles start (vs ++ ws) stop := by
  induction vs generalizing start with
  | nil =>
      obtain rfl : start = middle := h
      exact h'
  | cons v vs ih =>
      obtain ⟨hoffset, hsize, hrest⟩ := h
      exact ⟨hoffset, hsize, ih hrest⟩

theorem start_le (h : Tiles start vs stop) : start ≤ stop := by
  induction vs generalizing start with
  | nil => exact Nat.le_of_eq h
  | cons v vs ih =>
      have hle := ih h.2.2
      omega

/-- What lies around one of the values. -/
theorem around (h : Tiles start vs stop) {i : Nat} {v : Joined} (hv : vs[i]? = some v) :
    Tiles start (vs.take i) v.whole.offset.toNat ∧ v.whole.size ≠ 0 ∧
      Tiles (v.whole.offset.toNat + v.room) (vs.drop (i + 1)) stop := by
  induction vs generalizing start i with
  | nil => cases hv
  | cons w vs ih =>
      obtain ⟨hoffset, hsize, hrest⟩ := h
      cases i with
      | zero =>
          cases hv
          refine ⟨hoffset.symm, hsize, ?_⟩
          rw [hoffset]
          exact hrest
      | succ i =>
          obtain ⟨hbefore, hv', hafter⟩ := ih hrest hv
          exact ⟨⟨hoffset, hsize, hbefore⟩, hv', hafter⟩

theorem dvd_stop (h : Tiles start vs stop) (hstart : 16 ∣ start) : 16 ∣ stop := by
  induction vs generalizing start with
  | nil => exact h ▸ hstart
  | cons v vs ih => exact ih h.2.2 (Nat.dvd_add hstart v.dvd_room)

theorem dvd_offset (h : Tiles start vs stop) (hstart : 16 ∣ start) {i : Nat} {v : Joined}
    (hv : vs[i]? = some v) : 16 ∣ v.whole.offset.toNat :=
  (h.around hv).1.dvd_stop hstart

theorem end_le_stop (h : Tiles start vs stop) {i : Nat} {v : Joined} (hv : vs[i]? = some v) :
    v.whole.offset.toNat + v.room ≤ stop :=
  (h.around hv).2.2.start_le

theorem offset_next (h : Tiles start vs stop) {i : Nat} {v w : Joined} (hv : vs[i]? = some v)
    (hw : vs[i + 1]? = some w) : w.whole.offset.toNat = v.whole.offset.toNat + v.room := by
  have hafter := (h.around hv).2.2
  have hlt := (List.getElem?_eq_some_iff.mp hw).1
  rw [List.drop_eq_getElem_cons hlt, (List.getElem?_eq_some_iff.mp hw).2] at hafter
  exact hafter.1

/-- A later value starts where an earlier one ends, or after it. -/
theorem end_le_offset (h : Tiles start vs stop) {i j : Nat} (hij : i < j) {v w : Joined}
    (hv : vs[i]? = some v) (hw : vs[j]? = some w) :
    v.whole.offset.toNat + v.room ≤ w.whole.offset.toNat := by
  have hw' : (vs.drop (i + 1))[j - (i + 1)]? = some w := by
    rw [List.getElem?_drop]
    rw [show i + 1 + (j - (i + 1)) = j by omega]
    exact hw
  exact ((h.around hv).2.2.around hw').1.start_le

/-- At most one value covers an offset. -/
theorem index_unique (h : Tiles start vs stop) {offset : UInt64} {i j : Nat} {v w : Joined}
    (hv : vs[i]? = some v) (hw : vs[j]? = some w) (hvc : v.Covers offset)
    (hwc : w.Covers offset) : i = j := by
  obtain ⟨hv₁, hv₂⟩ := hvc
  obtain ⟨hw₁, hw₂⟩ := hwc
  rcases Nat.lt_trichotomy i j with hlt | heq | hgt
  · have := h.end_le_offset hlt hv hw
    omega
  · exact heq
  · have := h.end_le_offset hgt hw hv
    omega

/-- Some value covers an offset before the end. -/
theorem exists_covers (h : Tiles start vs stop) {offset : UInt64} (hle : start ≤ offset.toNat)
    (hlt : offset.toNat < stop) : ∃ (i : Nat) (v : Joined), vs[i]? = some v ∧ v.Covers offset := by
  induction vs generalizing start with
  | nil =>
      obtain rfl : start = stop := h
      omega
  | cons v vs ih =>
      obtain ⟨hoffset, -, hrest⟩ := h
      rcases Nat.lt_or_ge offset.toNat (start + v.room) with hin | hout
      · refine ⟨0, v, rfl, ?_, ?_⟩ <;> rw [hoffset]
        · exact hle
        · exact hin
      · obtain ⟨i, w, hw, hcovers⟩ := ih hrest hout
        exact ⟨i + 1, w, hw, hcovers⟩

/-- The values that start no later than an offset come first. -/
theorem partitioned (h : Tiles start vs stop) (offset : UInt64) :
    Ordered.Partitioned (fun v : Joined => v.whole.offset ≤ offset) vs := by
  intro i j hij hj
  rcases hw : vs[j]? with _ | w
  · rw [hw] at hj
    cases hj
  · have hjlt := (List.getElem?_eq_some_iff.mp hw).1
    rcases hv : vs[i]? with _ | v
    · have hle := List.getElem?_eq_none_iff.mp hv
      omega
    · rw [hw] at hj
      simp only [Option.any_some, decide_eq_true_eq, UInt64.le_iff_toNat_le] at hj ⊢
      rcases Nat.lt_or_eq_of_le hij with hlt | rfl
      · have := h.end_le_offset hlt hv hw
        omega
      · rw [hv] at hw
        cases hw
        exact hj

end Tiles

end Joined

namespace Registry
open Pcode.Joined (Tiles Unfit)

theorem toNat_joinUnit : joinUnit.toNat = 2 ^ 4 := rfl

/-- What is planned for a joined value, and for the one after it. -/
structure Planned (r : Registry) (space : SpaceId) (pieces : List Varnode) (logical : UInt64)
    (value : Joined) (joinNext : UInt64) : Prop where
  fit : ¬Unfit pieces logical
  made : value.pieces = pieces
  inside : value.whole.space = space
  behind : value.whole.offset = r.joinNext
  size : value.whole.size.toNat = max (Joined.total pieces) logical.toNat
  next : joinNext.toNat = r.joinNext.toNat + value.room

theorem planJoin_eq_ok_iff {r : Registry} {space : SpaceId} {pieces : List Varnode}
    {logical joinNext : UInt64} {value : Joined} :
    r.planJoin space pieces logical = .ok (value, joinNext) ↔
      r.Planned space pieces logical value joinNext := by
  unfold planJoin
  constructor
  · intro h
    obtain ⟨size, hsize, h⟩ := bind_eq_ok.mp h
    obtain ⟨room, hroom, h⟩ := bind_eq_ok.mp h
    obtain ⟨next, hnext, h⟩ := bind_eq_ok.mp h
    cases h
    rw [Joined.sizeFor_eq_ok_iff] at hsize
    rw [Failure.ofChecked_eq_ok, Word.alignUp_eq_ok_iff toNat_joinUnit] at hroom
    rw [Failure.ofChecked_eq_ok, Word.add_eq_ok_iff, hroom.2] at hnext
    exact ⟨hsize.1, rfl, rfl, rfl, hsize.2, hnext.symm⟩
  · intro h
    obtain ⟨hfit, hpieces, hspace, hoffset, hsize, hnext⟩ := h
    rcases value with ⟨ps, ⟨s, o, size⟩⟩
    cases hpieces
    cases hspace
    cases hoffset
    have hlt := joinNext.toNat_lt
    simp only [Joined.room, Joined.roomFor] at hsize hnext
    have hroom : (size.toNat + 15) / 16 * 16 < 2 ^ 64 := by omega
    refine bind_eq_ok.mpr ⟨size, Joined.sizeFor_eq_ok_iff.mpr ⟨hfit, hsize⟩, ?_⟩
    refine bind_eq_ok.mpr ⟨UInt64.ofNat ((size.toNat + 15) / 16 * 16), ?_, ?_⟩
    · rw [Failure.ofChecked_eq_ok, Word.alignUp_eq_ok_iff toNat_joinUnit]
      exact ⟨by omega, UInt64.toNat_ofNat_of_lt' hroom⟩
    · refine bind_eq_ok.mpr ⟨joinNext, ?_, rfl⟩
      rw [Failure.ofChecked_eq_ok, Word.add_eq_ok_iff, UInt64.toNat_ofNat_of_lt' hroom]
      exact hnext.symm

theorem overflow_of_ofChecked {ε α : Type} {x : Checked α} {e : Failure ε}
    (h : (Failure.ofChecked x : Except (Failure ε) α) = .error e) : e = .overflow := by
  cases x with
  | error _ =>
      cases h
      rfl
  | ok _ => cases h

theorem planJoin_of_unfit {pieces : List Varnode} {logical : UInt64} (h : Unfit pieces logical)
    (r : Registry) (space : SpaceId) :
    ∃ cause, r.planJoin space pieces logical = .error (.refused cause) := by
  obtain ⟨cause, hcause⟩ := Joined.sizeFor_of_unfit h
  refine ⟨cause, ?_⟩
  unfold planJoin
  rw [hcause]
  rfl

theorem overflow_of_planJoin {r : Registry} {space : SpaceId} {pieces : List Varnode}
    {logical : UInt64} {e : Failure Joined.Error} (h : ¬Unfit pieces logical)
    (he : r.planJoin space pieces logical = .error e) : e = .overflow := by
  unfold planJoin at he
  rcases bind_eq_error.mp he with hsize | ⟨size, -, he⟩
  · exact Joined.overflow_of_sizeFor h hsize
  · rcases bind_eq_error.mp he with hroom | ⟨room, -, he⟩
    · exact overflow_of_ofChecked hroom
    · rcases bind_eq_error.mp he with hnext | ⟨next, -, he⟩
      · exact overflow_of_ofChecked hnext
      · cases he

/-- Pieces that are not unfit are joined, unless the room left does not suffice. -/
theorem planJoin_of_fit {pieces : List Varnode} {logical : UInt64} (h : ¬Unfit pieces logical)
    (r : Registry) (space : SpaceId) :
    (∃ value joinNext, r.planJoin space pieces logical = .ok (value, joinNext)) ∨
      r.planJoin space pieces logical = .error .overflow ∧
        2 ^ 64 ≤ r.joinNext.toNat + Joined.roomFor (max (Joined.total pieces) logical.toNat) := by
  rcases Nat.lt_or_ge (r.joinNext.toNat +
    Joined.roomFor (max (Joined.total pieces) logical.toNat)) (2 ^ 64) with hlt | hge
  · have hsize : max (Joined.total pieces) logical.toNat < 2 ^ 64 := by
      unfold Joined.roomFor at hlt
      omega
    left
    refine ⟨⟨pieces, ⟨space, r.joinNext, .ofNat (max (Joined.total pieces) logical.toNat)⟩⟩,
      .ofNat (r.joinNext.toNat + Joined.roomFor (max (Joined.total pieces) logical.toNat)), ?_⟩
    refine planJoin_eq_ok_iff.mpr ⟨h, rfl, rfl, rfl, UInt64.toNat_ofNat_of_lt' hsize, ?_⟩
    rw [UInt64.toNat_ofNat_of_lt' hlt, Joined.room, UInt64.toNat_ofNat_of_lt' hsize]
  · right
    refine ⟨?_, hge⟩
    rcases hplan : r.planJoin space pieces logical with e | ⟨value, joinNext⟩
    · rw [overflow_of_planJoin h hplan]
    · have hplanned := planJoin_eq_ok_iff.mp hplan
      have hnext := hplanned.next
      have hlt := joinNext.toNat_lt
      rw [Joined.room, hplanned.size] at hnext
      omega

theorem Planned.size_ne_zero {r : Registry} {space : SpaceId} {pieces : List Varnode}
    {logical joinNext : UInt64} {value : Joined}
    (h : r.Planned space pieces logical value joinNext) : value.whole.size ≠ 0 := by
  intro hzero
  apply h.fit
  right
  left
  rw [← h.size, hzero]
  rfl

/-- The joined values lie in the space of joined values, one after the other from its start to
where the next one is placed. -/
structure Placed (r : Registry) : Prop where
  tiles : Tiles 0 r.joins r.joinNext.toNat
  space : ∀ v ∈ r.joins, r.idInRole? .joins = some v.whole.space

theorem placed_start : Placed start where
  tiles := rfl
  space := fun _ hv => nomatch hv

theorem Step.placed {r t : Registry} (h : Step r t) (hr : Placed r) : Placed t := by
  have hspace : ∀ v ∈ r.joins, t.idInRole? .joins = some v.whole.space := fun v hv =>
    h.idInRole? (hr.space v hv)
  cases h with
  | @join space pieces logical joinNext value hrole hpieces hnew hplan =>
      have hplanned := planJoin_eq_ok_iff.mp hplan
      constructor
      · refine hr.tiles.append ⟨by rw [hplanned.behind], hplanned.size_ne_zero, ?_⟩
        exact hplanned.next.symm
      · intro v hv
        rcases List.mem_append.mp hv with hold | hnew
        · exact hspace v hold
        · rw [List.mem_singleton.mp hnew, hplanned.inside]
          exact hrole
  | spaces h =>
      obtain ⟨hjoins, -, hnext⟩ := h.joins_eq
      rw [← hjoins] at hspace
      refine ⟨?_, hspace⟩
      rw [hjoins, hnext]
      exact hr.tiles

theorem placed_after (history : List Request) : Placed (start.after history) :=
  holds_after placed_start Step.placed history

/-! ## Finding the value at an offset -/

section Find
variable {r : Registry} (hr : Placed r) {offset : UInt64}
include hr

theorem Placed.lt_partitionPoint_iff {i : Nat} {v : Joined} (hv : r.joins[i]? = some v) :
    i < Ordered.partitionPoint (fun v : Joined => v.whole.offset ≤ offset) r.joins ↔
      v.whole.offset.toNat ≤ offset.toNat := by
  rw [Ordered.lt_partitionPoint_iff (hr.tiles.partitioned offset), hv]
  simp only [Option.any_some, decide_eq_true_eq, UInt64.le_iff_toNat_le]

/-- The lookup ends with the last value that starts no later than the offset. -/
theorem Placed.joinAt_of_last {i : Nat} {v : Joined} (hv : r.joins[i]? = some v)
    (hlast : Ordered.partitionPoint (fun v : Joined => v.whole.offset ≤ offset) r.joins = i + 1) :
    r.joinAt offset =
      .ok (if offset.toNat < v.whole.offset.toNat + v.room then some v else none) := by
  have hle : v.whole.offset.toNat ≤ offset.toNat :=
    (hr.lt_partitionPoint_iff hv).mp (hlast ▸ Nat.lt_succ_self i)
  have hend := hr.tiles.end_le_stop hv
  have hlt := r.joinNext.toNat_lt
  have hfits : v.room < 2 ^ 64 := by omega
  have hfound : r.lastJoin? offset = some v := by
    unfold lastJoin?
    rw [hlast]
    exact hv
  have hroom : Word.alignUp v.whole.size joinUnit = .ok (UInt64.ofNat v.room) := by
    rw [Word.alignUp_eq_ok_iff toNat_joinUnit, UInt64.toNat_ofNat_of_lt' hfits]
    unfold Joined.room Joined.roomFor at hfits ⊢
    exact ⟨by omega, rfl⟩
  have hinside : Word.sub offset v.whole.offset =
      .ok (UInt64.ofNat (offset.toNat - v.whole.offset.toNat)) := by
    have hoffset := offset.toNat_lt
    rw [Word.sub_eq_ok_iff, UInt64.toNat_ofNat_of_lt' (Nat.lt_of_le_of_lt (Nat.sub_le ..) hoffset)]
    omega
  have hiff : UInt64.ofNat (offset.toNat - v.whole.offset.toNat) < UInt64.ofNat v.room ↔
      offset.toNat < v.whole.offset.toNat + v.room := by
    have hoffset := offset.toNat_lt
    rw [UInt64.lt_iff_toNat_lt, UInt64.toNat_ofNat_of_lt' hfits,
      UInt64.toNat_ofNat_of_lt' (Nat.lt_of_le_of_lt (Nat.sub_le ..) hoffset)]
    omega
  unfold joinAt
  rw [hfound]
  simp only
  rw [hroom, hinside]
  simp only [← hiff]
  rfl

theorem Placed.joinAt_of_covers {i : Nat} {v : Joined} (hv : r.joins[i]? = some v)
    (hcovers : v.Covers offset) : r.joinAt offset = .ok (some v) := by
  have hlast :
      Ordered.partitionPoint (fun v : Joined => v.whole.offset ≤ offset) r.joins = i + 1 := by
    apply Nat.le_antisymm
    · apply Nat.le_of_not_lt
      intro hlt
      rw [Ordered.lt_partitionPoint_iff (hr.tiles.partitioned offset)] at hlt
      rcases hw : r.joins[i + 1]? with _ | w
      · rw [hw] at hlt
        cases hlt
      · rw [hw] at hlt
        have hnext := hr.tiles.offset_next hv hw
        have hcovered := hcovers.2
        simp only [Option.any_some, decide_eq_true_eq, UInt64.le_iff_toNat_le] at hlt
        omega
    · exact (hr.lt_partitionPoint_iff hv).mpr hcovers.1
  rw [hr.joinAt_of_last hv hlast, if_pos hcovers.2]

theorem Placed.joinAt_of_le (hpast : r.joinNext ≤ offset) : r.joinAt offset = .ok none := by
  rw [UInt64.le_iff_toNat_le] at hpast
  rcases hlast : Ordered.partitionPoint (fun v : Joined => v.whole.offset ≤ offset) r.joins with
    _ | i
  · unfold joinAt lastJoin?
    rw [hlast]
    rfl
  · have hany := (Ordered.lt_partitionPoint_iff (hr.tiles.partitioned offset) i).mp
      (hlast ▸ Nat.lt_succ_self i)
    rcases hv : r.joins[i]? with _ | v
    · rw [hv] at hany
      cases hany
    · have hend := hr.tiles.end_le_stop hv
      rw [hr.joinAt_of_last hv hlast, if_neg (by omega)]

end Find

/-- After every history of requests, the joined values are not empty and take up their space
without gaps, from its start to where the next one is placed, each from a multiple of sixteen on.
For every offset the lookup answers, with the one value whose place covers the offset, or with none
where the next one is placed and after. -/
theorem joins_tile_space (history : List Request) :
    let r := start.after history
    (∀ v, r.joins[0]? = some v → v.whole.offset = 0) ∧
    (∀ v ∈ r.joins, r.idInRole? .joins = some v.whole.space ∧ v.whole.size ≠ 0 ∧
      16 ∣ v.whole.offset.toNat) ∧
    (∀ i v w, r.joins[i]? = some v → r.joins[i + 1]? = some w →
      w.whole.offset.toNat = v.whole.offset.toNat + v.room) ∧
    (r.joins = [] → r.joinNext = 0) ∧
    (∀ v, r.joins.getLast? = some v → r.joinNext.toNat = v.whole.offset.toNat + v.room) ∧
    ∀ offset : UInt64,
      (offset < r.joinNext → ∃ (i : Nat) (v : Joined), r.joins[i]? = some v ∧ v.Covers offset ∧
        (∀ (j : Nat) (w : Joined), r.joins[j]? = some w → w.Covers offset → j = i) ∧
        r.joinAt offset = .ok (some v)) ∧
      (r.joinNext ≤ offset → (∀ v ∈ r.joins, ¬v.Covers offset) ∧ r.joinAt offset = .ok none) := by
  intro r
  have hr : Placed r := placed_after history
  refine ⟨?_, ?_, fun i v w => hr.tiles.offset_next, ?_, ?_, fun offset => ⟨?_, ?_⟩⟩
  · intro v hv
    have hbefore := (hr.tiles.around hv).1
    rw [List.take_zero] at hbefore
    exact UInt64.toNat_inj.mp hbefore.symm
  · intro v hv
    obtain ⟨i, hi⟩ := List.mem_iff_getElem?.mp hv
    exact ⟨hr.space v hv, (hr.tiles.around hi).2.1, hr.tiles.dvd_offset (Nat.dvd_zero 16) hi⟩
  · intro hnone
    have htiles := hr.tiles
    rw [hnone] at htiles
    exact UInt64.toNat_inj.mp htiles.symm
  · intro v hv
    rw [List.getLast?_eq_getElem?] at hv
    have hlt := (List.getElem?_eq_some_iff.mp hv).1
    have hafter := (hr.tiles.around hv).2.2
    rw [List.drop_eq_nil_of_le (by omega)] at hafter
    exact hafter.symm
  · intro hlt
    obtain ⟨i, v, hv, hcovers⟩ :=
      hr.tiles.exists_covers (Nat.zero_le _) (UInt64.lt_iff_toNat_lt.mp hlt)
    refine ⟨i, v, hv, hcovers, ?_, hr.joinAt_of_covers hv hcovers⟩
    intro j w hw hwc
    exact hr.tiles.index_unique hw hv hwc hcovers
  · intro hle
    refine ⟨?_, hr.joinAt_of_le hle⟩
    intro v hv hcovers
    obtain ⟨i, hi⟩ := List.mem_iff_getElem?.mp hv
    have hend := hr.tiles.end_le_stop hi
    have hcovered := hcovers.2
    rw [UInt64.le_iff_toNat_le] at hle
    omega

end Registry

end Pcode
