import Mathlib.Algebra.Order.BigOperators.Group.List
import Mathlib.Algebra.Order.Group.Nat
import Mathlib.Data.List.Induction
import Mathlib.Data.List.Nodup
import Mathlib.Data.List.Perm.Subperm
import Pcode.Proofs.Registry.Repeats

/-!
# Requests for joined values in another order

As long as there is room, a request for a joined value is answered as if it were the only one, but
for the place of the value. So the order of requests decides about places only.
-/
namespace Pcode

namespace Joined

/-- The joined value with its place forgotten. -/
def unplaced (v : Joined) : Joined := { v with whole := { v.whole with offset := 0 } }

@[simp] theorem pieces_unplaced (v : Joined) : v.unplaced.pieces = v.pieces := rfl

@[simp] theorem room_unplaced (v : Joined) : v.unplaced.room = v.room := rfl

theorem Tiles.stop_eq {start stop : Nat} {vs : List Joined} (h : Tiles start vs stop) :
    stop = start + (vs.map room).sum := by
  induction vs generalizing start with
  | nil => exact h.symm
  | cons v vs ih =>
      rw [List.map_cons, List.sum_cons, ← Nat.add_assoc]
      exact ih h.2.2

end Joined

namespace Registry

theorem Indexed.nodup_pieces {r : Registry} (hr : Indexed r) :
    (r.joins.map Joined.pieces).Nodup := by
  rw [List.nodup_iff_getElem?_ne_getElem?]
  intro i j hij hj heq
  rw [List.getElem?_map, List.getElem?_map] at heq
  rw [List.length_map] at hj
  rw [List.getElem?_eq_getElem hj, List.getElem?_eq_getElem (Nat.lt_trans hij hj)] at heq
  have hi := (hr r.joins[j].pieces i).mpr
    ⟨_, List.getElem?_eq_getElem (Nat.lt_trans hij hj), Option.some.inj heq⟩
  have hj := (hr r.joins[j].pieces j).mpr ⟨_, List.getElem?_eq_getElem hj, rfl⟩
  exact absurd (Option.some.inj (hi.symm.trans hj)) (Nat.ne_of_lt hij)

/-- The joined values with their places forgotten. -/
def contents (r : Registry) : List Joined := r.joins.map Joined.unplaced

theorem mem_contents {r : Registry} {u : Joined} :
    u ∈ r.contents ↔ ∃ v ∈ r.joins, v.unplaced = u := List.mem_map

theorem Indexed.nodup_contents {r : Registry} (hr : Indexed r) : r.contents.Nodup := by
  apply List.Nodup.of_map Joined.pieces
  unfold contents
  rw [List.map_map]
  exact hr.nodup_pieces

theorem Placed.joinNext_eq {r : Registry} (hr : Placed r) :
    r.joinNext.toNat = (r.contents.map Joined.room).sum := by
  unfold contents
  rw [hr.tiles.stop_eq, Nat.zero_add, List.map_map]
  rfl

/-- The values of one registry and another value are among those of a second one. Then there is room
in the first one for the other value. -/
theorem Placed.joinNext_add_room_le {t u : Registry} (hplaced : Placed t) (hplaced' : Placed u)
    (ht : Indexed t) (hmem : ∀ v ∈ t.contents, v ∈ u.contents) {w : Joined}
    (hw : w ∈ u.contents) (hnew : w ∉ t.contents) :
    t.joinNext.toNat + w.room ≤ u.joinNext.toNat := by
  have hnodup : (w :: t.contents).Nodup := List.nodup_cons.mpr ⟨hnew, ht.nodup_contents⟩
  obtain ⟨vs, hperm, hsub⟩ :=
    List.subperm_of_subset hnodup (List.forall_mem_cons.mpr ⟨hw, hmem⟩)
  calc t.joinNext.toNat + w.room
      = ((w :: t.contents).map Joined.room).sum := by
        rw [hplaced.joinNext_eq, List.map_cons, List.sum_cons, Nat.add_comm]
    _ = (vs.map Joined.room).sum := (hperm.map Joined.room).sum_nat.symm
    _ ≤ (u.contents.map Joined.room).sum :=
        (hsub.map Joined.room).sum_le_sum fun _ _ => Nat.zero_le _
    _ = u.joinNext.toNat := hplaced'.joinNext_eq.symm

/-- What a registry holds apart from joined values. -/
def withoutJoins (r : Registry) : Registry := { r with joins := [], joinIndex := [], joinNext := 0 }

/-- The pieces and the logical size of a joined value that is asked for. -/
structure JoinRequest where
  pieces : List Varnode
  logical : UInt64
deriving Repr, DecidableEq

namespace JoinRequest

def request (a : JoinRequest) : Request := .join a.pieces a.logical

/-- What the request is answered with. -/
def outcome (a : JoinRequest) (r : Registry) : Except (Failure Joined.Error) Joined :=
  ((join a.pieces a.logical).exec r).1

/-- What the request is answered with, the place of the value forgotten. -/
def answer (a : JoinRequest) (r : Registry) : Except (Failure Joined.Error) Joined :=
  (a.outcome r).map Joined.unplaced

theorem exec_join (a : JoinRequest) (r : Registry) :
    (join a.pieces a.logical).exec r = (a.outcome r, a.request.perform r) := rfl

theorem outcome_eq (a : JoinRequest) (r : Registry) :
    a.outcome r =
      match r.idInRole? .joins with
      | none => .error (.refused .noSpace)
      | some space =>
        if a.pieces.all fun p => r.isJoinable p.space then
          match r.joinOf? a.pieces with
          | some value => .ok value
          | none => (r.planJoin space a.pieces a.logical).map Prod.fst
        else .error (.refused .unjoinable) := by
  unfold outcome
  rw [Registry.exec_join]
  cases r.idInRole? .joins with
  | none => rfl
  | some space =>
      simp only
      split
      · cases r.joinOf? a.pieces with
        | some value => rfl
        | none =>
            simp only
            rw [exec_pushJoin]
            cases r.planJoin space a.pieces a.logical <;> rfl
      · rfl

section Place
variable {a : JoinRequest} {r : Registry} {space : SpaceId}
  (hspace : r.idInRole? .joins = some space)
  (hall : (a.pieces.all fun p => r.isJoinable p.space) = true)
include hspace hall

theorem outcome_of_known {v : Joined} (hknown : r.joinOf? a.pieces = some v) :
    a.outcome r = .ok v := by
  rw [a.outcome_eq, hspace]
  simp only
  rw [if_pos hall, hknown]

theorem outcome_of_new (hnew : r.joinOf? a.pieces = none) :
    a.outcome r = (r.planJoin space a.pieces a.logical).map Prod.fst := by
  rw [a.outcome_eq, hspace]
  simp only
  rw [if_pos hall, hnew]

end Place

/-- Only new pieces may find no room. -/
theorem of_outcome_eq_overflow {a : JoinRequest} {r : Registry}
    (h : a.outcome r = .error .overflow) :
    r.joinOf? a.pieces = none ∧ (a.pieces.all fun p => r.isJoinable p.space) = true ∧
      ∃ space, r.idInRole? .joins = some space ∧
        r.planJoin space a.pieces a.logical = .error .overflow := by
  rw [a.outcome_eq] at h
  split at h
  next => cases h
  next space hspace =>
    split at h
    next hall =>
      split at h
      next => cases h
      next hnew =>
        refine ⟨hnew, hall, space, hspace, ?_⟩
        rcases hplan : r.planJoin space a.pieces a.logical with e | plan
        · rw [hplan] at h
          cases h
          rfl
        · rw [hplan] at h
          cases h
    next => cases h

end JoinRequest

/-- What the requests are answered with, one after the other. -/
def outcomes (r : Registry) : List JoinRequest → List (Except (Failure Joined.Error) Joined)
  | [] => []
  | a :: asks => a.outcome r :: outcomes (a.request.perform r) asks

/-- The registry that the requests leave behind. -/
def afterJoins (r : Registry) (asks : List JoinRequest) : Registry :=
  r.after (asks.map JoinRequest.request)

theorem afterJoins_snoc (r : Registry) (asks : List JoinRequest) (a : JoinRequest) :
    r.afterJoins (asks ++ [a]) = a.request.perform (r.afterJoins asks) := by
  unfold afterJoins
  rw [List.map_append, after_append]
  rfl

theorem outcomes_snoc (r : Registry) (asks : List JoinRequest) (a : JoinRequest) :
    r.outcomes (asks ++ [a]) = r.outcomes asks ++ [a.outcome (r.afterJoins asks)] := by
  induction asks generalizing r with
  | nil => rfl
  | cons b asks ih =>
      change _ :: outcomes _ (asks ++ [a]) = _ :: _
      rw [ih]
      rfl

/-- Where there is room behind a registry's last value, there is room for the same value where fewer
bytes are taken. -/
theorem planJoin_unplaced {r t : Registry} (hle : r.joinNext ≤ t.joinNext) {space : SpaceId}
    {pieces : List Varnode} {logical : UInt64}
    (hroom : t.planJoin space pieces logical ≠ .error .overflow) :
    ((t.planJoin space pieces logical).map Prod.fst).map Joined.unplaced =
      ((r.planJoin space pieces logical).map Prod.fst).map Joined.unplaced := by
  by_cases hfit : Joined.Unfit pieces logical
  · obtain ⟨cause, hcause⟩ := Joined.sizeFor_of_unfit hfit
    unfold planJoin
    rw [hcause]
    rfl
  · rcases planJoin_of_fit hfit t space with ⟨v, next, hplan⟩ | ⟨hover, -⟩
    · have hplanned := planJoin_eq_ok_iff.mp hplan
      have hnext := hplanned.next
      have hlt := next.toNat_lt
      rw [UInt64.le_iff_toNat_le] at hle
      have hfits : r.joinNext.toNat + v.room < 2 ^ 64 := by omega
      have hplan' : r.planJoin space pieces logical =
          .ok (⟨v.pieces, { v.whole with offset := r.joinNext }⟩,
            .ofNat (r.joinNext.toNat + v.room)) :=
        planJoin_eq_ok_iff.mpr ⟨hfit, hplanned.made, hplanned.inside, rfl, hplanned.size,
          UInt64.toNat_ofNat_of_lt' hfits⟩
      rw [hplan, hplan']
      rfl
    · exact absurd hover hroom

/-! ## One more request -/

/-- The registry `t` is what requests leave behind that were all answered as `r` would answer them,
places forgotten. -/
structure Extends (r t : Registry) (asks : List JoinRequest) : Prop where
  rest : t.withoutJoins = r.withoutJoins
  next : r.joinNext ≤ t.joinNext
  kept : ∀ v ∈ r.joins, v ∈ t.joins
  made : ∀ v ∈ t.joins, v ∈ r.joins ∨
    ∃ a ∈ asks, a.pieces = v.pieces ∧ a.answer r = .ok v.unplaced
  answered : ∀ a ∈ asks, ∀ u, a.answer r = .ok u → u ∈ t.contents

namespace Extends
variable {r t : Registry} {asks : List JoinRequest} {a : JoinRequest}

theorem refl (r : Registry) : Extends r r [] where
  rest := rfl
  next := UInt64.le_refl _
  kept := fun _ hv => hv
  made := fun _ hv => .inl hv
  answered := fun _ ha => nomatch ha

theorem idInRole?_eq (h : Extends r t asks) : t.idInRole? .joins = r.idInRole? .joins := by
  change t.withoutJoins.idInRole? .joins = r.withoutJoins.idInRole? .joins
  rw [h.rest]

theorem isJoinable_eq (h : Extends r t asks) (id : SpaceId) :
    t.isJoinable id = r.isJoinable id := by
  change t.withoutJoins.isJoinable id = r.withoutJoins.isJoinable id
  rw [h.rest]

theorem joinOf?_eq_none (h : Extends r t asks) (hr : Indexed r) (ht : Indexed t)
    {pieces : List Varnode} (hnew : t.joinOf? pieces = none) : r.joinOf? pieces = none := by
  rcases hold : r.joinOf? pieces with _ | v
  · rfl
  · obtain ⟨hmem, hpieces⟩ := hr.joinOf?_eq_some_iff.mp hold
    exact absurd hpieces (ht.ne_of_joinOf?_eq_none hnew (h.kept v hmem))

/-- What is held apart from new values is what was held, and what the requests were granted. -/
theorem mem_contents_iff (h : Extends r t asks) {u : Joined} :
    u ∈ t.contents ↔ u ∈ r.contents ∨ ∃ a ∈ asks, a.answer r = .ok u := by
  constructor
  · intro hu
    obtain ⟨v, hv, rfl⟩ := mem_contents.mp hu
    rcases h.made v hv with hold | ⟨a, ha, -, hanswer⟩
    · exact .inl (mem_contents.mpr ⟨v, hold, rfl⟩)
    · exact .inr ⟨a, ha, hanswer⟩
  · intro hu
    rcases hu with hu | ⟨a, ha, hanswer⟩
    · obtain ⟨v, hv, rfl⟩ := mem_contents.mp hu
      exact mem_contents.mpr ⟨v, h.kept v hv, rfl⟩
    · exact h.answered a ha u hanswer

/-- A request for pieces that were joined before has the size of the request that joined them. -/
theorem answer_of_known (h : Extends r t asks) (hr : Indexed r)
    (hsizes : ∀ b ∈ asks, b.pieces = a.pieces → b = a) {v : Joined} (hv : v ∈ t.joins)
    (hpieces : v.pieces = a.pieces) {space : SpaceId} (hspace : r.idInRole? .joins = some space)
    (hall : (a.pieces.all fun p => r.isJoinable p.space) = true) :
    a.answer r = .ok v.unplaced := by
  rcases h.made v hv with hold | ⟨b, hb, hmade, hanswer⟩
  · unfold JoinRequest.answer
    rw [JoinRequest.outcome_of_known hspace hall (hr.joinOf?_eq_some_iff.mpr ⟨hold, hpieces⟩)]
    rfl
  · rw [← hsizes b hb (hmade.trans hpieces)]
    exact hanswer

theorem all_isJoinable_eq (h : Extends r t asks) (pieces : List Varnode) :
    (pieces.all fun p => t.isJoinable p.space) = pieces.all fun p => r.isJoinable p.space := by
  simp only [h.isJoinable_eq]

theorem answer_eq (h : Extends r t asks) (hr : Indexed r) (ht : Indexed t)
    (hsizes : ∀ b ∈ asks, b.pieces = a.pieces → b = a) (hroom : a.outcome t ≠ .error .overflow) :
    a.answer t = a.answer r := by
  rcases hspace : r.idInRole? .joins with _ | space
  · unfold JoinRequest.answer
    rw [a.outcome_eq, a.outcome_eq, h.idInRole?_eq, hspace]
  · have hspace' := h.idInRole?_eq.trans hspace
    have hall' := h.all_isJoinable_eq a.pieces
    rcases hall : a.pieces.all fun p => r.isJoinable p.space with _ | _
    · rw [hall] at hall'
      unfold JoinRequest.answer
      rw [a.outcome_eq, a.outcome_eq, hspace, hspace', hall, hall']
      rfl
    · rw [hall] at hall'
      rcases hfound : t.joinOf? a.pieces with _ | v
      · have hplan := a.outcome_of_new hspace' hall' hfound
        have hplan' := a.outcome_of_new hspace hall (h.joinOf?_eq_none hr ht hfound)
        have hfits : t.planJoin space a.pieces a.logical ≠ .error .overflow := by
          intro hover
          rw [hplan, hover] at hroom
          exact hroom rfl
        unfold JoinRequest.answer
        rw [hplan, hplan']
        exact planJoin_unplaced h.next hfits
      · obtain ⟨hmem, hpieces⟩ := ht.joinOf?_eq_some_iff.mp hfound
        rw [h.answer_of_known hr hsizes hmem hpieces hspace hall]
        unfold JoinRequest.answer
        rw [a.outcome_of_known hspace' hall' hfound]
        rfl

theorem snoc (h : Extends r t asks) (hr : Indexed r) (ht : Indexed t)
    (hsizes : ∀ b ∈ asks, b.pieces = a.pieces → b = a) (hroom : a.outcome t ≠ .error .overflow) :
    Extends r (a.request.perform t) (asks ++ [a]) := by
  have hanswer := h.answer_eq hr ht hsizes hroom
  have hexec := a.exec_join t
  have hmade : ∀ v ∈ t.joins, v ∈ r.joins ∨
      ∃ b ∈ asks ++ [a], b.pieces = v.pieces ∧ b.answer r = .ok v.unplaced := by
    intro v hv
    refine (h.made v hv).imp_right ?_
    intro hbefore
    obtain ⟨b, hb, hgranted⟩ := hbefore
    exact ⟨b, List.mem_append_left _ hb, hgranted⟩
  unfold JoinRequest.answer at hanswer
  -- only a first request that is granted adds a value; the others leave `t` as it is
  rcases houtcome : a.outcome t with e | v
  · rw [houtcome] at hexec hanswer
    rw [error_join hexec]
    refine ⟨h.rest, h.next, h.kept, hmade, List.forall_mem_append.mpr ⟨h.answered, ?_⟩⟩
    intro b hb u hu
    rw [List.mem_singleton.mp hb] at hu
    cases hanswer.trans hu
  · rw [houtcome] at hexec hanswer
    rcases join_eq_ok ht hexec with ⟨hold, hsame⟩ | ⟨-, hnew, space, joinNext, hplanned, hadd⟩
    · rw [hsame]
      refine ⟨h.rest, h.next, h.kept, hmade, List.forall_mem_append.mpr ⟨h.answered, ?_⟩⟩
      intro b hb u hu
      rw [List.mem_singleton.mp hb] at hu
      cases hanswer.trans hu
      exact mem_contents.mpr ⟨v, hold.mem, rfl⟩
    · rw [hadd]
      have hcontents : (t.addJoin v joinNext).contents = t.contents ++ [v.unplaced] :=
        List.map_append
      refine ⟨h.rest, ?_, ?_, ?_, List.forall_mem_append.mpr ⟨?_, ?_⟩⟩
      · have hnext := hplanned.next
        refine UInt64.le_trans h.next (UInt64.le_iff_toNat_le.mpr ?_)
        change t.joinNext.toNat ≤ joinNext.toNat
        omega
      · intro w hw
        exact List.mem_append_left _ (h.kept w hw)
      · intro w hw
        rcases List.mem_append.mp hw with hw | hw
        · exact hmade w hw
        · rw [List.mem_singleton.mp hw]
          exact .inr ⟨a, List.mem_append_right _ (List.mem_singleton_self a), hnew.made.symm,
            hanswer.symm⟩
      · intro b hb u hu
        rw [hcontents]
        exact List.mem_append_left _ (h.answered b hb u hu)
      · intro b hb u hu
        rw [List.mem_singleton.mp hb] at hu
        cases hanswer.trans hu
        rw [hcontents]
        exact List.mem_append_right _ (List.mem_singleton_self _)

/-- A request that finds room at first and is granted in one order of requests finds room in any
other order. -/
theorem outcome_ne_overflow {u : Registry} {asks' : List JoinRequest} (h : Extends r t asks)
    (hu : Extends r u asks') (hr : Indexed r) (ht : Indexed t) (hplaced : Placed t)
    (hplaced' : Placed u) (hasks : ∀ b ∈ asks, b ∈ asks') (ha : a ∈ asks')
    (hgranted : a.outcome r ≠ .error .overflow) : a.outcome t ≠ .error .overflow := by
  intro hover
  obtain ⟨hnew, hall, space, hspace, hplan⟩ := JoinRequest.of_outcome_eq_overflow hover
  rw [h.all_isJoinable_eq] at hall
  rw [h.idInRole?_eq] at hspace
  have hfirst := a.outcome_of_new hspace hall (h.joinOf?_eq_none hr ht hnew)
  have hfit : ¬Joined.Unfit a.pieces a.logical := by
    intro hunfit
    obtain ⟨cause, hcause⟩ := planJoin_of_unfit hunfit t space
    cases hplan.symm.trans hcause
  rcases planJoin_of_fit hfit r space with ⟨w, next, hplan'⟩ | ⟨hplan', -⟩
  · have hplanned := planJoin_eq_ok_iff.mp hplan'
    rw [hplan'] at hfirst
    have hanswer : a.answer r = .ok w.unplaced := congrArg (Except.map Joined.unplaced) hfirst
    have hold : ∀ v ∈ t.contents, v ∈ u.contents := by
      intro v hv
      rw [hu.mem_contents_iff]
      refine (h.mem_contents_iff.mp hv).imp_right ?_
      intro hv
      obtain ⟨b, hb, hv⟩ := hv
      exact ⟨b, hasks b hb, hv⟩
    have hother : w.unplaced ∉ t.contents := by
      intro hmem
      obtain ⟨v, hv, hvw⟩ := mem_contents.mp hmem
      exact ht.ne_of_joinOf?_eq_none hnew hv ((congrArg Joined.pieces hvw).trans hplanned.made)
    -- the places of all these values fit in front of where `u` places the next one
    have hle := hplaced.joinNext_add_room_le hplaced' ht hold (hu.answered a ha _ hanswer) hother
    rcases planJoin_of_fit hfit t space with ⟨_, _, hok⟩ | ⟨-, hroom⟩
    · cases hplan.symm.trans hok
    · have hlt := u.joinNext.toNat_lt
      rw [Joined.room_unplaced, Joined.room, hplanned.size] at hle
      omega
  · rw [hplan'] at hfirst
    exact hgranted hfirst

end Extends

/-! ## Orders of requests -/

/-- Requests for the same pieces are for the same logical size. -/
def SizesAgree (asks : List JoinRequest) : Prop :=
  ∀ a ∈ asks, ∀ b ∈ asks, a.pieces = b.pieces → a.logical = b.logical

instance (asks : List JoinRequest) : Decidable (SizesAgree asks) :=
  inferInstanceAs (Decidable (∀ a ∈ asks, ∀ b ∈ asks, _))

theorem SizesAgree.of_subset {asks asks' : List JoinRequest} (h : SizesAgree asks)
    (hmem : ∀ a ∈ asks', a ∈ asks) : SizesAgree asks' :=
  fun a ha b hb => h a (hmem a ha) b (hmem b hb)

theorem SizesAgree.eq_of_pieces {asks : List JoinRequest} (h : SizesAgree asks)
    {a b : JoinRequest} (ha : a ∈ asks) (hb : b ∈ asks) (hpieces : a.pieces = b.pieces) :
    a = b := by
  have hlogical := h a ha b hb hpieces
  rcases a with ⟨_, _⟩
  cases hpieces
  cases hlogical
  rfl

theorem Placed.afterJoins {r : Registry} (hr : Placed r) (asks : List JoinRequest) :
    Placed (r.afterJoins asks) :=
  Action.keep_of_steps (P := Placed) (fun _ _ step => step.placed) (steps_after r _) hr

theorem Indexed.afterJoins {r : Registry} (hr : Indexed r) (asks : List JoinRequest) :
    Indexed (r.afterJoins asks) :=
  Action.keep_of_steps (P := Indexed) (fun _ _ step => step.indexed) (steps_after r _) hr

section Orders
variable {r : Registry} (hr : Indexed r) {asks : List JoinRequest} (hsizes : SizesAgree asks)
  (hroom : .error .overflow ∉ r.outcomes asks)
include hr hsizes hroom

/-- Requests that find room are answered as if each of them were the only one, places forgotten. -/
theorem extends_afterJoins : Extends r (r.afterJoins asks) asks ∧
    (r.outcomes asks).map (Except.map Joined.unplaced) = asks.map fun a => a.answer r := by
  induction asks using List.reverseRecOn with
  | nil => exact ⟨.refl r, rfl⟩
  | append_singleton asks a ih =>
      rw [outcomes_snoc, List.mem_append, not_or, List.mem_singleton] at hroom
      have hbefore : ∀ b ∈ asks, b ∈ asks ++ [a] := fun b hb => List.mem_append_left _ hb
      have hlast : a ∈ asks ++ [a] := List.mem_append_right _ (List.mem_singleton_self a)
      obtain ⟨hextends, hanswers⟩ := ih (hsizes.of_subset hbefore) hroom.1
      have hsame : ∀ b ∈ asks, b.pieces = a.pieces → b = a := fun b hb =>
        hsizes.eq_of_pieces (hbefore b hb) hlast
      have ht := hr.afterJoins asks
      have hfits : a.outcome (r.afterJoins asks) ≠ .error .overflow := Ne.symm hroom.2
      rw [afterJoins_snoc, outcomes_snoc, List.map_append, List.map_append, hanswers]
      refine ⟨hextends.snoc hr ht hsame hfits, congrArg _ ?_⟩
      exact congrArg (fun x => [x]) (hextends.answer_eq hr ht hsame hfits)

theorem outcome_ne_overflow_of_mem {a : JoinRequest} (ha : a ∈ asks) :
    a.outcome r ≠ .error .overflow := by
  intro hover
  have hanswers := (extends_afterJoins hr hsizes hroom).2
  have hmem : a.answer r ∈ (r.outcomes asks).map (Except.map Joined.unplaced) := by
    rw [hanswers]
    exact List.mem_map_of_mem ha
  obtain ⟨o, ho, hanswer⟩ := List.mem_map.mp hmem
  unfold JoinRequest.answer at hanswer
  rw [hover] at hanswer
  cases o with
  | error e =>
      cases hanswer
      exact hroom ho
  | ok v => cases hanswer

/-- Where requests find room in one order, all or some of them do in any other. -/
theorem no_overflow_of_subset (hplaced : Placed r) {asks' : List JoinRequest}
    (hmem : ∀ a ∈ asks', a ∈ asks) : .error .overflow ∉ r.outcomes asks' := by
  induction asks' using List.reverseRecOn with
  | nil => exact List.not_mem_nil
  | append_singleton earlier a ih =>
      have hbefore : ∀ b ∈ earlier, b ∈ asks := fun b hb => hmem b (List.mem_append_left _ hb)
      have ha := hmem a (List.mem_append_right _ (List.mem_singleton_self a))
      have hearlier := ih hbefore
      obtain ⟨hextends, -⟩ := extends_afterJoins hr (hsizes.of_subset hbefore) hearlier
      rw [outcomes_snoc, List.mem_append, not_or, List.mem_singleton]
      refine ⟨hearlier, Ne.symm ?_⟩
      exact hextends.outcome_ne_overflow (extends_afterJoins hr hsizes hroom).1 hr
        (hr.afterJoins earlier) (hplaced.afterJoins earlier) (hplaced.afterJoins asks) hbefore ha
        (outcome_ne_overflow_of_mem hr hsizes hroom ha)

end Orders

/-- Requests for joined values, of which those for the same pieces are for the same size and all find
room, find room in any other order too. Each of them is answered in both orders with the same error,
or with the same value but for its place. Both orders leave the same values behind but for their
places, as many of them, the same offset for the next value, and all else as it was. -/
theorem joins_order_independent {history : List Request} {asks asks' : List JoinRequest}
    (hperm : asks.Perm asks') (hsizes : SizesAgree asks)
    (hroom : .error .overflow ∉ (start.after history).outcomes asks) :
    let r := start.after history
    let t := r.afterJoins asks
    let t' := r.afterJoins asks'
    .error .overflow ∉ r.outcomes asks' ∧
    (∀ (i j : Nat) (a : JoinRequest), asks[i]? = some a → asks'[j]? = some a → ∃ o o',
      (r.outcomes asks)[i]? = some o ∧ (r.outcomes asks')[j]? = some o' ∧
      Except.map Joined.unplaced o = Except.map Joined.unplaced o') ∧
    t.contents.Perm t'.contents ∧ t.joins.length = t'.joins.length ∧ t.joinNext = t'.joinNext ∧
    t.withoutJoins = r.withoutJoins ∧ t'.withoutJoins = r.withoutJoins := by
  intro r t t'
  have hr : Indexed r := indexed_after history
  have hplaced : Placed r := placed_after history
  have hmem : ∀ a ∈ asks', a ∈ asks := fun a => hperm.mem_iff.mpr
  have hroom' := no_overflow_of_subset hr hsizes hroom hplaced hmem
  obtain ⟨ht, hanswers⟩ := extends_afterJoins hr hsizes hroom
  obtain ⟨ht', hanswers'⟩ := extends_afterJoins hr (hsizes.of_subset hmem) hroom'
  have hcontents : t.contents.Perm t'.contents := by
    rw [List.perm_ext_iff_of_nodup (hr.afterJoins asks).nodup_contents
      (hr.afterJoins asks').nodup_contents]
    intro u
    rw [ht.mem_contents_iff, ht'.mem_contents_iff]
    simp only [hperm.mem_iff]
  refine ⟨hroom', ?_, hcontents, ?_, ?_, ht.rest, ht'.rest⟩
  · intro i j a hi hj
    have ho := congrArg (fun xs => xs[i]?) hanswers
    have ho' := congrArg (fun xs => xs[j]?) hanswers'
    simp only [List.getElem?_map, hi, hj, Option.map_some, Option.map_eq_some_iff] at ho ho'
    obtain ⟨o, ho, hanswer⟩ := ho
    obtain ⟨o', ho', hanswer'⟩ := ho'
    exact ⟨o, o', ho, ho', hanswer.trans hanswer'.symm⟩
  · have hlength := hcontents.length_eq
    unfold contents at hlength
    rw [List.length_map, List.length_map] at hlength
    exact hlength
  · apply UInt64.toNat_inj.mp
    rw [(hplaced.afterJoins asks).joinNext_eq, (hplaced.afterJoins asks').joinNext_eq]
    exact (hcontents.map Joined.room).sum_nat

/-- A memory and a space of joined values. -/
def joinableMemory : List Request :=
  [.insert (.ofMemory "ram" 1 4 1 .little 1), .insert (.ofJoins 2)]

/-- Two pieces, asked for twice, a piece in no space, a single one that is extended, and none. -/
def mixedRequests : List JoinRequest :=
  [⟨[⟨⟨1⟩, 0, 40⟩, ⟨⟨1⟩, 64, 4⟩], 0⟩, ⟨[⟨⟨1⟩, 0, 40⟩, ⟨⟨1⟩, 64, 4⟩], 0⟩, ⟨[⟨⟨7⟩, 0, 4⟩], 8⟩,
    ⟨[⟨⟨1⟩, 0, 4⟩], 10⟩, ⟨[], 3⟩]

/-- The other way round, the same values lie at other places. -/
theorem joins_order_independent_mixed :
    let r := start.after joinableMemory
    let t := r.afterJoins mixedRequests
    let t' := r.afterJoins mixedRequests.reverse
    mixedRequests.Perm mixedRequests.reverse ∧ SizesAgree mixedRequests ∧
      .error .overflow ∉ r.outcomes mixedRequests ∧
      t.contents.Perm t'.contents ∧ t.joinNext = t'.joinNext ∧ t.joins ≠ t'.joins := by
  intro r t t'
  have hperm : mixedRequests.Perm mixedRequests.reverse := (List.reverse_perm _).symm
  have hsizes : SizesAgree mixedRequests := by decide
  have hroom : .error .overflow ∉ r.outcomes mixedRequests := by decide +kernel
  obtain ⟨-, -, hcontents, -, hnext, -⟩ := joins_order_independent hperm hsizes hroom
  exact ⟨hperm, hsizes, hroom, hcontents, hnext, by decide +kernel⟩

end Registry

end Pcode
