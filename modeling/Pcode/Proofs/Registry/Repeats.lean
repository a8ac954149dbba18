import Pcode.Proofs.Registry.Placement

/-!
# Repeated requests for joined values

A joined value is made by the first request for its pieces that is granted. From then on every
request for the same pieces obtains the same value, and leaves the registry as it is.
-/
namespace Pcode.Registry
open Pcode.Joined (Unfit)
open Relation (ReflTransGen)

/-! ## The index of joined values -/

/-- Every joined value is found by its pieces at its position, and nothing else is found. -/
def Indexed (r : Registry) : Prop :=
  ∀ pieces i, Ordered.find? Joined.order pieces r.joinIndex = some i ↔
    ∃ v, r.joins[i]? = some v ∧ v.pieces = pieces

section Indexed
variable {r : Registry} (hr : Indexed r) {pieces : List Varnode}
include hr

theorem Indexed.joinOf?_eq_some_iff {v : Joined} :
    r.joinOf? pieces = some v ↔ v ∈ r.joins ∧ v.pieces = pieces := by
  unfold joinOf?
  rw [Option.bind_eq_some_iff]
  constructor
  · intro h
    obtain ⟨i, hfound, hv⟩ := h
    obtain ⟨w, hw, hpieces⟩ := (hr pieces i).mp hfound
    cases hv.symm.trans hw
    exact ⟨List.mem_of_getElem? hv, hpieces⟩
  · intro h
    obtain ⟨hmem, hpieces⟩ := h
    obtain ⟨i, hi⟩ := List.mem_iff_getElem?.mp hmem
    exact ⟨i, (hr pieces i).mpr ⟨v, hi, hpieces⟩, hi⟩

theorem Indexed.ne_of_joinOf?_eq_none (h : r.joinOf? pieces = none) {v : Joined}
    (hv : v ∈ r.joins) : v.pieces ≠ pieces := by
  intro hpieces
  rw [hr.joinOf?_eq_some_iff.mpr ⟨hv, hpieces⟩] at h
  cases h

end Indexed

theorem indexed_start : Indexed start := by
  intro pieces i
  constructor
  · intro h
    cases h
  · intro h
    obtain ⟨v, hv, -⟩ := h
    cases hv

theorem Indexed.addJoin {r : Registry} (hr : Indexed r) {value : Joined}
    (hnew : r.joinOf? value.pieces = none) (joinNext : UInt64) :
    Indexed (r.addJoin value joinNext) := by
  intro pieces i
  change Ordered.find? _ _ (Ordered.place _ _ _ _) = _ ↔ ∃ v, (r.joins ++ [value])[i]? = _ ∧ _
  by_cases hp : pieces = value.pieces
  · subst hp
    rw [Ordered.find?_place_self, Option.some.injEq]
    constructor
    · intro hi
      exact ⟨value, by simp [← hi], rfl⟩
    · intro h
      obtain ⟨v, hv, hpieces⟩ := h
      have hlt := (List.getElem?_eq_some_iff.mp hv).1
      rw [List.length_append, List.length_singleton] at hlt
      rcases Nat.lt_or_ge i r.joins.length with hi | hi
      · rw [List.getElem?_append_left hi] at hv
        exact absurd hpieces (hr.ne_of_joinOf?_eq_none hnew (List.mem_of_getElem? hv))
      · omega
  · rw [Ordered.find?_place_of_ne hp, hr pieces i]
    constructor
    · intro h
      obtain ⟨v, hv, hpieces⟩ := h
      have hlt := (List.getElem?_eq_some_iff.mp hv).1
      exact ⟨v, by rw [List.getElem?_append_left hlt, hv], hpieces⟩
    · intro h
      obtain ⟨v, hv, hpieces⟩ := h
      have hlt := (List.getElem?_eq_some_iff.mp hv).1
      rw [List.length_append, List.length_singleton] at hlt
      rcases Nat.lt_or_ge i r.joins.length with hi | hi
      · rw [List.getElem?_append_left hi] at hv
        exact ⟨v, hv, hpieces⟩
      · obtain rfl : i = r.joins.length := by omega
        rw [List.getElem?_concat_length, Option.some.injEq] at hv
        exact absurd (hv ▸ hpieces).symm hp

theorem Step.indexed {r t : Registry} (h : Step r t) (hr : Indexed r) : Indexed t := by
  cases h with
  | spaces h =>
      obtain ⟨hjoins, hindex, -⟩ := h.joins_eq
      unfold Indexed
      rw [hjoins, hindex]
      exact hr
  | join _ _ hnew hplan =>
      have hplanned := planJoin_eq_ok_iff.mp hplan
      exact hr.addJoin (hplanned.made ▸ hnew) _

theorem indexed_after (history : List Request) : Indexed (start.after history) :=
  holds_after indexed_start Step.indexed history

/-! ## One request -/

/-- A request for these pieces is answered with a joined value that exists. -/
structure Answers (r : Registry) (pieces : List Varnode) (v : Joined) : Prop where
  space : ∃ id, r.idInRole? .joins = some id
  joinable : ∀ p ∈ pieces, r.isJoinable p.space = true
  mem : v ∈ r.joins
  made : v.pieces = pieces

theorem Step.answers {r t : Registry} (h : Step r t) {pieces : List Varnode} {v : Joined}
    (hv : r.Answers pieces v) : t.Answers pieces v where
  space := hv.space.imp fun _ => h.idInRole?
  joinable := fun p hp => h.isJoinable (hv.joinable p hp)
  mem := h.mem_joins hv.mem
  made := hv.made

/-- A request that is not granted changes nothing. -/
theorem error_join {r t : Registry} {pieces : List Varnode} {logical : UInt64}
    {e : Failure Joined.Error} (h : (join pieces logical).exec r = (.error e, t)) : t = r := by
  rw [exec_join] at h
  split at h
  next =>
    cases h
    rfl
  next space hrole =>
    split at h
    next =>
      split at h
      next => cases h
      next =>
        rw [exec_pushJoin] at h
        split at h
        next => cases h
        next =>
          cases h
          rfl
    next =>
      cases h
      rfl

section Join
variable {r t : Registry} (hr : Indexed r) {pieces : List Varnode} {logical : UInt64} {v : Joined}
include hr

theorem Answers.exec_join (h : r.Answers pieces v) (logical : UInt64) :
    (join pieces logical).exec r = (.ok v, r) := by
  obtain ⟨id, hid⟩ := h.space
  rw [Registry.exec_join, hid]
  simp only
  rw [if_pos (List.all_eq_true.mpr h.joinable),
    hr.joinOf?_eq_some_iff.mpr ⟨h.mem, h.made⟩]

/-- A request that is granted finds a joined value or makes one. -/
theorem join_eq_ok (h : (join pieces logical).exec r = (.ok v, t)) :
    r.Answers pieces v ∧ t = r ∨
      r.joinOf? pieces = none ∧ t.Answers pieces v ∧
        ∃ space joinNext, r.Planned space pieces logical v joinNext ∧ t = r.addJoin v joinNext := by
  rw [exec_join] at h
  rcases hrole : r.idInRole? .joins with _ | space
  · rw [hrole] at h
    cases h
  · rw [hrole] at h
    simp only at h
    split at h
    next hall =>
      rw [List.all_eq_true] at hall
      rcases hold : r.joinOf? pieces with _ | w
      · rw [hold] at h
        simp only at h
        rw [exec_pushJoin] at h
        rcases hplan : r.planJoin space pieces logical with e | ⟨w, joinNext⟩
        · rw [hplan] at h
          cases h
        · rw [hplan] at h
          cases h
          have hplanned := planJoin_eq_ok_iff.mp hplan
          refine .inr ⟨rfl, ⟨⟨space, hrole⟩, hall, ?_, hplanned.made⟩, space, joinNext, hplanned, rfl⟩
          exact List.mem_append_right _ (List.mem_singleton_self v)
      · rw [hold] at h
        cases h
        obtain ⟨hmem, hmade⟩ := hr.joinOf?_eq_some_iff.mp hold
        exact .inl ⟨⟨⟨space, hrole⟩, hall, hmem, hmade⟩, rfl⟩
    next => cases h

theorem mem_joins_of_join (hv : v ∈ ((join pieces logical).exec r).2.joins) :
    v ∈ r.joins ∨ v.pieces = pieces ∧ ((join pieces logical).exec r).1 = .ok v := by
  rcases hexec : (join pieces logical).exec r with ⟨e | w, t⟩
  · rw [hexec] at hv
    rw [error_join hexec] at hv
    exact .inl hv
  · rw [hexec] at hv
    rcases join_eq_ok hr hexec with ⟨-, rfl⟩ | ⟨-, hnew, _, _, -, rfl⟩
    · exact .inl hv
    · rcases List.mem_append.mp hv with hold | hlast
      · exact .inl hold
      · obtain rfl := List.mem_singleton.mp hlast
        exact .inr ⟨hnew.made, rfl⟩

end Join

theorem isJoinable_eq_false_iff {r : Registry} {id : SpaceId} :
    r.isJoinable id = false ↔
      ∀ s, r.find? id = some s → s.purpose ≠ .processor ∧ s.purpose ≠ .based := by
  unfold isJoinable
  rcases r.find? id with _ | s
  · simp
  · simp only [Option.any_some, Option.some.injEq, forall_eq']
    cases s.purpose <;> decide

/-- The conditions under which a first request is refused. -/
def Refuses (r : Registry) (pieces : List Varnode) (logical : UInt64) : Prop :=
  r.idInRole? .joins = none ∨
    (∃ p ∈ pieces, ∀ s, r.find? p.space = some s → s.purpose ≠ .processor ∧ s.purpose ≠ .based) ∨
    Unfit pieces logical

/-- A request for new pieces is refused under these conditions, or it is granted, or the joined
value has no room left. -/
theorem join_of_new {r : Registry} {pieces : List Varnode} (hnew : r.joinOf? pieces = none)
    (logical : UInt64) :
    r.Refuses pieces logical ∧ (∃ cause, (join pieces logical).exec r = (.error (.refused cause), r)) ∨
      ¬r.Refuses pieces logical ∧
        ((∃ v t, (join pieces logical).exec r = (.ok v, t)) ∨
          (join pieces logical).exec r = (.error .overflow, r) ∧
          2 ^ 64 ≤ r.joinNext.toNat + Joined.roomFor (max (Joined.total pieces) logical.toNat)) := by
  rw [exec_join]
  rcases hrole : r.idInRole? .joins with _ | space
  · exact .inl ⟨.inl hrole, _, rfl⟩
  · simp only
    split
    next hall =>
      rw [List.all_eq_true] at hall
      rw [hnew]
      simp only
      rw [exec_pushJoin]
      by_cases hfit : Unfit pieces logical
      · left
        obtain ⟨cause, hcause⟩ := planJoin_of_unfit hfit r space
        rw [hcause]
        exact ⟨.inr (.inr hfit), cause, rfl⟩
      · right
        constructor
        · intro hrefuses
          rcases hrefuses with hnone | ⟨p, hp, hbad⟩ | hunfit
          · rw [hrole] at hnone
            cases hnone
          · rw [← isJoinable_eq_false_iff, hall p hp] at hbad
            cases hbad
          · exact hfit hunfit
        · rcases planJoin_of_fit hfit r space with ⟨v, joinNext, hplan⟩ | ⟨hplan, hroom⟩
          · rw [hplan]
            exact .inl ⟨v, _, rfl⟩
          · rw [hplan]
            exact .inr ⟨rfl, hroom⟩
    next hall =>
      left
      rw [List.all_eq_true] at hall
      push Not at hall
      obtain ⟨p, hp, hbad⟩ := hall
      rw [← Bool.eq_false_iff, isJoinable_eq_false_iff] at hbad
      exact ⟨.inr (.inl ⟨p, hp, hbad⟩), _, rfl⟩

/-! ## Requests that come to a join -/

namespace Request

/-- The pieces and the logical size of the joined value that a request asks for, if it comes to
that. -/
def joining? (r : Registry) : Request → Option (List Varnode × UInt64)
  | join pieces logical => some (pieces, logical)
  | widen real size logical =>
    if logical = size then none else some ([.ofAddress real size], logical)
  | concat hi hiSize lo loSize =>
    match r.find? hi.space, r.find? lo.space with
    | some hiSpace, some loSpace =>
      if hiSpace.purpose.isJoinable && loSpace.purpose.isJoinable then
        match r.adjoined? hi hiSize lo loSize hiSpace loSpace with
        | some _ => none
        | none => some ([.ofAddress hi hiSize, .ofAddress lo loSize], 0)
      else none
    | _, _ => none
  | _ => none

/-- The address that a request for a joined value, direct or not, answers with. -/
def address? (r : Registry) : Request → Option (Except (Failure Joined.Error) Address)
  | join pieces logical => some ((Registry.joinAddress pieces logical).exec r).1
  | widen real size logical => some ((Registry.widen real size logical).exec r).1
  | concat hi hiSize lo loSize => some ((Registry.concat hi hiSize lo loSize).exec r).1
  | _ => none

variable {r : Registry} {q : Request}

theorem joining?_eq_some {pieces : List Varnode} {logical : UInt64}
    (h : q.joining? r = some (pieces, logical)) :
    q.address? r = some (((Registry.join pieces logical).exec r).1.map fun v => v.whole.address) ∧
      q.perform r = ((Registry.join pieces logical).exec r).2 := by
  cases q with
  | join ps l =>
      cases h
      simp only [address?, perform, exec_joinAddress, and_self]
  | widen real size l =>
      simp only [joining?] at h
      split at h
      next => cases h
      next hne =>
        cases h
        simp only [address?, perform, exec_widen, if_neg hne, exec_joinAddress, and_self]
  | concat hi hiSize lo loSize =>
      simp only [joining?] at h
      split at h
      next hiSpace loSpace hhi hlo =>
        split at h
        next hall =>
          split at h
          next => cases h
          next hadjoin =>
            cases h
            simp only [address?, perform, exec_concat, hhi, hlo, if_pos hall, hadjoin,
              exec_joinAddress, and_self]
        next => cases h
      next => cases h
  | _ => cases h

/-- The joined values after operations on spaces alone. -/
theorem joins_of_spaces {ε α : Type} {x : Action Registry ε α} (h : x.Moves SpaceStep)
    (r : Registry) : (x.exec r).2.joins = r.joins :=
  h.keeps (P := fun t => t.joins = r.joins) (fun hstep hr => hstep.joins_eq.1.trans hr) rfl

/-- Only a request that comes to a join makes a joined value. -/
theorem joins_perform_of_none (h : q.joining? r = none) : (q.perform r).joins = r.joins := by
  cases q with
  | insert s => exact joins_of_spaces (moves_insert s) r
  | fill e order => exact joins_of_spaces (moves_fill e order) r
  | adopt source => exact joins_of_spaces (moves_adopt source) r
  | chooseDefault id => exact joins_of_spaces (moves_chooseDefault id) r
  | narrow name size => exact joins_of_spaces (moves_narrow name size) r
  | anchor id register size growsDown =>
      exact joins_of_spaces (moves_anchor id register size growsDown) r
  | reverseJustify id => rfl
  | setDeadcodeWait id delay => rfl
  | resolveBy id resolver => rfl
  | join ps l => cases h
  | widen real size l =>
      simp only [joining?] at h
      split at h
      next heq => simp only [perform, exec_widen, if_pos heq]
      next => cases h
  | concat hi hiSize lo loSize =>
      rcases hhi : r.find? hi.space with _ | hiSpace
      · simp only [perform, exec_concat, hhi]
      · rcases hlo : r.find? lo.space with _ | loSpace
        · simp only [perform, exec_concat, hhi, hlo]
        · simp only [joining?, hhi, hlo] at h
          simp only [perform, exec_concat, hhi, hlo]
          by_cases hall : (hiSpace.purpose.isJoinable && loSpace.purpose.isJoinable) = true
          · rw [if_pos hall] at h
            rw [if_pos hall]
            rcases hadjoin : r.adjoined? hi hiSize lo loSize hiSpace loSpace with _ | address
            · rw [hadjoin] at h
              cases h
            · rfl
          · rw [if_neg hall]

end Request

/-! ## Histories -/

/-- The registry that the request at a position of a history meets. -/
def before (history : List Request) (i : Nat) : Registry := start.after (history.take i)

/-- The request at a position of a history asks for a joined value. -/
def Asks (history : List Request) (i : Nat) (pieces : List Varnode) (logical : UInt64) : Prop :=
  ∃ q, history[i]? = some q ∧ q.joining? (before history i) = some (pieces, logical)

/-- The request at a position of a history asks for a joined value and is granted it. -/
def Obtains (history : List Request) (i : Nat) (pieces : List Varnode) (logical : UInt64)
    (v : Joined) : Prop :=
  Asks history i pieces logical ∧ ((join pieces logical).exec (before history i)).1 = .ok v

section Histories
variable {history : List Request} {i j : Nat} {pieces : List Varnode} {logical : UInt64}
  {v : Joined}

theorem indexed_before (history : List Request) (i : Nat) : Indexed (before history i) :=
  indexed_after _

theorem before_succ {q : Request} (hq : history[i]? = some q) :
    before history (i + 1) = q.perform (before history i) := by
  unfold before
  rw [List.take_add_one, hq, after_append]
  rfl

theorem steps_before (hij : i ≤ j) :
    ReflTransGen Step (before history i) (before history j) := by
  have hsplit : before history j =
      (before history i).after ((history.take j).drop i) := by
    unfold before
    rw [← after_append]
    conv_lhs => rw [← List.take_append_drop i (history.take j)]
    rw [List.take_take, Nat.min_eq_left hij]
  rw [hsplit]
  exact steps_after _ _

theorem Asks.before_succ (h : Asks history i pieces logical) :
    before history (i + 1) = ((join pieces logical).exec (before history i)).2 := by
  obtain ⟨q, hq, hjoining⟩ := h
  rw [Registry.before_succ hq, (Request.joining?_eq_some hjoining).2]

theorem Obtains.lt_length (h : Obtains history i pieces logical v) : i < history.length := by
  obtain ⟨⟨q, hq, -⟩, -⟩ := h
  exact (List.getElem?_eq_some_iff.mp hq).1

theorem Obtains.exec_join (h : Obtains history i pieces logical v) :
    (join pieces logical).exec (before history i) = (.ok v, before history (i + 1)) := by
  rw [h.1.before_succ, ← h.2]

/-- What a request obtained answers all later requests for the same pieces. -/
theorem Obtains.answers (h : Obtains history i pieces logical v) (hij : i < j) :
    (before history j).Answers pieces v := by
  refine Action.keep_of_steps (P := fun r => r.Answers pieces v) (fun _ _ h => h.answers)
    (steps_before hij) ?_
  rcases join_eq_ok (indexed_before history i) h.exec_join with ⟨hold, heq⟩ | ⟨-, hnew, -⟩
  · rw [heq]
    exact hold
  · exact hnew

theorem Obtains.mem_joins (h : Obtains history i pieces logical v) :
    v ∈ (start.after history).joins ∧ v.pieces = pieces := by
  have hanswers := h.answers (j := history.length) h.lt_length
  unfold before at hanswers
  rw [List.take_length] at hanswers
  exact ⟨hanswers.mem, hanswers.made⟩

/-- Every joined value was obtained by an earlier request. -/
theorem exists_obtains (hv : v ∈ (before history i).joins) :
    ∃ j < i, ∃ logical, Obtains history j v.pieces logical v := by
  induction i with
  | zero => cases hv
  | succ i ih =>
      by_cases hold : v ∈ (before history i).joins
      · obtain ⟨j, hj, h⟩ := ih hold
        exact ⟨j, by omega, h⟩
      · rcases hq : history[i]? with _ | q
        · have hsame : before history (i + 1) = before history i := by
            have hle := List.getElem?_eq_none_iff.mp hq
            unfold before
            rw [List.take_of_length_le hle, List.take_of_length_le (by omega)]
          exact absurd (hsame ▸ hv) hold
        · rcases hjoining : q.joining? (before history i) with _ | ⟨pieces, logical⟩
          · rw [before_succ hq, Request.joins_perform_of_none hjoining] at hv
            exact absurd hv hold
          · have hasks : Asks history i pieces logical := ⟨q, hq, hjoining⟩
            rw [hasks.before_succ] at hv
            rcases mem_joins_of_join (indexed_before history i) hv with hmem | ⟨rfl, hok⟩
            · exact absurd hmem hold
            · exact ⟨i, Nat.lt_succ_self i, logical, hasks, hok⟩

/-- What the first request for its pieces obtained was made for it. -/
theorem Obtains.planned_of_first (h : Obtains history i pieces logical v)
    (hfirst : ∀ j < i, ∀ l w, ¬Obtains history j pieces l w) :
    ∃ space joinNext, (before history i).Planned space pieces logical v joinNext := by
  rcases join_eq_ok (indexed_before history i) h.exec_join with
    ⟨hold, -⟩ | ⟨-, -, space, joinNext, hplanned, -⟩
  · obtain ⟨j, hj, l, hobtains⟩ := exists_obtains hold.mem
    rw [hold.made] at hobtains
    exact absurd hobtains (hfirst j hj l v)
  · exact ⟨space, joinNext, hplanned⟩

/-- Pieces that no request has obtained a joined value for are new. -/
theorem joinOf?_of_first (hfirst : ∀ j < i, ∀ l w, ¬Obtains history j pieces l w) :
    (before history i).joinOf? pieces = none := by
  rcases hfound : (before history i).joinOf? pieces with _ | v
  · rfl
  · obtain ⟨hmem, rfl⟩ := (indexed_before history i).joinOf?_eq_some_iff.mp hfound
    obtain ⟨j, hj, l, hobtains⟩ := exists_obtains hmem
    exact absurd hobtains (hfirst j hj l v)

theorem Obtains.eq_of_pieces {logical' : UInt64} {w : Joined}
    (h : Obtains history i pieces logical v) (h' : Obtains history j pieces logical' w) :
    v = w := by
  have hindexed := indexed_after history
  have hv := hindexed.joinOf?_eq_some_iff.mpr h.mem_joins
  have hw := hindexed.joinOf?_eq_some_iff.mpr h'.mem_joins
  exact Option.some.inj (hv.symm.trans hw)

theorem Obtains.exists_first (h : Obtains history i pieces logical v) :
    ∃ i₀ ≤ i, ∃ logical₀, Obtains history i₀ pieces logical₀ v ∧
      ∀ j < i₀, ∀ l w, ¬Obtains history j pieces l w := by
  induction i using Nat.strongRecOn generalizing logical with
  | ind i ih =>
      by_cases hearlier : ∃ j < i, ∃ l w, Obtains history j pieces l w
      · obtain ⟨j, hj, l, w, hw⟩ := hearlier
        obtain rfl := h.eq_of_pieces hw
        obtain ⟨i₀, hle, hfirst⟩ := ih j hj hw
        exact ⟨i₀, by omega, hfirst⟩
      · push Not at hearlier
        exact ⟨i, Nat.le_refl i, logical, h, hearlier⟩

/-- Two joined values at one place are the same. -/
theorem eq_of_whole_eq {w : Joined} (hv : v ∈ (start.after history).joins)
    (hw : w ∈ (start.after history).joins) (h : v.whole = w.whole) : v = w := by
  have htiles := (placed_after history).tiles
  obtain ⟨i, hi⟩ := List.mem_iff_getElem?.mp hv
  obtain ⟨j, hj⟩ := List.mem_iff_getElem?.mp hw
  have hne := (htiles.around hi).2.1
  have hpos : 0 < v.whole.size.toNat :=
    Nat.pos_of_ne_zero fun hzero => hne (UInt64.toNat_inj.mp hzero)
  have hcovers : v.Covers v.whole.offset := by
    refine ⟨Nat.le_refl _, ?_⟩
    simp only [Joined.room, Joined.roomFor]
    omega
  have hcovers' : w.Covers v.whole.offset := by
    unfold Joined.Covers Joined.room at hcovers ⊢
    rw [← h]
    exact hcovers
  obtain rfl := htiles.index_unique hi hj hcovers hcovers'
  exact Option.some.inj (hi.symm.trans hj)

theorem Asks.obtains_again {logical' : UInt64} (h : Obtains history i pieces logical v)
    (hij : i < j) (hasks : Asks history j pieces logical') :
    Obtains history j pieces logical' v ∧ before history (j + 1) = before history j := by
  have hexec := (h.answers hij).exec_join (indexed_before history j) logical'
  refine ⟨⟨hasks, ?_⟩, ?_⟩
  · rw [hexec]
  · rw [hasks.before_succ, hexec]

theorem Obtains.extends_piece {p : Varnode} (h : Obtains history i [p] logical v) :
    p.size < v.whole.size := by
  obtain ⟨i₀, -, logical₀, hobtains, hfirst⟩ := h.exists_first
  obtain ⟨_, _, hplanned⟩ := hobtains.planned_of_first hfirst
  have htotal : Joined.total [p] = p.size.toNat := by simp [Joined.total]
  have hlogical : ¬logical₀.toNat ≤ Joined.total [p] := fun hle =>
    hplanned.fit (.inr (.inr ⟨rfl, hle⟩))
  rw [UInt64.lt_iff_toNat_lt, hplanned.size]
  omega

end Histories

/-- In every history of requests, the requests for joined values, direct or not, are runs of `join`.
Two that are granted obtain the same value, and the same location, exactly when they ask for the
same pieces. What they obtain has exactly these pieces, the size that the first of them to be
granted asked for if the pieces have less, and is larger than a single piece. A repeated request
changes nothing. A first request without overflow fails exactly when it is to be refused. -/
theorem joins_made_once (history : List Request) :
    (∀ i pieces logical, Asks history i pieces logical →
      let outcome := (join pieces logical).exec (before history i)
      before history (i + 1) = outcome.2 ∧ ∃ q, history[i]? = some q ∧
        q.address? (before history i) = some (outcome.1.map fun v => v.whole.address)) ∧
    (∀ i j pieces pieces' logical logical' v w, Obtains history i pieces logical v →
      Obtains history j pieces' logical' w →
      (v = w ↔ pieces = pieces') ∧ (v.whole = w.whole ↔ pieces = pieces')) ∧
    (∀ i pieces logical v, Obtains history i pieces logical v →
      v.pieces = pieces ∧
      (∃ i₀ ≤ i, ∃ logical₀, Obtains history i₀ pieces logical₀ v ∧
        (∀ j < i₀, ∀ l w, ¬Obtains history j pieces l w) ∧
        v.whole.size.toNat = max (Joined.total pieces) logical₀.toNat) ∧
      ∀ p, pieces = [p] → p.size < v.whole.size) ∧
    (∀ i j pieces logical logical' v, Obtains history i pieces logical v → i < j →
      Asks history j pieces logical' →
      Obtains history j pieces logical' v ∧ before history (j + 1) = before history j) ∧
    ∀ i pieces logical, Asks history i pieces logical →
      (∀ j < i, ∀ l v, ¬Obtains history j pieces l v) →
      let outcome := ((join pieces logical).exec (before history i)).1
      (outcome ≠ .error .overflow →
        ((∃ e, outcome = .error e) ↔ (before history i).Refuses pieces logical)) ∧
      (outcome = .error .overflow → 2 ^ 64 ≤ (before history i).joinNext.toNat +
        Joined.roomFor (max (Joined.total pieces) logical.toNat)) := by
  refine ⟨?_, ?_, ?_, ?_, ?_⟩
  · intro i pieces logical hasks
    obtain ⟨q, hq, hjoining⟩ := id hasks
    exact ⟨hasks.before_succ, q, hq, (Request.joining?_eq_some hjoining).1⟩
  · intro i j pieces pieces' logical logical' v w hv hw
    have hback : v = w → pieces = pieces' := by
      intro h
      subst h
      exact hv.mem_joins.2.symm.trans hw.mem_joins.2
    have hforth : pieces = pieces' → v = w := by
      intro h
      subst h
      exact hv.eq_of_pieces hw
    refine ⟨⟨hback, hforth⟩, ⟨?_, ?_⟩⟩
    · intro hwhole
      exact hback (eq_of_whole_eq hv.mem_joins.1 hw.mem_joins.1 hwhole)
    · intro hpieces
      rw [hforth hpieces]
  · intro i pieces logical v hv
    refine ⟨hv.mem_joins.2, ?_, ?_⟩
    · obtain ⟨i₀, hle, logical₀, hobtains, hfirst⟩ := hv.exists_first
      obtain ⟨_, _, hplanned⟩ := hobtains.planned_of_first hfirst
      exact ⟨i₀, hle, logical₀, hobtains, hfirst, hplanned.size⟩
    · intro p hp
      subst hp
      exact hv.extends_piece
  · intro i j pieces logical logical' v hv hij hasks
    exact hasks.obtains_again hv hij
  · intro i pieces logical hasks hfirst outcome
    rcases join_of_new (joinOf?_of_first hfirst) logical with
      ⟨hrefuses, cause, hexec⟩ | ⟨hno, ⟨v, t, hexec⟩ | ⟨hexec, hroom⟩⟩
    · have houtcome : outcome = .error (.refused cause) := congrArg Prod.fst hexec
      rw [houtcome]
      constructor
      · intro _
        exact iff_of_true ⟨_, rfl⟩ hrefuses
      · intro h
        cases h
    · have houtcome : outcome = .ok v := congrArg Prod.fst hexec
      rw [houtcome]
      constructor
      · intro _
        refine iff_of_false ?_ hno
        intro h
        obtain ⟨_, h⟩ := h
        cases h
      · intro h
        cases h
    · have houtcome : outcome = .error .overflow := congrArg Prod.fst hexec
      rw [houtcome]
      exact ⟨fun h => absurd rfl h, fun _ => hroom⟩

end Pcode.Registry
