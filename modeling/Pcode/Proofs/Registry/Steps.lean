import Pcode.Proofs.Actions
import Pcode.Registry.Configured
import Pcode.Registry.Joining

/-!
# The steps of a registry

What every operation does to a registry, as one equation for each, and the few kinds of step that
all of them are made of. A property that every step keeps is kept by every operation.
-/
namespace Pcode

/-- The changes of a description that leave its index, name, purpose, shortcut and units alone. -/
inductive Adjustment where
  | reverseJustify
  | deadcodeWait (delay : UInt64)
  | narrow (size : UInt64)
deriving Repr, DecidableEq

namespace Adjustment

def apply : Adjustment → SpaceInfo → SpaceInfo
  | reverseJustify, s => { s with properties := s.properties.insert .reverseJustification }
  | deadcodeWait delay, s => { s with deadcodeWait := delay }
  | narrow size, s => s.narrow size

end Adjustment

namespace Registry
open Config (Error)
open Pcode.Action (Moves)
open Relation (ReflTransGen)

/-- The conditions under which a space is inserted. -/
structure Fits (r : Registry) (s : Space) : Prop where
  index : s.info.index.toNat = r.size
  purpose : s.purpose ≠ .constant
  reserved : ∀ name, s.purpose.reservedName? = some name → s.name = name
  role : ∀ role, Role.ofInfo? s.info = some role → r.idInRole? role = none
  name : r.idNamed? s.name = none

theorem checkInsert_eq_ok {r : Registry} {s : Space} : r.checkInsert s = .ok () ↔ r.Fits s := by
  have hrole : ¬((Role.ofInfo? s.info).any fun role => (r.idInRole? role).isSome) = true ↔
      ∀ role, Role.ofInfo? s.info = some role → r.idInRole? role = none := by
    cases Role.ofInfo? s.info <;> simp
  have hname : ¬(r.idNamed? s.name).isSome = true ↔ r.idNamed? s.name = none := by simp
  have hindex : ¬s.info.index.toNat < r.size ∧ ¬r.size < s.info.index.toNat ↔
      s.info.index.toNat = r.size := by omega
  have hfits : r.Fits s ↔ s.info.index.toNat = r.size ∧ s.purpose ≠ .constant ∧
      (∀ name, s.purpose.reservedName? = some name → s.name = name) ∧
      (∀ role, Role.ofInfo? s.info = some role → r.idInRole? role = none) ∧
      r.idNamed? s.name = none :=
    ⟨fun h => ⟨h.index, h.purpose, h.reserved, h.role, h.name⟩,
      fun ⟨h₁, h₂, h₃, h₄, h₅⟩ => ⟨h₁, h₂, h₃, h₄, h₅⟩⟩
  unfold checkInsert
  rw [hfits, check_eq_ok, check_eq_ok, check_eq_ok, ← hindex, ← hrole, ← hname]
  cases s.purpose.reservedName? with
  | none =>
      simp only
      rw [check_eq_ok, last_check_eq_ok]
      simp [and_assoc]
  | some name =>
      simp only
      rw [check_eq_ok, check_eq_ok, last_check_eq_ok]
      simp [and_assoc]

/-! ## Operations -/

theorem exec_insert (s : Space) (r : Registry) :
    (insert s).exec r =
      match r.checkInsert s with
      | .ok () => (.ok s.id, r.push s)
      | .error e => (.error e, r) := by
  unfold insert
  rw [Action.exec_get_bind, Action.exec_liftM_bind]
  cases r.checkInsert s <;> rfl

theorem exec_chooseDefault (id : SpaceId) (r : Registry) :
    (chooseDefault id).exec r =
      if r.defaultId.isSome then (.error (.broken .oneDefault), r)
      else
        match r.find? id with
        | none => (.error (.unknownSpace id.describe), r)
        | some s =>
          if s.isConstant then (.error (.unfit s.name "default"), r)
          else (.ok (), { r with defaultId := some id }) := by
  unfold chooseDefault
  rw [Action.exec_get_bind]
  simp only
  split
  · rfl
  · cases r.find? id with
    | none => rfl
    | some s =>
        simp only
        split <;> rfl

theorem exec_chooseDefault_ok {id : SpaceId} {r t : Registry} :
    (chooseDefault id).exec r = (.ok (), t) ↔ r.defaultId = none ∧
      (∃ s, r.find? id = some s ∧ s.isConstant = false) ∧ { r with defaultId := some id } = t := by
  rw [exec_chooseDefault]
  cases r.defaultId with
  | some _ => simp
  | none =>
      cases r.find? id with
      | none => simp
      | some s => cases hform : s.isConstant <;> simp [hform]

theorem exec_narrow (name : String) (size : UInt64) (r : Registry) :
    (narrow name size).exec r =
      match r.idNamed? name with
      | none => (.error (.unknownSpace name), r)
      | some id => (.ok (), r.modifyInfo id (Adjustment.narrow size).apply) := by
  unfold narrow
  rw [Action.exec_get_bind]
  cases r.idNamed? name <;> rfl

theorem exec_anchor (id : SpaceId) (register : Varnode) (size : UInt64) (growsDown : Bool)
    (r : Registry) :
    (anchor id register size growsDown).exec r =
      match r.find? register.space, r.find? id with
      | none, _ => (.error (.refused (.unknownSpace register.space.describe)), r)
      | some _, none => (.error (.refused (.unknownSpace id.describe)), r)
      | some registers, some (.based s) =>
        match anchored s register size growsDown registers.info.byteOrder with
        | .ok t => (.ok (), { r with spaces := r.spaces.set id.index (.based t) })
        | .error e => (.error e, r)
      | some _, some s => (.error (.refused (.unfit s.name "spacebase")), r) := by
  unfold anchor
  rw [Action.exec_get_bind]
  cases r.find? register.space with
  | none => rfl
  | some registers =>
      cases r.find? id with
      | none => rfl
      | some s =>
          cases s with
          | based s =>
              simp only
              rw [Action.exec_liftM_bind]
              cases anchored s register size growsDown registers.info.byteOrder <;> rfl
          | _ => rfl

theorem exec_pushJoin (space : SpaceId) (pieces : List Varnode) (logical : UInt64)
    (r : Registry) :
    (pushJoin space pieces logical).exec r =
      match r.planJoin space pieces logical with
      | .ok (value, joinNext) => (.ok value, r.addJoin value joinNext)
      | .error e => (.error e, r) := by
  unfold pushJoin
  rw [Action.exec_get_bind, Action.exec_liftM_bind]
  cases r.planJoin space pieces logical <;> rfl

theorem exec_join (pieces : List Varnode) (logical : UInt64) (r : Registry) :
    (join pieces logical).exec r =
      match r.idInRole? .joins with
      | none => (.error (.refused .noSpace), r)
      | some space =>
        if pieces.all fun p => r.isJoinable p.space then
          match r.joinOf? pieces with
          | some value => (.ok value, r)
          | none => (pushJoin space pieces logical).exec r
        else (.error (.refused .unjoinable), r) := by
  unfold join
  rw [Action.exec_get_bind]
  cases r.idInRole? .joins with
  | none => rfl
  | some space =>
      simp only
      cases pieces.all fun p => r.isJoinable p.space with
      | false => rfl
      | true => cases r.joinOf? pieces <;> rfl

theorem exec_joinAddress (pieces : List Varnode) (logical : UInt64) (r : Registry) :
    (joinAddress pieces logical).exec r =
      (((join pieces logical).exec r).1.map fun v => v.whole.address,
        ((join pieces logical).exec r).2) := by
  unfold joinAddress
  rw [Action.exec_bind]
  rcases (join pieces logical).exec r with ⟨_ | v, t⟩ <;> rfl

theorem exec_widen (real : Address) (size logical : UInt64) (r : Registry) :
    (widen real size logical).exec r =
      if logical = size then (.ok real, r)
      else (joinAddress [.ofAddress real size] logical).exec r := by
  unfold widen
  split <;> rfl

theorem exec_concat (hi : Address) (hiSize : UInt64) (lo : Address) (loSize : UInt64)
    (r : Registry) :
    (concat hi hiSize lo loSize).exec r =
      match r.find? hi.space, r.find? lo.space with
      | some hiSpace, some loSpace =>
        if hiSpace.purpose.isJoinable && loSpace.purpose.isJoinable then
          match r.adjoined? hi hiSize lo loSize hiSpace loSpace with
          | some address => (.ok address, r)
          | none => (joinAddress [.ofAddress hi hiSize, .ofAddress lo loSize] 0).exec r
        else (.error (.refused .unjoinable), r)
      | _, _ => (.error (.refused .unjoinable), r) := by
  unfold concat
  rw [Action.exec_get_bind]
  rcases r.find? hi.space with _ | hiSpace
  · rfl
  · rcases r.find? lo.space with _ | loSpace
    · rfl
    · simp only
      cases hiSpace.purpose.isJoinable && loSpace.purpose.isJoinable with
      | false => rfl
      | true => cases r.adjoined? hi hiSize lo loSize hiSpace loSpace <;> rfl

/-! ## Steps -/

/-- The kinds of change that the operations on spaces are made of, each with the conditions under
which it is made. -/
inductive SpaceStep : Registry → Registry → Prop
  | insert {r : Registry} {s : Space} : r.Fits s → SpaceStep r (r.push s)
  | chooseDefault {r : Registry} {id : SpaceId} {s : Space} : r.defaultId = none →
      r.find? id = some s → s.isConstant = false → SpaceStep r { r with defaultId := some id }
  | adjust (r : Registry) (id : SpaceId) (a : Adjustment) : SpaceStep r (r.modifyInfo id a.apply)
  | anchor {r : Registry} {id : SpaceId} {registers : Space} {s t : BasedSpace}
      {register : Varnode} {size : UInt64} {growsDown : Bool} :
      r.find? register.space = some registers → r.find? id = some (.based s) →
      anchored s register size growsDown registers.info.byteOrder = .ok t →
      SpaceStep r { r with spaces := r.spaces.set id.index (.based t) }
  | resolve {r : Registry} {resolvers : List (Option Resolver)} :
      resolvers.length = r.resolvers.length → SpaceStep r { r with resolvers }

/-- The kinds of change that all operations are made of: those of spaces, and new joined values. -/
inductive Step : Registry → Registry → Prop
  | spaces {r t : Registry} : SpaceStep r t → Step r t
  | join {r : Registry} {space : SpaceId} {pieces : List Varnode} {logical joinNext : UInt64}
      {value : Joined} : r.idInRole? .joins = some space →
      (∀ p ∈ pieces, r.isJoinable p.space = true) → r.joinOf? pieces = none →
      r.planJoin space pieces logical = .ok (value, joinNext) → Step r (r.addJoin value joinNext)

theorem moves_insert (s : Space) : Moves SpaceStep (insert s) := by
  intro r
  rw [exec_insert]
  rcases h : r.checkInsert s with e | ⟨⟩
  · exact .refl
  · exact .single (.insert (checkInsert_eq_ok.mp h))

theorem moves_insertAll (ss : List Space) : Moves SpaceStep (insertAll ss) := by
  induction ss with
  | nil => exact .pure ()
  | cons s ss ih => exact (moves_insert s).bind fun _ => ih

theorem moves_chooseDefault (id : SpaceId) : Moves SpaceStep (chooseDefault id) := by
  intro r
  rw [exec_chooseDefault]
  split
  next => exact .refl
  next hd =>
    rcases hf : r.find? id with _ | s
    · exact .refl
    · simp only
      split
      next => exact .refl
      next hs => exact .single (.chooseDefault (by simpa using hd) hf (by simpa using hs))

theorem moves_narrow (name : String) (size : UInt64) : Moves SpaceStep (narrow name size) := by
  intro r
  rw [exec_narrow]
  cases r.idNamed? name with
  | none => exact .refl
  | some id => exact .single (.adjust r id _)

theorem moves_anchor (id : SpaceId) (register : Varnode) (size : UInt64) (growsDown : Bool) :
    Moves SpaceStep (anchor id register size growsDown) := by
  intro r
  rw [exec_anchor]
  split
  next => exact .refl
  next => exact .refl
  next registers s hr hs =>
    split
    next t ht => exact .single (.anchor hr hs ht)
    next => exact .refl
  next => exact .refl

theorem step_takeResolvers (source r : Registry) : SpaceStep r (takeResolvers source r) :=
  .resolve (by simp)

theorem moves_adopt (source : Registry) : Moves SpaceStep (adopt source) := by
  have hrest : ∀ last : Change Unit, Moves SpaceStep last → Moves SpaceStep (do
      insertAll (source.spaces.drop 1)
      modify (takeResolvers source)
      last) :=
    fun _ hlast => (moves_insertAll _).bind fun _ =>
      (Moves.modify (step_takeResolvers source)).bind fun _ => hlast
  unfold adopt
  refine Moves.get.bind fun r => ?_
  simp only
  cases source.defaultId with
  | none =>
      split
      · exact (Moves.throw _).bind fun _ => hrest _ (.pure ())
      · exact hrest _ (.pure ())
  | some id =>
      split
      · exact (Moves.throw _).bind fun _ => hrest _ (moves_chooseDefault id)
      · exact hrest _ (moves_chooseDefault id)

theorem moves_insertElements (order : ByteOrder) (es : List Xml.Element) :
    Moves SpaceStep (insertElements order es) := by
  induction es with
  | nil => exact .pure ()
  | cons e es ih =>
      refine Moves.bind (Moves.get.bind fun r => (Moves.liftM _).bind fun s => moves_insert s)
        fun _ => ih

theorem moves_insertNext (make : UInt64 → Space) : Moves SpaceStep (insertNext make) :=
  Moves.get.bind fun r => (moves_insert (make r.nextIndex)).bind fun _ => .pure ()

theorem moves_chooseDefaultNamed (name : String) :
    Moves SpaceStep (chooseDefaultNamed name) := by
  refine Moves.get.bind fun r => ?_
  cases r.named? name with
  | none => exact .throw _
  | some s => exact moves_chooseDefault s.id

theorem moves_insertUsual (order : ByteOrder) : Moves SpaceStep (insertUsual order) := by
  have hreferences : Moves SpaceStep (do
      insertNext .ofOpReferences
      insertNext .ofCallSpecs
      insertNext .ofJoins : Change Unit) :=
    (moves_insertNext _).bind fun _ => (moves_insertNext _).bind fun _ => moves_insertNext _
  refine Moves.get.bind fun r => ?_
  split
  · exact (moves_insertNext _).bind fun _ => hreferences
  · exact hreferences

theorem moves_fill (e : Xml.Element) (order : ByteOrder) : Moves SpaceStep (fill e order) :=
  (Moves.liftM _).bind fun _ => (Moves.liftM _).bind fun _ =>
    (moves_insertElements order _).bind fun _ => (moves_chooseDefaultNamed _).bind fun _ =>
      moves_insertUsual order

theorem moves_join (pieces : List Varnode) (logical : UInt64) :
    Moves Step (join pieces logical) := by
  intro r
  rw [exec_join]
  rcases hr : r.idInRole? .joins with _ | space
  · exact .refl
  · simp only
    split
    next hp =>
      rcases hj : r.joinOf? pieces with _ | value
      · simp only
        rw [exec_pushJoin]
        rcases hv : r.planJoin space pieces logical with _ | ⟨value, joinNext⟩
        · exact .refl
        · exact .single (.join hr (by simpa using hp) hj hv)
      · exact .refl
    next => exact .refl

theorem moves_joinAddress (pieces : List Varnode) (logical : UInt64) :
    Moves Step (joinAddress pieces logical) :=
  (moves_join pieces logical).bind fun v => .pure v.whole.address

theorem moves_widen (real : Address) (size logical : UInt64) :
    Moves Step (widen real size logical) := by
  intro r
  rw [exec_widen]
  split
  next => exact .refl
  next => exact moves_joinAddress _ _ r

theorem moves_concat (hi : Address) (hiSize : UInt64) (lo : Address) (loSize : UInt64) :
    Moves Step (concat hi hiSize lo loSize) := by
  intro r
  rw [exec_concat]
  split
  next =>
    split
    next =>
      split
      next => exact .refl
      next => exact moves_joinAddress _ _ r
    next => exact .refl
  next => exact .refl

end Registry

end Pcode
