import Pcode.Proofs.Registry.Anchoring
import Pcode.Proofs.Registry.Stability

/-!
# Naming a base register again

The base register of a space is recorded once, and stays. To name it again is granted or refused by
the bytes that are used of it and by the direction of growth alone: the register that was first
given is recorded, but not compared.
-/
namespace Pcode.Registry
open Relation (ReflTransGen)

theorem checked_narrowed {register used : Varnode} {size : UInt64} {order : ByteOrder}
    (hused : BasedSpace.LowPart order register size used) :
    Failure.ofChecked (BasedSpace.narrowed register size order) =
      (.ok used : Except (Failure Config.Error) Varnode) :=
  Failure.ofChecked_eq_ok.mpr (BasedSpace.narrowed_eq_ok_iff.mpr hused)

section Anchored
variable {s : BasedSpace} {register used : Varnode} {size : UInt64} {order : ByteOrder}
  (growsDown : Bool)

/-- A register that has its low part is recorded if there is none before it. -/
theorem exists_anchored (hnone : s.anchor = none)
    (hused : BasedSpace.LowPart order register size used) :
    ∃ b, anchored s register size growsDown order = .ok b ∧ b.anchor = some ⟨used, register⟩ ∧
      b.growsDown = growsDown := by
  unfold anchored
  rw [checked_narrowed hused, hnone]
  exact ⟨_, rfl, rfl, rfl⟩

/-- What is compared is the low part and the direction. -/
theorem anchored_of_known {known : Anchor} (hknown : s.anchor = some known)
    (hused : BasedSpace.LowPart order register size used) :
    anchored s register size growsDown order =
      if used = known.used ∧ growsDown = s.growsDown then .ok s
      else .error (.refused (.anchored s.info.name)) := by
  unfold anchored
  rw [checked_narrowed hused, hknown]
  by_cases h : used = known.used ∧ growsDown = s.growsDown
  · rw [if_pos h]
    obtain ⟨rfl, rfl⟩ := h
    simp only [bind, Except.bind]
    rw [if_neg (by simp)]
    rfl
  · rw [if_neg h]
    simp only [bind, Except.bind]
    rw [if_pos]
    · rfl
    · rw [not_and_or] at h
      exact h.imp Ne.symm Ne.symm

/-- A register without its low part is not even compared. -/
theorem anchored_of_not_lowPart
    (hnone : ¬∃ used, BasedSpace.LowPart order register size used) :
    anchored s register size growsDown order = .error .overflow := by
  have hnarrowed : BasedSpace.narrowed register size order = .error .overflow := by
    rcases h : BasedSpace.narrowed register size order with ⟨⟩ | used
    · rfl
    · exact absurd ⟨used, BasedSpace.lowPart_of_narrowed h⟩ hnone
  unfold anchored
  rw [hnarrowed]
  rfl

end Anchored

section Again
variable {r : Registry} {id : SpaceId} {s : BasedSpace} {register : Varnode} {registers : Space}
  (size : UInt64) (growsDown : Bool) (hs : r.find? id = some (.based s))
  (hregisters : r.find? register.space = some registers)
include hs hregisters

/-- What becomes of the space decides how the operation ends. -/
theorem exec_anchor_of_find? :
    (anchor id register size growsDown).exec r =
      match anchored s register size growsDown registers.info.byteOrder with
      | .ok b => (.ok (), { r with spaces := r.spaces.set id.index (.based b) })
      | .error e => (.error e, r) := by
  have h := exec_anchor id register size growsDown r
  rw [hregisters, hs] at h
  exact h

/-- Nothing is recorded for a space that has a base register, whether it is the one named or not. -/
theorem exec_anchor_again {known : Anchor} (hknown : s.anchor = some known) :
    (∀ used, BasedSpace.LowPart registers.info.byteOrder register size used →
      (anchor id register size growsDown).exec r =
        if used = known.used ∧ growsDown = s.growsDown then (.ok (), r)
        else (.error (.refused (.anchored s.info.name)), r)) ∧
    ((¬∃ used, BasedSpace.LowPart registers.info.byteOrder register size used) →
      (anchor id register size growsDown).exec r = (.error .overflow, r)) := by
  have hsame : ({ r with spaces := r.spaces.set id.index (.based s) } : Registry) = r := by
    have hat : r.spaces[id.index]? = some (.based s) := hs
    obtain ⟨hlt, hget⟩ := List.getElem?_eq_some_iff.mp hat
    rw [← hget, List.set_getElem_self]
  rw [exec_anchor_of_find? size growsDown hs hregisters]
  constructor
  · intro used hused
    rw [anchored_of_known growsDown hknown hused]
    by_cases h : used = known.used ∧ growsDown = s.growsDown
    · rw [if_pos h, if_pos h]
      exact congrArg (Prod.mk _) hsame
    · rw [if_neg h, if_neg h]
  · intro hnone
    rw [anchored_of_not_lowPart growsDown hnone]

end Again

/-- A base register that is recorded is there in every later registry. -/
theorem exists_based_of_steps {t u : Registry} (h : ReflTransGen Step t u) {id : SpaceId}
    {b : BasedSpace} {known : Anchor} (hb : t.find? id = some (.based b))
    (hknown : b.anchor = some known) :
    ∃ b', u.find? id = some (.based b') ∧ b'.anchor = some known ∧ b'.growsDown = b.growsDown ∧
      b'.info.name = b.info.name := by
  obtain ⟨s, hs, hkept⟩ := (persists_of_steps h).spaces _ _ hb
  have hbase : s.base? = some (known, b.growsDown) := by
    refine hkept.base _ ?_
    unfold Space.base? Space.based?
    rw [Option.bind_some, hknown, Option.map_some]
  obtain ⟨b', hb', hanchor⟩ := Option.bind_eq_some_iff.mp hbase
  obtain ⟨known', hknown', hpair⟩ := Option.map_eq_some_iff.mp hanchor
  obtain ⟨rfl, hgrows⟩ := Prod.mk.inj hpair
  cases s with
  | based b' =>
      cases hb'
      exact ⟨b', hs, hknown', hgrows, hkept.name⟩
  | _ => cases hb'

/-- The base register of a space is recorded once: the register as it is given, the least
significant bytes that are used of it, and the direction of growth. In all registries from then on
these are what they are. Naming a register again changes nothing. It is granted if the bytes used of
it are those that are used already and the direction is the same, even if it is another register,
and is refused otherwise. -/
theorem anchor_recorded_once {r : Registry} {id : SpaceId} {s : BasedSpace} {registers : Space}
    {register used : Varnode} {size : UInt64} (growsDown : Bool)
    (hs : r.find? id = some (.based s)) (hnone : s.anchor = none)
    (hregisters : r.find? register.space = some registers)
    (hused : BasedSpace.LowPart registers.info.byteOrder register size used) :
    ∃ t, (anchor id register size growsDown).exec r = (.ok (), t) ∧
      ∀ u, ReflTransGen Step t u → ∃ b, u.find? id = some (.based b) ∧
        b.anchor = some ⟨used, register⟩ ∧ b.growsDown = growsDown ∧
        ∀ register' size' growsDown' registers', u.find? register'.space = some registers' →
          (∀ used', BasedSpace.LowPart registers'.info.byteOrder register' size' used' →
            (anchor id register' size' growsDown').exec u =
              if used' = used ∧ growsDown' = growsDown then (.ok (), u)
              else (.error (.refused (.anchored s.info.name)), u)) ∧
          ((¬∃ used', BasedSpace.LowPart registers'.info.byteOrder register' size' used') →
            (anchor id register' size' growsDown').exec u = (.error .overflow, u)) := by
  obtain ⟨b, hb, hanchor, hgrows⟩ := exists_anchored growsDown hnone hused
  have hstored : ({ r with spaces := r.spaces.set id.index (.based b) } : Registry).find? id =
      some (.based b) := find?_set_self hs
  have hname : b.info.name = s.info.name := (kept_anchored hb).name
  refine ⟨{ r with spaces := r.spaces.set id.index (.based b) }, ?_, ?_⟩
  · rw [exec_anchor_of_find? size growsDown hs hregisters, hb]
  · intro u hu
    obtain ⟨b', hb', hknown, hgrows', hname'⟩ := exists_based_of_steps hu hstored hanchor
    refine ⟨b', hb', hknown, hgrows'.trans hgrows, ?_⟩
    intro register' size' growsDown' registers' hregisters'
    have hagain := exec_anchor_again size' growsDown' hb' hregisters' hknown
    rw [hgrows', hgrows, hname', hname] at hagain
    exact hagain

/-- A memory, a register file, and a stack in the memory. -/
def stackInMemory : List Request :=
  [.insert (.ofMemory "ram" 1 4 1 .little 1), .insert (.ofMemory "register" 2 4 1 .little 0),
    .insert (.within (.ofMemory "ram" 1 4 1 .little 1) "stack" 3 4 1)]

/-- The register file of that memory, and the stack. -/
def smallRegisters : Space :=
  (Space.ofMemory "register" 2 4 1 .little 0).modifyInfo fun s => { s with shortcut := some '%' }

def smallStack : BasedSpace where
  info := { SpaceInfo.ofSizes .based "stack" 4 1 3 (Space.valueProperties .little) 1 with
    shortcut := some 's' }
  container := ⟨1⟩
  anchor := none
  growsDown := true

/-- The low half of a register of eight bytes is the base of the stack. It may be named again, and
the other half may not. -/
theorem anchor_recorded_once_stack :
    ∃ t, (anchor ⟨3⟩ ⟨⟨2⟩, 0x20, 8⟩ 4 true).exec (start.after stackInMemory) = (.ok (), t) ∧
      (∀ u, ReflTransGen Step t u → ∃ b, u.find? ⟨3⟩ = some (.based b) ∧
        b.anchor = some ⟨⟨⟨2⟩, 0x20, 4⟩, ⟨⟨2⟩, 0x20, 8⟩⟩ ∧ b.growsDown = true) ∧
      (anchor ⟨3⟩ ⟨⟨2⟩, 0x20, 8⟩ 4 true).exec t = (.ok (), t) ∧
      (anchor ⟨3⟩ ⟨⟨2⟩, 0x24, 4⟩ 0 true).exec t =
        (.error (.refused (.anchored "stack")), t) := by
  have hstack : (start.after stackInMemory).find? ⟨3⟩ = some (.based smallStack) := by
    decide +kernel
  have hregisters : (start.after stackInMemory).find? ⟨2⟩ = some smallRegisters := by
    decide +kernel
  have hlow : BasedSpace.LowPart smallRegisters.info.byteOrder ⟨⟨2⟩, 0x20, 8⟩ 4 ⟨⟨2⟩, 0x20, 4⟩ :=
    BasedSpace.narrowed_eq_ok_iff.mp rfl
  have hhigh : BasedSpace.LowPart smallRegisters.info.byteOrder ⟨⟨2⟩, 0x24, 4⟩ 0 ⟨⟨2⟩, 0x24, 4⟩ :=
    BasedSpace.narrowed_eq_ok_iff.mp rfl
  obtain ⟨t, hexec, hlater⟩ := anchor_recorded_once true hstack rfl hregisters hlow
  have ht : ((anchor ⟨3⟩ ⟨⟨2⟩, 0x20, 8⟩ 4 true).exec (start.after stackInMemory)).2 = t :=
    congrArg Prod.snd hexec
  have hstill : t.find? ⟨2⟩ = some smallRegisters := ht ▸ hregisters
  obtain ⟨-, -, -, -, hagain⟩ := hlater t .refl
  have hsame := (hagain ⟨⟨2⟩, 0x20, 8⟩ 4 true _ hstill).1 _ hlow
  have hother := (hagain ⟨⟨2⟩, 0x24, 4⟩ 0 true _ hstill).1 _ hhigh
  refine ⟨t, hexec, ?_, hsame, hother⟩
  intro u hu
  obtain ⟨b, hb, hanchor, hgrows, -⟩ := hlater u hu
  exact ⟨b, hb, hanchor, hgrows⟩

/-- Two registers that differ are taken for one if the same bytes are used of them. -/
theorem anchor_accepts_other_register :
    let r := start.after (stackInMemory ++ [.anchor ⟨3⟩ ⟨⟨2⟩, 0x20, 8⟩ 4 true])
    ((r.find? ⟨3⟩).bind Space.based?).bind BasedSpace.anchor =
        some ⟨⟨⟨2⟩, 0x20, 4⟩, ⟨⟨2⟩, 0x20, 8⟩⟩ ∧
      (⟨⟨2⟩, 0x20, 4⟩ : Varnode) ≠ ⟨⟨2⟩, 0x20, 8⟩ ∧
      (anchor ⟨3⟩ ⟨⟨2⟩, 0x20, 4⟩ 0 true).exec r = (.ok (), r) := by
  refine ⟨by decide +kernel, by decide, ?_⟩
  rfl

end Pcode.Registry
