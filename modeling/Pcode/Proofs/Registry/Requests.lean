import Pcode.Proofs.Registry.Steps

/-!
# Histories of a registry

A registry is changed by requests alone, refused ones included. Whatever holds at the start and is
kept by every step holds after every history of requests.
-/
namespace Pcode.Registry
open Relation (ReflTransGen)

/-- The operations that change a registry, with their arguments. -/
inductive Request where
  | insert (s : Space)
  | fill (e : Xml.Element) (order : ByteOrder)
  | adopt (source : Registry)
  | chooseDefault (id : SpaceId)
  | reverseJustify (id : SpaceId)
  | setDeadcodeWait (id : SpaceId) (delay : UInt64)
  | narrow (name : String) (size : UInt64)
  | resolveBy (id : SpaceId) (resolver : Resolver)
  | anchor (id : SpaceId) (register : Varnode) (size : UInt64) (growsDown : Bool)
  | join (pieces : List Varnode) (logical : UInt64)
  | widen (real : Address) (size logical : UInt64)
  | concat (hi : Address) (hiSize : UInt64) (lo : Address) (loSize : UInt64)

namespace Request

/-- The registry that a request leaves behind, whether it is granted or not. -/
def perform (r : Registry) : Request → Registry
  | insert s => ((Registry.insert s).exec r).2
  | fill e order => ((Registry.fill e order).exec r).2
  | adopt source => ((Registry.adopt source).exec r).2
  | chooseDefault id => ((Registry.chooseDefault id).exec r).2
  | reverseJustify id => r.reverseJustify id
  | setDeadcodeWait id delay => r.setDeadcodeWait id delay
  | narrow name size => ((Registry.narrow name size).exec r).2
  | resolveBy id resolver => r.resolveBy id resolver
  | anchor id register size growsDown => ((Registry.anchor id register size growsDown).exec r).2
  | join pieces logical => ((Registry.join pieces logical).exec r).2
  | widen real size logical => ((Registry.widen real size logical).exec r).2
  | concat hi hiSize lo loSize => ((Registry.concat hi hiSize lo loSize).exec r).2

/-- The registry after an operation on spaces. -/
theorem steps_of_spaces {ε α : Type} {x : Action Registry ε α} (h : x.Moves SpaceStep)
    (r : Registry) : ReflTransGen Step r (x.exec r).2 :=
  ReflTransGen.mono (fun _ _ => .spaces) _ _ (h r)

theorem steps_perform (r : Registry) (q : Request) : ReflTransGen Step r (q.perform r) := by
  cases q with
  | insert s => exact steps_of_spaces (moves_insert s) r
  | fill e order => exact steps_of_spaces (moves_fill e order) r
  | adopt source => exact steps_of_spaces (moves_adopt source) r
  | chooseDefault id => exact steps_of_spaces (moves_chooseDefault id) r
  | reverseJustify id => exact .single (.spaces (.adjust r id .reverseJustify))
  | setDeadcodeWait id delay => exact .single (.spaces (.adjust r id (.deadcodeWait delay)))
  | narrow name size => exact steps_of_spaces (moves_narrow name size) r
  | resolveBy id resolver => exact .single (.spaces (.resolve (by simp)))
  | anchor id register size growsDown => exact steps_of_spaces (moves_anchor id register size growsDown) r
  | join pieces logical => exact moves_join pieces logical r
  | widen real size logical => exact moves_widen real size logical r
  | concat hi hiSize lo loSize => exact moves_concat hi hiSize lo loSize r

end Request

/-- The registry after some requests. -/
def after (r : Registry) (history : List Request) : Registry := history.foldl Request.perform r

theorem after_append (r : Registry) (earlier later : List Request) :
    r.after (earlier ++ later) = (r.after earlier).after later :=
  List.foldl_append

theorem steps_after (r : Registry) (history : List Request) :
    ReflTransGen Step r (r.after history) := by
  induction history generalizing r with
  | nil => exact .refl
  | cons q history ih => exact (q.steps_perform r).trans (ih _)

/-- What holds at the start and is kept by every step holds after every history. -/
theorem holds_after {P : Registry → Prop} (hstart : P start)
    (hstep : ∀ {r t}, Step r t → P r → P t) (history : List Request) : P (start.after history) :=
  Action.keep_of_steps (P := P) (fun _ _ => hstep) (steps_after start history) hstart

end Pcode.Registry
