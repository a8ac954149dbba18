import Mathlib.Control.Monad.Basic
import Pcode.Architecture.Mini
import Pcode.Proofs.Processor.Filling

/-!
# One attempt to configure

A configuration is taken by the processor model first and by the context fields after it, and only
then is the model frozen. So an attempt ends in one of three ways.
-/
namespace Pcode.Mini
open Pcode.Action (Moves)
open Architecture (configure fillFields)
open Config (Documents)

theorem exec_onProcessor {ε α : Type} (x : Action Processor ε α) (m : Mini) :
    (Architecture.onProcessor x).exec m =
      ((x.exec m.processor).1, { m with processor := (x.exec m.processor).2 }) := rfl

/-- A configuration that the processor model does not take leaves no trace. -/
theorem configure_of_error {d : Documents} {m : Mini} {p : Processor}
    {cause : Failure Config.Error} (h : (Processor.fill d).exec m.processor = (.error cause, p)) :
    (configure d).exec m = (.error (cause.mapCause .config), m) := by
  obtain rfl := Processor.fill_eq_error h
  refine Action.exec_bind_of_error ?_ _
  rw [exec_onProcessor, Action.exec_mapCause, h]
  rfl

/-- Context fields are filled in beside everything else. -/
theorem moves_onContext {ε α : Type} (x : Action ContextFields ε α) :
    Moves (fun m n => ∃ context, n = { m with context }) (onContext x) :=
  fun m => .single ⟨(x.exec m.context).2, rfl⟩

theorem moves_fillFields (d : Documents) :
    Moves (fun m n => ∃ context, n = { m with context })
      (fillFields d : Action Mini Config.Error Unit) := by
  have hdefine : ∀ es, Moves (fun m n => ∃ context, n = { m with context })
      (Architecture.defineFields es : Action Mini Config.Error Unit) := by
    intro es
    induction es with
    | nil => exact .pure ()
    | cons e es ih =>
        exact (Moves.liftM _).bind fun _ => (Moves.liftM _).bind fun _ =>
          (Moves.liftM _).bind fun _ => (moves_onContext _).bind fun _ => ih
  have hset : ∀ es, Moves (fun m n => ∃ context, n = { m with context })
      (Architecture.setFieldDefaults es : Action Mini Config.Error Unit) := by
    intro es
    induction es with
    | nil => exact .pure ()
    | cons e es ih =>
        exact (Moves.liftM _).bind fun _ => (Moves.liftM _).bind fun _ =>
          (moves_onContext _).bind fun _ => ih
  exact (hdefine _).bind fun _ => hset _

/-- Whether it succeeds or not, filling in context fields changes no other part of the model. -/
theorem exists_context_fillFields (d : Documents) (m : Mini) :
    ∃ context, ((fillFields d).exec m : Except Config.Error Unit × Mini).2 = { m with context } := by
  refine (moves_fillFields d).keeps (P := fun n => ∃ context, n = { m with context }) ?_
    ⟨m.context, rfl⟩
  rintro _ _ ⟨later, rfl⟩ ⟨earlier, rfl⟩
  exact ⟨later, rfl⟩

theorem exec_refusing_fillFields (d : Documents) (m : Mini) :
    (((fillFields d : Action Mini Config.Error Unit).mapCause
      Processor.Error.config).refusing).exec m =
      (((fillFields d).exec m).1.mapError fun cause => .refused (.config cause),
        ((fillFields d).exec m).2) := by
  unfold Action.refusing
  rw [Action.exec_mapCause, Action.exec_mapCause]
  cases ((fillFields d : Action Mini Config.Error Unit).exec m).1 <;> rfl

/-- How an attempt to configure ends: refused by the processor model, and nothing has changed; taken
by the processor model and refused by the context fields; or taken by both, and the model frozen. -/
inductive Configures (d : Documents) (m : Mini) :
    Except (Failure Processor.Error) Unit × Mini → Prop
  | refused {cause : Failure Config.Error} {p : Processor} :
      (Processor.fill d).exec m.processor = (.error cause, p) →
      Configures d m (.error (cause.mapCause .config), m)
  | halfTaken {cause : Config.Error} {p : Processor} {context : ContextFields} :
      (Processor.fill d).exec m.processor = (.ok (), p) →
      Configures d m (.error (.refused (.config cause)), { m with processor := p, context })
  | taken {p : Processor} {context : ContextFields} :
      (Processor.fill d).exec m.processor = (.ok (), p) →
      Configures d m (.ok (), { m with processor := p.freeze, context })

theorem configures (d : Documents) (m : Mini) : Configures d m ((configure d).exec m) := by
  rcases hfill : (Processor.fill d).exec m.processor with ⟨cause | ⟨⟩, p⟩
  · rw [configure_of_error hfill]
    exact .refused hfill
  · have hfirst : (Architecture.onProcessor ((Processor.fill d).mapCause fun f =>
        f.mapCause Processor.Error.config)).exec m = (.ok (), { m with processor := p }) := by
      rw [exec_onProcessor, Action.exec_mapCause, hfill]
      rfl
    have hfields := exec_refusing_fillFields d { m with processor := p }
    obtain ⟨context, hcontext⟩ := exists_context_fillFields d { m with processor := p }
    rw [hcontext] at hfields
    unfold configure
    rw [Action.exec_bind_of_ok hfirst]
    rcases hresult : ((fillFields d).exec { m with processor := p } :
      Except Config.Error Unit × Mini).1 with cause | ⟨⟩
    · rw [hresult] at hfields
      rw [Action.exec_bind_of_error hfields]
      exact .halfTaken hfill
    · rw [hresult] at hfields
      rw [Action.exec_bind_of_ok hfields]
      exact .taken hfill

end Pcode.Mini
