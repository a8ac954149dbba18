import Mathlib.Logic.Relation
import Pcode.Outcome

/-!
# Reasoning about actions

An answer of a sequence comes from answers of its parts. An action whose parts run in steps of one
kind runs in steps of that kind, whether it answers or stops on the way.
-/
namespace Pcode

section Checks
variable {ε δ α β : Type} {c : Prop} [Decidable c] {e : ε}

/-- An answer of a sequence comes from answers of its parts. -/
theorem bind_eq_ok {x : Except ε α} {f : α → Except ε β} {b : β} :
    x >>= f = .ok b ↔ ∃ a, x = .ok a ∧ f a = .ok b := by
  cases x with
  | error e =>
      constructor
      · intro h
        cases h
      · intro h
        obtain ⟨_, h, _⟩ := h
        cases h
  | ok a =>
      constructor
      · intro h
        exact ⟨a, rfl, h⟩
      · intro h
        obtain ⟨_, h, hf⟩ := h
        cases h
        exact hf

theorem bind_eq_error {x : Except ε α} {f : α → Except ε β} :
    x >>= f = .error e ↔ x = .error e ∨ ∃ a, x = .ok a ∧ f a = .error e := by
  cases x with
  | error e' =>
      constructor
      · intro h
        cases h
        exact .inl rfl
      · intro h
        rcases h with h | ⟨_, h, _⟩
        · cases h
          rfl
        · cases h
  | ok a =>
      constructor
      · intro h
        exact .inr ⟨a, rfl, h⟩
      · intro h
        rcases h with h | ⟨_, h, hf⟩
        · cases h
        · cases h
          exact hf

theorem check_eq_ok {f : PUnit → Except ε β} {x : Except ε β} {b : β} :
    (if c then (throw e : Except ε PUnit) >>= f else x) = .ok b ↔ ¬c ∧ x = .ok b := by
  split
  next h =>
    constructor
    · intro hx
      cases hx
    · intro hx
      exact absurd h hx.1
  next h => exact (and_iff_right h).symm

theorem last_check_eq_ok :
    (if c then (throw e : Except ε PUnit) else pure ⟨⟩) = .ok ⟨⟩ ↔ ¬c := by
  split
  next h =>
    constructor
    · intro hx
      cases hx
    · intro hx
      exact absurd h hx
  next h => exact ⟨fun _ => h, fun _ => rfl⟩

/-- A list is read when each of its items is. -/
theorem mapM_eq_ok {f : α → Except ε β} {xs : List α} {ys : List β} :
    xs.mapM f = .ok ys ↔ xs.map f = ys.map .ok := by
  induction xs generalizing ys with
  | nil => cases ys <;> simp [pure, Except.pure]
  | cons x xs ih =>
      rw [List.mapM_cons, bind_eq_ok]
      simp only [bind_eq_ok, ih]
      cases ys with
      | nil => simp [pure, Except.pure]
      | cons y ys => simp [pure, Except.pure]

/-- Renaming causes leaves answers as they are. -/
theorem mapError_eq_ok {f : ε → δ} {x : Except ε α} {a : α} : x.mapError f = .ok a ↔ x = .ok a := by
  cases x with
  | error cause => exact iff_of_false nofun nofun
  | ok b =>
      change Except.ok b = Except.ok a ↔ _
      simp only [Except.ok.injEq]

theorem Failure.ofExcept_eq_ok {x : Except ε α} {a : α} : ofExcept x = .ok a ↔ x = .ok a :=
  mapError_eq_ok

theorem Failure.ofChecked_eq_ok {x : Checked α} {a : α} :
    (ofChecked x : Except (Failure ε) α) = .ok a ↔ x = .ok a :=
  mapError_eq_ok

end Checks

namespace Action
open Relation (ReflTransGen)
variable {σ τ ε δ α β : Type}

@[simp] theorem exec_get_bind (f : σ → Action σ ε β) (s : σ) :
    exec ((get : Action σ ε σ) >>= f) s = exec (f s) s := rfl

theorem exec_liftM_bind (x : Except ε α) (f : α → Action σ ε β) (s : σ) :
    exec ((liftM x : Action σ ε α) >>= f) s =
      match x with
      | .ok a => exec (f a) s
      | .error e => (.error e, s) := by
  rw [exec_bind, exec_liftM]
  cases x <;> rfl

theorem exec_bind_of_ok {x : Action σ ε α} {s t : σ} {a : α} (h : exec x s = (.ok a, t))
    (f : α → Action σ ε β) : exec (x >>= f) s = exec (f a) t := by
  rw [exec_bind, h]

/-- A sequence stops where its first part stops. -/
theorem exec_bind_of_error {x : Action σ ε α} {s t : σ} {e : ε} (h : exec x s = (.error e, t))
    (f : α → Action σ ε β) : exec (x >>= f) s = (.error e, t) := by
  rw [exec_bind, h]

theorem exec_bind_ok {x : Action σ ε α} {f : α → Action σ ε β} {s u : σ} {b : β} :
    exec (x >>= f) s = (.ok b, u) ↔
      ∃ a t, exec x s = (.ok a, t) ∧ exec (f a) t = (.ok b, u) := by
  constructor
  · intro h
    rcases hx : exec x s with ⟨_ | a, t⟩
    · rw [exec_bind_of_error hx] at h
      cases h
    · rw [exec_bind_of_ok hx] at h
      exact ⟨a, t, rfl, h⟩
  · intro h
    obtain ⟨a, t, hx, h⟩ := h
    rw [exec_bind_of_ok hx, h]

/-- A sequence stops where one of its parts stops. -/
theorem exec_bind_error {x : Action σ ε α} {f : α → Action σ ε β} {s : σ} {e : ε} :
    (exec (x >>= f) s).1 = .error e ↔
      (exec x s).1 = .error e ∨ ∃ a t, exec x s = (.ok a, t) ∧ (exec (f a) t).1 = .error e := by
  rw [exec_bind]
  rcases exec x s with ⟨cause | a, t⟩
  · constructor
    · intro h
      cases h
      exact .inl rfl
    · intro h
      rcases h with h | ⟨_, _, hx, _⟩
      · cases h
        rfl
      · cases hx
  · constructor
    · intro h
      exact .inr ⟨a, t, rfl, h⟩
    · intro h
      rcases h with h | ⟨_, _, hx, h⟩
      · cases h
      · cases hx
        exact h

theorem exec_liftM_bind_ok {x : Except ε α} {f : α → Action σ ε β} {s u : σ} {b : β} :
    exec ((liftM x : Action σ ε α) >>= f) s = (.ok b, u) ↔
      ∃ a, x = .ok a ∧ exec (f a) s = (.ok b, u) := by
  rw [exec_liftM_bind]
  cases x with
  | error e => simp
  | ok a => simp

theorem exec_liftM_bind_error {x : Except ε α} {f : α → Action σ ε β} {s : σ} {e : ε} :
    (exec ((liftM x : Action σ ε α) >>= f) s).1 = .error e ↔
      x = .error e ∨ ∃ a, x = .ok a ∧ (exec (f a) s).1 = .error e := by
  rw [exec_liftM_bind]
  cases x with
  | error cause => simp
  | ok a => simp

/-- Renaming causes leaves answers alone. -/
theorem exec_mapCause_ok {f : ε → δ} {x : Action σ ε α} {s t : σ} {a : α} :
    exec (mapCause f x) s = (.ok a, t) ↔ exec x s = (.ok a, t) := by
  rw [exec_mapCause, Prod.mk.injEq, mapError_eq_ok, Prod.ext_iff]

/-- An action that stops leaves the state as it was. -/
def AllOrNothing (x : Action σ ε α) (s : σ) : Prop := ∀ e t, exec x s = (.error e, t) → t = s

theorem AllOrNothing.bind_pure {x : Action σ ε α} {s : σ} (h : AllOrNothing x s) (f : α → β) :
    AllOrNothing (x >>= fun a => pure (f a)) s := by
  intro e t ht
  rcases hx : exec x s with ⟨e' | a, u⟩
  · rw [exec_bind_of_error hx] at ht
    cases ht
    exact h _ _ hx
  · rw [exec_bind_of_ok hx] at ht
    cases ht

/-- What every step keeps, sequences of steps keep. -/
theorem keep_of_steps {S : σ → σ → Prop} {P : σ → Prop} (hstep : ∀ s t, S s t → P s → P t)
    {s t : σ} (h : ReflTransGen S s t) (hs : P s) : P t := by
  induction h with
  | refl => exact hs
  | tail _ step ih => exact hstep _ _ step ih

/-- Every run is a sequence of steps of the kind `S`. -/
def Moves (S : σ → σ → Prop) (x : Action σ ε α) : Prop := ∀ s, ReflTransGen S s (exec x s).2

namespace Moves
variable {S : σ → σ → Prop}

theorem pure (a : α) : Moves S (Pure.pure a : Action σ ε α) := fun _ => .refl

theorem throw (e : ε) : Moves S (throw e : Action σ ε α) := fun _ => .refl

theorem get : Moves S (MonadState.get : Action σ ε σ) := fun _ => .refl

theorem liftM (x : Except ε α) : Moves S (liftM x : Action σ ε α) := fun _ => .refl

theorem modify {f : σ → σ} (h : ∀ s, S s (f s)) : Moves S (modify f : Action σ ε PUnit) :=
  fun s => .single (h s)

theorem bind {x : Action σ ε α} {f : α → Action σ ε β} (hx : Moves S x)
    (hf : ∀ a, Moves S (f a)) : Moves S (x >>= f) := by
  intro s
  have h := hx s
  rcases he : exec x s with ⟨_ | a, t⟩ <;> rw [he] at h
  · rw [exec_bind_of_error he]
    exact h
  · rw [exec_bind_of_ok he]
    exact h.trans (hf a t)

theorem keeps {x : Action σ ε α} {P : σ → Prop} (h : Moves S x)
    (hstep : ∀ {s t}, S s t → P s → P t) {s : σ} (hs : P s) : P (exec x s).2 :=
  keep_of_steps (P := P) (fun _ _ => hstep) (h s) hs

end Moves

end Action

end Pcode
