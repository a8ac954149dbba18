/-!
# Outcomes of stateful operations

An operation over a state answers or stops with a cause, and what it changed before stopping stays
changed. Arithmetic that leaves the 64-bit range is an outcome of its own, apart from the causes of
the domain.
-/
namespace Pcode

/-- A computation over a state `σ` that may stop with an `ε`; the state it reached is kept. -/
abbrev Action (σ ε : Type) : Type → Type := ExceptT ε (StateM σ)

namespace Action
variable {σ τ ε δ α β : Type}

/-- Runs an action from `s`: its answer or its cause, and the state it ended in. -/
def exec (x : Action σ ε α) (s : σ) : Except ε α × σ := x.run.run s

@[simp] theorem exec_pure (a : α) (s : σ) : exec (pure a : Action σ ε α) s = (.ok a, s) := rfl

@[simp] theorem exec_throw (e : ε) (s : σ) :
    exec (throw e : Action σ ε α) s = (.error e, s) := rfl

@[simp] theorem exec_get (s : σ) : exec (get : Action σ ε σ) s = (.ok s, s) := rfl

@[simp] theorem exec_set (t s : σ) : exec (set t : Action σ ε PUnit) s = (.ok ⟨⟩, t) := rfl

@[simp] theorem exec_modify (f : σ → σ) (s : σ) :
    exec (modify f : Action σ ε PUnit) s = (.ok ⟨⟩, f s) := rfl

@[simp] theorem exec_liftM (x : Except ε α) (s : σ) :
    exec (liftM x : Action σ ε α) s = (x, s) := rfl

/-- A sequence stops where its first part stops, and goes on from the state that part reached. -/
theorem exec_bind (x : Action σ ε α) (f : α → Action σ ε β) (s : σ) :
    exec (x >>= f) s =
      match exec x s with
      | (.ok a, t) => exec (f a) t
      | (.error e, t) => (.error e, t) := by
  change (ExceptT.bindCont (fun a => f a) (x.run.run s).1 : StateM σ _) (x.run.run s).2 = _
  unfold exec
  rcases x.run.run s with ⟨r, t⟩
  cases r <;> rfl

/-- Runs an action on one part of a larger state. -/
def focus (part : τ → σ) (update : τ → σ → τ) (x : Action σ ε α) : Action τ ε α := fun t =>
  let r := x.exec (part t)
  (r.1, update t r.2)

@[simp] theorem exec_focus (part : τ → σ) (update : τ → σ → τ) (x : Action σ ε α) (t : τ) :
    exec (focus part update x) t = ((x.exec (part t)).1, update t (x.exec (part t)).2) := rfl

def mapCause (f : ε → δ) (x : Action σ ε α) : Action σ δ α := fun s =>
  let r := x.exec s
  (r.1.mapError f, r.2)

@[simp] theorem exec_mapCause (f : ε → δ) (x : Action σ ε α) (s : σ) :
    exec (mapCause f x) s = ((x.exec s).1.mapError f, (x.exec s).2) := rfl

end Action

/-- A sum, difference or product left the range of its words. -/
inductive Overflow where
  | overflow
deriving Repr, DecidableEq

abbrev Checked := Except Overflow

namespace Checked
variable {α : Type}

/-- The answer of a computation that stays within the range of its words. -/
def get : (x : Checked α) → (∃ a, x = .ok a) → α
  | .ok a, _ => a
  | .error _, h => absurd h nofun

@[simp] theorem ok_get (x : Checked α) (h : ∃ a, x = .ok a) : .ok (x.get h) = x := by
  obtain ⟨a, rfl⟩ := h
  rfl

theorem get_of_eq {x : Checked α} {a : α} (hx : x = .ok a) (h : ∃ a, x = .ok a) : x.get h = a := by
  subst hx
  rfl

/-- What is shown along with the existence of an answer holds of the answer that is taken. -/
theorem of_get {x : Checked α} {P : α → Prop} (h : ∃ a, x = .ok a ∧ P a) :
    P (x.get (h.imp fun _ h => h.1)) := by
  obtain ⟨a, hx, ha⟩ := h
  rwa [get_of_eq hx]

end Checked

/-- Why an operation with range-checked arithmetic gave no answer. -/
inductive Failure (ε : Type) where
  | overflow
  | refused (cause : ε)
deriving Repr, DecidableEq

namespace Failure
variable {ε δ α : Type}

def mapCause (f : ε → δ) : Failure ε → Failure δ
  | .overflow => .overflow
  | .refused cause => .refused (f cause)

/-- Counts an overflow among the failures of a larger operation. -/
def ofChecked (x : Checked α) : Except (Failure ε) α := x.mapError fun _ => .overflow

/-- Counts a domain cause among the failures of a larger operation. -/
def ofExcept (x : Except ε α) : Except (Failure ε) α := x.mapError .refused

end Failure

/-- Takes a range-checked value in an action that may overflow. -/
def Action.checked {σ ε α : Type} (x : Checked α) : Action σ (Failure ε) α := fun s =>
  (Failure.ofChecked x, s)

@[simp] theorem Action.exec_checked {σ ε α : Type} (x : Checked α) (s : σ) :
    Action.exec (Action.checked x : Action σ (Failure ε) α) s = (Failure.ofChecked x, s) := rfl

/-- Runs an action that does not overflow inside one that may. -/
def Action.refusing {σ ε α : Type} (x : Action σ ε α) : Action σ (Failure ε) α :=
  x.mapCause .refused

end Pcode
