import Mathlib.Control.Monad.Basic

/-!
# Computations that can fail

How a sequence of steps ends, in terms of how each step ends.
-/

namespace ElmCodec

theorem bind_ok {x : Except ε α} {f : α → Except ε β} :
    x >>= f = .ok b ↔ ∃ a, x = .ok a ∧ f a = .ok b := by
  cases x <;> simp [bind, Except.bind]

theorem bind_error {x : Except ε α} {f : α → Except ε β} :
    x >>= f = .error e ↔ x = .error e ∨ ∃ a, x = .ok a ∧ f a = .error e := by
  cases x <;> simp [bind, Except.bind]

theorem run_bind {σ ε : Type} (first : ExceptT ε (StateM σ) α)
    (next : α → ExceptT ε (StateM σ) β) (state : σ) :
    (first >>= next).run.run state =
      match first.run.run state with
      | (.ok a, state) => (next a).run.run state
      | (.error fault, state) => (.error fault, state) := by
  change (first.run >>= ExceptT.bindCont next).run state = _
  rw [StateT.run_bind]
  cases first.run.run state with
  | mk result state => cases result <;> rfl

end ElmCodec
