import Mathlib.Logic.Function.Basic

/-!
# Functions that change at one point

What holds of all values of a function after a change at one point holds of the new value there,
and of the old ones elsewhere. The rules are read against the goal, so that they are applied like
an induction.
-/

universe u v w

namespace Function

variable {α : Type u} {β : Type v} {γ : Type w} [DecidableEq α] {f : α → β} {g : α → γ} {a : α}
  {b : β} {c : γ}

/-- One case for the point of the change, and one for the others. -/
@[elab_as_elim]
theorem update_cases {motive : α → β → Prop} (self : motive a b)
    (other : ∀ x, x ≠ a → motive x (f x)) (x : α) : motive x (update f a b x) := by
  by_cases hx : x = a
  · subst x
    rw [update_self]
    exact self
  · rw [update_of_ne hx]
    exact other x hx

/-- The same for two functions that change at the same point. -/
@[elab_as_elim]
theorem update_cases₂ {motive : α → β → γ → Prop} (self : motive a b c)
    (other : ∀ x, x ≠ a → motive x (f x) (g x)) (x : α) :
    motive x (update f a b x) (update g a c x) := by
  refine update_cases ?_ (fun x hx => ?_) x
  · rw [update_self]
    exact self
  · rw [update_of_ne hx]
    exact other x hx

end Function
