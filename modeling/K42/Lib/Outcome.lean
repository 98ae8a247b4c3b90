import Mathlib.Logic.Basic

/-!
# Postconditions of fallible code

`Sat E P r` says of the outcome `r` that it is a value with `P`, or one of the errors
`E`. Sequences are taken apart by `Sat.bind`.
-/

universe u v w

namespace Outcome

variable {ε : Type u} {α : Type v} {β : Type v} {E : ε → Prop} {P Q : α → Prop} {R : β → Prop}

/-- The outcome is a value that satisfies `P`, or an error in `E`. -/
def Sat (E : ε → Prop) (P : α → Prop) : Except ε α → Prop
  | .ok a => P a
  | .error e => E e

variable {r : Except ε α}

theorem Sat.mono (h : Sat E P r) (hPQ : ∀ a, P a → Q a) : Sat E Q r := by
  cases r with
  | ok a => exact hPQ a h
  | error e => exact h

/-- **Sequence rule.** -/
theorem Sat.bind {f : α → Except ε β} (h : Sat E P r)
    (hf : ∀ a, P a → Sat E R (f a)) : Sat E R (r >>= f) := by
  cases r with
  | ok a => exact hf a h
  | error e => exact h

@[simp] theorem ok_bind (a : α) (f : α → Except ε β) : (Except.ok a >>= f) = f a := rfl

theorem Sat.of_ok {a : α} (hr : r = .ok a) (ha : P a) : Sat E P r := by
  rw [hr]
  exact ha

/-- What is known of the value of an outcome. -/
theorem Sat.elim {a : α} (h : Sat E P r) (hr : r = .ok a) : P a := by
  rw [hr] at h
  exact h

theorem Sat.ite {c : Prop} [Decidable c] {s : Except ε α} (hr : c → Sat E P r)
    (hs : ¬ c → Sat E P s) : Sat E P (if c then r else s) := by
  split
  · exact hr ‹c›
  · exact hs ‹¬ c›

/-- The error of an outcome, which can be compared also where values cannot. -/
def failure : Except ε α → Option ε
  | .ok _ => none
  | .error e => some e

theorem eq_error_of_failure {e : ε} (h : failure r = some e) : r = .error e := by
  cases r with
  | ok a => cases h
  | error e' => exact congrArg Except.error (Option.some.inj h)

end Outcome
