import Mathlib.Logic.Basic

/-!
# Runs of a guarded step function

A component is a total step function together with the predicate that says
which operations its callers may issue in which state. A run is a finite
sequence of admissible operations, and an invariant that every admissible step
keeps holds after every run.
-/

universe u v

/-- A step function and the operations admissible in each state. -/
structure Machine (σ : Type u) (ο : Type v) where
  step : σ → ο → σ
  adm : σ → ο → Prop

namespace Machine

variable {σ : Type u} {ο : Type v}

/-- `M.Run s₀ ops s`: from `s₀` the operations `ops`, each admissible in the
state it meets, lead to `s`. -/
inductive Run (M : Machine σ ο) (s₀ : σ) : List ο → σ → Prop
  | nil : Run M s₀ [] s₀
  | snoc {ops : List ο} {s : σ} {op : ο} :
      Run M s₀ ops s → M.adm s op → Run M s₀ (ops ++ [op]) (M.step s op)

/-- **Invariant rule.** What holds initially and is kept by every admissible
step holds in every state reached. -/
theorem Run.invariant {M : Machine σ ο} {s₀ : σ} {I : σ → Prop}
    (h₀ : I s₀) (hstep : ∀ s op, I s → M.adm s op → I (M.step s op))
    {ops : List ο} {s : σ} (h : M.Run s₀ ops s) : I s := by
  induction h with
  | nil => exact h₀
  | snoc _ hadm ih => exact hstep _ _ ih hadm

theorem Run.cons {M : Machine σ ο} {s₀ s : σ} {op : ο} {ops : List ο} (hadm : M.adm s₀ op)
    (h : M.Run (M.step s₀ op) ops s) : M.Run s₀ (op :: ops) s := by
  induction h with
  | nil => exact Run.snoc .nil hadm
  | snoc _ ha ih => exact ih.snoc ha

/-- Every operation of the list is admissible in the state it meets. -/
def Admits (M : Machine σ ο) : σ → List ο → Prop
  | _, [] => True
  | s, op :: ops => M.adm s op ∧ Admits M (M.step s op) ops

instance Admits.decidable (M : Machine σ ο) [h : ∀ s op, Decidable (M.adm s op)] :
    ∀ (s : σ) (ops : List ο), Decidable (M.Admits s ops)
  | _, [] => inferInstanceAs (Decidable True)
  | s, op :: ops =>
    have := Admits.decidable M (M.step s op) ops
    inferInstanceAs (Decidable (M.adm s op ∧ M.Admits (M.step s op) ops))

/-- A list of operations whose admissibility has been checked is a run. -/
theorem Admits.run {M : Machine σ ο} : ∀ {ops : List ο} {s : σ}, M.Admits s ops →
    M.Run s ops (ops.foldl M.step s)
  | [], _, _ => .nil
  | _ :: _, _, ⟨hadm, h⟩ => Run.cons hadm h.run

end Machine

/-! ## Numerals of the parties in small systems -/

namespace SmallFin

scoped instance neZeroOne : @NeZero Nat ⟨0⟩ 1 := ⟨by decide⟩
scoped instance neZeroTwo : @NeZero Nat ⟨0⟩ 2 := ⟨by decide⟩
scoped instance neZeroThree : @NeZero Nat ⟨0⟩ 3 := ⟨by decide⟩

end SmallFin
