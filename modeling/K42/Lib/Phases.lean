import K42.Lib.Threads

/-!
# Threads that pass a point together

Every thread passes some point again and again, and none passes it for the time `r + 2`
before all have passed it `r + 1` times. The threads ahead in round `r` are those that have
passed `r + 1` times; the round ends when the last thread passes.
-/

universe u

namespace Phases

open Threads

variable {τ : Type u} [Fintype τ] {r : ℕ} {passed : τ → ℕ} {t : τ}

/-- The number of threads that have passed in round `r`. -/
def ahead (r : ℕ) (passed : τ → ℕ) : ℕ := census (fun k => k = r + 1) passed

/-- In round `r` every thread has passed `r` or `r + 1` times, some thread `r` times. -/
structure Round (r : ℕ) (passed : τ → ℕ) : Prop where
  near : ∀ t, passed t = r ∨ passed t = r + 1
  behind : ahead r passed < Fintype.card τ

theorem ahead_eq_zero (h : ∀ t, passed t = r) : ahead r passed = 0 := by
  refine census_eq_zero.2 fun t ht => ?_
  rw [h t] at ht
  exact absurd ht (Nat.ne_of_lt (Nat.lt_succ_self r))

/-- A round in which nobody has passed yet. -/
theorem Round.start [Nonempty τ] (h : ∀ t, passed t = r) : Round r passed where
  near t := .inl (h t)
  behind := by
    rw [ahead_eq_zero h]
    exact Fintype.card_pos

theorem ahead_eq_card (h : ahead r passed = Fintype.card τ) (t : τ) : passed t = r + 1 := by
  have huniv := Finset.card_eq_iff_eq_univ _ |>.1 h
  have hmem : t ∈ those (fun k => k = r + 1) passed := by
    rw [huniv]
    exact Finset.mem_univ t
  exact (mem_those (P := fun k => k = r + 1)).1 hmem

/-- The thread that passes is the last one, or another one stays behind. -/
theorem Round.pass_cases (h : Round r passed) :
    ahead r passed + 1 < Fintype.card τ ∨ ahead r passed + 1 = Fintype.card τ :=
  Nat.lt_or_eq_of_le h.behind

variable [DecidableEq τ]

theorem ahead_update (ht : passed t = r) :
    ahead r (Function.update passed t (r + 1)) = ahead r passed + 1 := by
  refine census_enter ?_ rfl
  rw [ht]
  exact Nat.ne_of_lt (Nat.lt_succ_self r)

/-- A thread passes and another one is still behind. -/
theorem Round.pass (h : Round r passed) (ht : passed t = r)
    (hlt : ahead r passed + 1 < Fintype.card τ) : Round r (Function.update passed t (r + 1)) where
  near := forall_update (P := fun k => k = r ∨ k = r + 1) h.near (.inr rfl)
  behind := by
    rw [ahead_update ht]
    exact hlt

/-- **The last thread passes.** Then all have passed equally often. -/
theorem passed_last (ht : passed t = r) (hlast : ahead r passed + 1 = Fintype.card τ) (u : τ) :
    Function.update passed t (r + 1) u = r + 1 := by
  refine ahead_eq_card ?_ u
  rw [ahead_update ht]
  exact hlast

/-- When the last thread passes all others are ahead. -/
theorem ahead_last (ht : passed t = r) (hlast : ahead r passed + 1 = Fintype.card τ) {u : τ}
    (hu : u ≠ t) : passed u = r + 1 := by
  have h := passed_last ht hlast u
  rwa [Function.update_of_ne hu] at h

end Phases
