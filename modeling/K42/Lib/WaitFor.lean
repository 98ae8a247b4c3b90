import K42.Lib.Threads
import Mathlib.Order.WellFounded

/-!
# Threads that wait for locks

The place of a thread says which locks it holds and which lock it waits for. Threads are
deadlocked when each of them waits for a lock that one of them holds.
-/

open Function (update)

universe u v w

namespace WaitFor

variable {τ : Type u} {π : Type v} {l m : Type w}

/-- The locks are held by the threads whose places say so. -/
def Held (held : π → List l) (holder : l → Option τ) (pc : τ → π) : Prop :=
  ∀ k, Threads.Guards (fun p => k ∈ held p) (holder k) pc

section Steps

variable [DecidableEq τ] {held : π → List l} {holder : l → Option τ} {pc : τ → π} {t : τ} {p : π}
  {k : l}

theorem Held.stay (h : Held held holder pc) (hp : held p = held (pc t)) :
    Held held holder (update pc t p) := by
  intro j
  apply (h j).stay
  rw [hp]

variable [DecidableEq l]

theorem Held.acquire (h : Held held holder pc) (hfree : holder k = none)
    (hp : held p = k :: held (pc t)) :
    Held held (update holder k (some t)) (update pc t p) := by
  refine Function.update_cases ?_ fun j hj => ?_
  · have hk := h k
    rw [hfree] at hk
    apply hk.acquire
    rw [hp]
    exact List.mem_cons_self
  · apply (h j).stay
    rw [hp, List.mem_cons]
    exact (or_iff_right hj).symm

theorem Held.release (h : Held held holder pc) (hp : held (pc t) = k :: held p)
    (hnot : k ∉ held p) :
    Held held (update holder k none) (update pc t p) := by
  refine Function.update_cases ?_ fun j hj => ?_
  · refine (h k).release ?_ hnot
    rw [hp]
    exact List.mem_cons_self
  · apply (h j).stay
    rw [hp, List.mem_cons]
    exact or_iff_right hj

end Steps

section Deadlock

variable {wants : π → Option l} {holder : l → Option τ} {pc : τ → π} {S : Set τ}

/-- `t` waits for a lock that `u` holds. -/
def Waits (wants : π → Option l) (holder : l → Option τ) (pc : τ → π) (t u : τ) : Prop :=
  ∃ k, wants (pc t) = some k ∧ holder k = some u

/-- Each of the threads waits for a lock that one of them holds. -/
def Deadlocked (wants : π → Option l) (holder : l → Option τ) (pc : τ → π) (S : Set τ) : Prop :=
  S.Nonempty ∧ ∀ t ∈ S, ∃ u ∈ S, Waits wants holder pc t u

/-- If the locks can be ranked such that every thread waits for a lock above those it holds, then
there is no deadlock. -/
theorem not_deadlocked {ρ : Type} [Preorder ρ] [WellFoundedGT ρ] (rank : l → ρ)
    (h : ∀ t j k, holder j = some t → wants (pc t) = some k → rank j < rank k) :
    ¬ Deadlocked wants holder pc S := by
  rintro ⟨⟨t, ht⟩, hwaits⟩
  have hclimb : ∀ r : ρ, ∀ t ∈ S, ∀ k, wants (pc t) = some k → rank k ≠ r := by
    intro r
    induction r using WellFoundedGT.induction with
    | ind r ih =>
      intro t ht k hk hr
      obtain ⟨u, hu, k', hk', hholder⟩ := hwaits t ht
      rw [hk] at hk'
      cases hk'
      obtain ⟨-, -, j, hj, -⟩ := hwaits u hu
      have hlt := h u k j hholder hj
      rw [hr] at hlt
      exact ih (rank j) hlt u hu j hj rfl
  obtain ⟨-, -, k, hk, -⟩ := hwaits t ht
  exact hclimb (rank k) t ht k hk rfl

end Deadlock

end WaitFor
