import K42.Lib.Update
import Mathlib.Data.Fintype.Card

/-!
# Counting threads by where they are

A concurrent program is given by where each of its threads is. A step moves one thread;
the number of threads at places of some kind then changes by at most one.
-/

open Function (update update_cases update_of_ne update_self)

universe u v

namespace Threads

variable {τ : Type u} {π : Type v} [Fintype τ]
variable {P : π → Prop} [DecidablePred P] {pc : τ → π} {t : τ} {p : π}

/-- The threads at a place of the kind `P`. -/
def those (P : π → Prop) [DecidablePred P] (pc : τ → π) : Finset τ :=
  Finset.univ.filter fun t => P (pc t)

def census (P : π → Prop) [DecidablePred P] (pc : τ → π) : ℕ := (those P pc).card

theorem mem_those : t ∈ those P pc ↔ P (pc t) := by
  simp [those]

theorem census_le_card (P : π → Prop) [DecidablePred P] (pc : τ → π) :
    census P pc ≤ Fintype.card τ :=
  Finset.card_le_univ _

theorem census_eq_zero : census P pc = 0 ↔ ∀ t, ¬ P (pc t) := by
  rw [census, Finset.card_eq_zero, Finset.eq_empty_iff_forall_notMem]
  exact forall_congr' fun t => not_congr mem_those

theorem census_pos (h : P (pc t)) : 0 < census P pc :=
  Finset.card_pos.2 ⟨t, mem_those.2 h⟩

/-- Only one thread is at a place of the kind. -/
theorem census_eq_one (ht : P (pc t)) (h : ∀ u, P (pc u) → u = t) : census P pc = 1 := by
  refine Finset.card_eq_one.2 ⟨t, Finset.eq_singleton_iff_unique_mem.2 ⟨mem_those.2 ht, ?_⟩⟩
  exact fun u hu => h u (mem_those.1 hu)

variable [DecidableEq τ]

/-- All threads but one are at a place of the kind. -/
theorem census_all_but (ht : ¬ P (pc t)) (h : ∀ u, u ≠ t → P (pc u)) :
    census P pc = Fintype.card τ - 1 := by
  have heq : those P pc = Finset.univ.erase t := by
    ext u
    rw [mem_those, Finset.mem_erase]
    constructor
    · rintro hu
      refine ⟨?_, Finset.mem_univ u⟩
      rintro rfl
      exact ht hu
    · exact fun hu => h u hu.1
  rw [census, heq, Finset.card_erase_of_mem (Finset.mem_univ t), Finset.card_univ]

omit [Fintype τ] [DecidablePred P] in
/-- What holds of the places of all threads holds after a move to a place it holds of. -/
theorem forall_update (h : ∀ u, P (pc u)) (hp : P p) (u : τ) : P (update pc t p u) :=
  update_cases hp (fun u _ => h u) u

omit [Fintype τ] [DecidablePred P] in
/-- A kind of places that the move does not leave. -/
theorem update_mono (h : P (pc t) → P p) (u : τ) (hu : P (pc u)) :
    P (update pc t p u) :=
  update_cases (motive := fun u p => P (pc u) → P p) h (fun _ _ => id) u hu

omit [Fintype τ] [DecidablePred P] in
/-- The same for all threads but one. -/
theorem forall_ne_update {w : τ} (h : ∀ u, u ≠ w → P (pc u)) (hp : P p) (u : τ) (hu : u ≠ w) :
    P (update pc t p u) :=
  update_cases (fun _ => hp) (fun u _ => h u) u hu

theorem those_update_of (hp : P p) : those P (update pc t p) = insert t (those P pc) := by
  ext s
  rw [Finset.mem_insert, mem_those, mem_those]
  by_cases hs : s = t
  · subst s
    simp [hp]
  · simp [hs]

theorem those_update_of_not (hp : ¬ P p) :
    those P (update pc t p) = (those P pc).erase t := by
  ext s
  rw [Finset.mem_erase, mem_those, mem_those]
  by_cases hs : s = t
  · subst s
    simp [hp]
  · simp [hs]

/-- A thread comes to a place of the kind. -/
theorem census_enter (h : ¬ P (pc t)) (hp : P p) :
    census P (update pc t p) = census P pc + 1 := by
  rw [census, those_update_of hp, Finset.card_insert_of_notMem (mem_those.not.2 h), census]

/-- A thread leaves the places of the kind. -/
theorem census_leave (h : P (pc t)) (hp : ¬ P p) :
    census P (update pc t p) + 1 = census P pc := by
  rw [census, those_update_of_not hp]
  exact Finset.card_erase_add_one (mem_those.2 h)

/-- A thread moves within the kind, or outside of it. -/
theorem census_stay (h : P (pc t) ↔ P p) : census P (update pc t p) = census P pc := by
  by_cases hp : P p
  · rw [census, those_update_of hp, Finset.insert_eq_self.2 (mem_those.2 (h.2 hp)), census]
  · rw [census, those_update_of_not hp, Finset.erase_eq_self.2 (mem_those.not.2 fun ht => hp (h.1 ht)),
      census]

/-! ## Locks -/

section Guards

variable {τ : Type u} {π : Type v} {H : π → Prop} {lock : Option τ} {pc : τ → π} {t w : τ} {p : π}

/-- The lock is held exactly by the thread at a place of the kind `H`. -/
def Guards (H : π → Prop) (lock : Option τ) (pc : τ → π) : Prop := ∀ t, H (pc t) ↔ lock = some t

theorem Guards.eq (h : Guards H lock pc) (ht : H (pc t)) (hw : H (pc w)) : t = w := by
  have heq := (h t).1 ht
  rw [(h w).1 hw] at heq
  exact (Option.some.inj heq).symm

variable [DecidableEq τ]

theorem Guards.stay (h : Guards H lock pc) (hp : H (pc t) ↔ H p) :
    Guards H lock (update pc t p) := by
  intro u
  exact update_cases (hp.symm.trans (h t)) (fun u _ => h u) u

theorem Guards.acquire (h : Guards H none pc) (hp : H p) :
    Guards H (some t) (update pc t p) := by
  intro u
  refine update_cases (iff_of_true hp rfl) (fun u hu => ?_) u
  refine iff_of_false (fun hh => nomatch (h u).1 hh) ?_
  exact fun heq => hu (Option.some.inj heq).symm

theorem Guards.release (h : Guards H lock pc) (ht : H (pc t)) (hp : ¬ H p) :
    Guards H none (update pc t p) := by
  intro u
  exact iff_of_false (update_cases hp (fun u hu hh => hu (h.eq hh ht)) u) nofun

end Guards

end Threads
