import Mathlib.Data.List.Perm.Basic
import Mathlib.Data.List.Nodup

/-!
# Things kept in places

Every thing is in just one of a family of places, and there once. A transfer between two
places that neither adds nor loses a thing keeps it so, whatever the order in which the
things are kept.
-/

universe u v

namespace Places

variable {ι : Type u} {α : Type v} {contents contents' : ι → List α} {i j : ι} {a : α}

/-- Each thing is in one place, once. -/
structure Conserved (contents : ι → List α) : Prop where
  nodup : ∀ i, (contents i).Nodup
  somewhere : ∀ a, ∃ i, a ∈ contents i
  once : ∀ {a i j}, a ∈ contents i → a ∈ contents j → i = j

theorem Conserved.exactlyOne (h : Conserved contents) (a : α) : ∃! i, a ∈ contents i := by
  obtain ⟨i, hi⟩ := h.somewhere a
  exact ⟨i, hi, fun j hj => h.once hj hi⟩

theorem Conserved.nodup_append (h : Conserved contents) (hne : i ≠ j) :
    (contents i ++ contents j).Nodup := by
  refine List.nodup_append.2 ⟨h.nodup i, h.nodup j, ?_⟩
  rintro a ha b hb rfl
  exact hne (h.once ha hb)

/-- **Transfer.** Two places together keep what they had. -/
theorem Conserved.transfer (h : Conserved contents) (hne : i ≠ j)
    (hperm : (contents' i ++ contents' j).Perm (contents i ++ contents j))
    (hother : ∀ k, k ≠ i → k ≠ j → contents' k = contents k) : Conserved contents' := by
  obtain ⟨hi, hj, hdisj⟩ := List.nodup_append.1 (hperm.nodup_iff.2 (h.nodup_append hne))
  have hboth : ∀ {a}, a ∈ contents' i ∨ a ∈ contents' j ↔ a ∈ contents i ∨ a ∈ contents j := by
    intro a
    rw [← List.mem_append, ← List.mem_append]
    exact hperm.mem_iff
  -- what is in another place is in neither of the two
  have hapart : ∀ {a k}, k ≠ i → k ≠ j → a ∈ contents k → ¬ (a ∈ contents' i ∨ a ∈ contents' j) := by
    intro a k hki hkj hk hmem
    rcases hboth.1 hmem with hai | haj
    · exact hki (h.once hk hai)
    · exact hkj (h.once hk haj)
  have hcases : ∀ {a k}, a ∈ contents' k →
      k = i ∨ k = j ∨ k ≠ i ∧ k ≠ j ∧ a ∈ contents k := by
    intro a k hk
    by_cases hki : k = i
    · exact .inl hki
    · by_cases hkj : k = j
      · exact .inr (.inl hkj)
      · exact .inr (.inr ⟨hki, hkj, hother k hki hkj ▸ hk⟩)
  constructor
  · intro k
    by_cases hki : k = i
    · rw [hki]
      exact hi
    · by_cases hkj : k = j
      · rw [hkj]
        exact hj
      · rw [hother k hki hkj]
        exact h.nodup k
  · intro a
    obtain ⟨k, hk⟩ := h.somewhere a
    by_cases hkij : k = i ∨ k = j
    · have hmem : a ∈ contents i ∨ a ∈ contents j := by
        rcases hkij with rfl | rfl
        · exact .inl hk
        · exact .inr hk
      rcases hboth.2 hmem with hai | haj
      · exact ⟨i, hai⟩
      · exact ⟨j, haj⟩
    · obtain ⟨hki, hkj⟩ := not_or.1 hkij
      exact ⟨k, (hother k hki hkj).symm ▸ hk⟩
  · intro a k k' hk hk'
    rcases hcases hk with rfl | rfl | ⟨hki, hkj, hold⟩ <;>
      rcases hcases hk' with rfl | rfl | ⟨hki', hkj', hold'⟩
    · rfl
    · exact absurd rfl (hdisj a hk a hk')
    · exact absurd (.inl hk) (hapart hki' hkj' hold')
    · exact absurd rfl (hdisj a hk' a hk)
    · rfl
    · exact absurd (.inr hk) (hapart hki' hkj' hold')
    · exact absurd (.inl hk') (hapart hki hkj hold)
    · exact absurd (.inr hk') (hapart hki hkj hold)
    · exact h.once hold hold'

end Places
