import Mathlib.Data.List.Nodup

/-!
# Queues whose links are completed late

A thread that joins such a queue first becomes its tail and then stores the pointer to itself
in the element before. In between the link is pending, and the queue may grow behind it. The
items of the queue are `α`, the elements that carry the pointers are `β`; one of them, the
base, is in front of the first item. `linking a` is the element in which `a` is yet to store
its pointer.
-/

open Function (update_of_ne update_self update)

open List (mem_cons mem_cons_self mem_cons_of_mem)

universe u v

namespace LateLinked

variable {α : Type u} {β : Type v} {el : α → β} {next next' : β → Option α}
variable {linking linking' : α → Option β} {a x : α} {b c : β} {l pre post : List α}

/-- From `b` on follow the items of `l`, by links that are complete or pending. -/
def Chain (el : α → β) (next : β → Option α) (linking : α → Option β) : β → List α → Prop
  | b, [] => next b = none
  | b, a :: l =>
    (next b = some a ∧ linking a = none ∨ next b = none ∧ linking a = some b) ∧
      Chain el next linking (el a) l

/-- The last element, which is the base when there is no item. -/
def lastNode (el : α → β) : β → List α → β
  | b, [] => b
  | _, a :: l => lastNode el (el a) l

/-- Following complete links from `b` one comes to `a`. -/
inductive Reaches (el : α → β) (next : β → Option α) : β → α → Prop
  | head {b : β} {a : α} : next b = some a → Reaches el next b a
  | tail {b : β} {a x : α} : next b = some x → Reaches el next (el x) a → Reaches el next b a

theorem lastNode_append : lastNode el b (l ++ [a]) = el a := by
  induction l generalizing b with
  | nil => rfl
  | cons x l ih => exact ih

theorem lastNode_cases : lastNode el b l = b ∧ l = [] ∨ ∃ a ∈ l, lastNode el b l = el a := by
  induction l generalizing b with
  | nil => exact .inl ⟨rfl, rfl⟩
  | cons x l ih =>
    right
    rcases ih (b := el x) with ⟨heq, -⟩ | ⟨a, ha, heq⟩
    · exact ⟨x, mem_cons_self, heq⟩
    · exact ⟨a, mem_cons_of_mem _ ha, heq⟩

section

variable (h : Chain el next linking b l)

include h

/-- Only the elements of the chain and the threads on it matter. -/
theorem Chain.congr (hb : next' b = next b)
    (hnext : ∀ a ∈ l, next' (el a) = next (el a)) (hlinking : ∀ a ∈ l, linking' a = linking a) :
    Chain el next' linking' b l := by
  induction l generalizing b with
  | nil => exact hb.trans h
  | cons x l ih =>
    obtain ⟨hx, hl⟩ := h
    refine ⟨?_, ih hl (hnext x mem_cons_self) ?_ ?_⟩
    · rw [hb, hlinking x mem_cons_self]
      exact hx
    · exact fun a ha => hnext a (mem_cons_of_mem _ ha)
    · exact fun a ha => hlinking a (mem_cons_of_mem _ ha)

/-- A pending link goes out of the base or of an item. -/
theorem Chain.pred (ha : a ∈ l) (hc : linking a = some c) :
    c = b ∨ ∃ u ∈ l, c = el u := by
  induction l generalizing b with
  | nil => cases ha
  | cons x l ih =>
    obtain ⟨hx, hl⟩ := h
    rcases mem_cons.1 ha with rfl | ha
    · rcases hx with ⟨-, hnone⟩ | ⟨-, hsome⟩
      · rw [hnone] at hc
        cases hc
      · rw [hsome] at hc
        exact .inl (Option.some.inj hc).symm
    · right
      rcases ih hl ha with rfl | ⟨u, hu, heq⟩
      · exact ⟨x, mem_cons_self, rfl⟩
      · exact ⟨u, mem_cons_of_mem _ hu, heq⟩

/-- A link that is pending has not been stored. -/
theorem Chain.pending (ha : a ∈ l) (hc : linking a = some c) :
    next c = none := by
  induction l generalizing b with
  | nil => cases ha
  | cons x l ih =>
    obtain ⟨hx, hl⟩ := h
    rcases mem_cons.1 ha with rfl | ha
    · rcases hx with ⟨-, hnone⟩ | ⟨hnext, hsome⟩
      · rw [hnone] at hc
        cases hc
      · rw [hsome] at hc
        cases hc
        exact hnext
    · exact ih hl ha

/-- What the base points at is the first item. -/
theorem Chain.front (hb : next b = some a) :
    ∃ l', l = a :: l' ∧ linking a = none ∧ Chain el next linking (el a) l' := by
  cases l with
  | nil =>
    rw [show next b = none from h] at hb
    cases hb
  | cons x l =>
    obtain ⟨hx, hl⟩ := h
    rcases hx with ⟨hnext, hnone⟩ | ⟨hnext, -⟩
    · rw [hnext] at hb
      cases hb
      exact ⟨l, rfl, hnone, hl⟩
    · rw [hnext] at hb
      cases hb

/-- The first item is moved behind another base. -/
theorem Chain.rebase (hb : next b = some a)
    (hc : next' c = some a) (hnext : ∀ a ∈ l, next' (el a) = next (el a)) :
    Chain el next' linking c l := by
  obtain ⟨l', rfl, hnone, hl⟩ := h.front hb
  refine ⟨.inl ⟨hc, hnone⟩, hl.congr (hnext a mem_cons_self) ?_ fun _ _ => rfl⟩
  exact fun x hx => hnext x (mem_cons_of_mem _ hx)

end

/-- Behind complete links the item can be reached. -/
theorem Chain.reaches (h : Chain el next linking b (pre ++ a :: post))
    (hpre : ∀ u ∈ pre, linking u = none) (ha : linking a = none) : Reaches el next b a := by
  induction pre generalizing b with
  | nil =>
    rcases h.1 with ⟨hnext, -⟩ | ⟨-, hsome⟩
    · exact .head hnext
    · rw [ha] at hsome
      cases hsome
  | cons x pre ih =>
    obtain ⟨hx, hl⟩ := h
    rcases hx with ⟨hnext, -⟩ | ⟨-, hsome⟩
    · exact .tail hnext (ih hl fun u hu => hpre u (mem_cons_of_mem _ hu))
    · rw [hpre x mem_cons_self] at hsome
      cases hsome

variable [DecidableEq α]

/-- **A new tail**, whose link is pending. -/
theorem Chain.push (h : Chain el next linking b l) (hnew : next (el a) = none) (ha : a ∉ l) :
    Chain el next (update linking a (some (lastNode el b l))) b (l ++ [a]) := by
  induction l generalizing b with
  | nil => exact ⟨.inr ⟨h, update_self a _ linking⟩, hnew⟩
  | cons x l ih =>
    obtain ⟨hx, hl⟩ := h
    rw [mem_cons, not_or] at ha
    refine ⟨?_, ih hl ha.2⟩
    rw [update_of_ne (Ne.symm ha.1)]
    exact hx

variable [DecidableEq β]

/-- **A pending link is completed.** -/
theorem Chain.link (h : Chain el next linking b l) (ha : a ∈ l) (hc : linking a = some c)
    (hinj : Function.Injective el) (hnodup : l.Nodup) (hfresh : ∀ u ∈ l, el u ≠ b) :
    Chain el (update next c (some a)) (update linking a none) b l := by
  induction l generalizing b with
  | nil => cases ha
  | cons x l ih =>
    obtain ⟨hx, hl⟩ := h
    rw [List.nodup_cons] at hnodup
    rcases mem_cons.1 ha with rfl | ha
    · have hcb : c = b := by
        rcases hx with ⟨-, hnone⟩ | ⟨-, hsome⟩
        · rw [hnone] at hc
          cases hc
        · rw [hsome] at hc
          exact (Option.some.inj hc).symm
      subst hcb
      refine ⟨.inl ⟨update_self c _ next, update_self a _ linking⟩, ?_⟩
      refine hl.congr ?_ ?_ ?_
      · exact update_of_ne (hfresh a mem_cons_self) _ next
      · exact fun u hu => update_of_ne (hfresh u (mem_cons_of_mem _ hu)) _ next
      · intro u hu
        refine update_of_ne ?_ _ linking
        rintro rfl
        exact hnodup.1 hu
    · have hfresh' : ∀ u ∈ l, el u ≠ el x := by
        intro u hu heq
        exact hnodup.1 (hinj heq ▸ hu)
      have hcb : c ≠ b := by
        rcases hl.pred ha hc with rfl | ⟨u, hu, rfl⟩
        · exact hfresh x mem_cons_self
        · exact hfresh u (mem_cons_of_mem _ hu)
      have hax : x ≠ a := by
        rintro rfl
        exact hnodup.1 ha
      refine ⟨?_, ih hl ha hnodup.2 hfresh'⟩
      rw [update_of_ne (Ne.symm hcb), update_of_ne hax]
      exact hx

end LateLinked
