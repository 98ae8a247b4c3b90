import Mathlib.Data.List.Nodup

/-!
# Intrusive lists

Every node holds the links of the one list it can be on and a pointer to the head of
that list. The lists of a component are kept together, indexed by their heads: a node
that says it is on a list is on that one, once, and on no other.
-/

open Function (update)

universe u v

/-- The nodes of each list, first to last, and the list each node says it is on. -/
structure AutoLists (ι : Type u) (α : Type v) where
  nodes : ι → List α
  head : α → Option ι

namespace AutoLists

variable {ι : Type u} {α : Type v}

def empty : AutoLists ι α where
  nodes := fun _ => []
  head := fun _ => none

/-- Nodes and lists agree. -/
structure Agree (L : AutoLists ι α) : Prop where
  mem : ∀ i a, a ∈ L.nodes i ↔ L.head a = some i
  nodup : ∀ i, (L.nodes i).Nodup

theorem agree_empty : Agree (empty : AutoLists ι α) where
  mem := by simp [empty]
  nodup := fun _ => List.nodup_nil

variable {L : AutoLists ι α} {a : α} {i : ι}

theorem Agree.notMem (h : Agree L) (ha : L.head a = none) : a ∉ L.nodes i := by
  rw [h.mem, ha]
  exact nofun

variable [DecidableEq ι] [DecidableEq α]

/-- Puts the node right after the head of the list. -/
def append (L : AutoLists ι α) (i : ι) (a : α) : AutoLists ι α where
  nodes := update L.nodes i (a :: L.nodes i)
  head := update L.head a (some i)

/-- Puts the node right before the head of the circular list, at its end. -/
def prepend (L : AutoLists ι α) (i : ι) (a : α) : AutoLists ι α where
  nodes := update L.nodes i (L.nodes i ++ [a])
  head := update L.head a (some i)

def detach (L : AutoLists ι α) (a : α) : AutoLists ι α :=
  match L.head a with
  | none => L
  | some i =>
    { nodes := update L.nodes i ((L.nodes i).erase a)
      head := update L.head a none }

/-- The node after `a` on its list. -/
def next (L : AutoLists ι α) (a : α) : Option α :=
  match L.head a with
  | none => none
  | some i => ((L.nodes i).dropWhile (· ≠ a)).tail.head?

@[simp] theorem head_append (L : AutoLists ι α) (i : ι) (a : α) :
    (L.append i a).head = update L.head a (some i) := rfl

@[simp] theorem head_prepend (L : AutoLists ι α) (i : ι) (a : α) :
    (L.prepend i a).head = update L.head a (some i) := rfl

@[simp] theorem head_detach (L : AutoLists ι α) (a : α) :
    (L.detach a).head = update L.head a none := by
  cases ha : L.head a with
  | none =>
    have hsame : update L.head a none = L.head := by
      rw [← ha, Function.update_eq_self]
    rw [detach, ha, hsame]
  | some i => rw [detach, ha]

/-- Putting a node that is on no list on the list `i`, at any place of it. -/
theorem Agree.insert (h : Agree L) (ha : L.head a = none) {l : List α}
    (hmem : ∀ b, b ∈ l ↔ b = a ∨ b ∈ L.nodes i) (hnodup : l.Nodup) :
    Agree ⟨update L.nodes i l, update L.head a (some i)⟩ := by
  constructor
  · intro j b
    by_cases hj : j = i
    · subst j
      by_cases hb : b = a
      · subst b
        simp [hmem]
      · simp [hmem, hb, h.mem]
    · by_cases hb : b = a
      · subst b
        simp [hj, h.mem, ha, Ne.symm hj]
      · simp [hj, hb, h.mem]
  · intro j
    by_cases hj : j = i
    · subst j
      simpa using hnodup
    · simpa [hj] using h.nodup j

theorem Agree.append (h : Agree L) (ha : L.head a = none) : Agree (L.append i a) :=
  h.insert ha (fun _ => List.mem_cons) (List.nodup_cons.2 ⟨h.notMem ha, h.nodup i⟩)

theorem Agree.prepend (h : Agree L) (ha : L.head a = none) : Agree (L.prepend i a) := by
  apply h.insert ha
  · intro b
    rw [List.mem_append, List.mem_singleton, or_comm]
  · rw [List.nodup_append]
    refine ⟨h.nodup i, List.nodup_singleton a, ?_⟩
    intro b hb c hc
    rw [List.mem_singleton] at hc
    subst c
    rintro rfl
    exact h.notMem ha hb

theorem Agree.detach (h : Agree L) (a : α) : Agree (L.detach a) := by
  unfold AutoLists.detach
  cases ha : L.head a with
  | none => exact h
  | some i =>
    constructor
    · intro j b
      by_cases hb : b = a
      · subst b
        by_cases hj : j = i
        · subst hj
          simp [(h.nodup j).not_mem_erase]
        · simp [hj, h.mem, ha, Ne.symm hj]
      · by_cases hj : j = i
        · subst hj
          simp [hb, (h.nodup j).mem_erase_iff, h.mem]
        · simp [hj, hb, h.mem]
    · intro j
      by_cases hj : j = i
      · subst hj
        simpa using (h.nodup j).erase a
      · simpa [hj] using h.nodup j

/-- Moving a node keeps the lists in order. -/
theorem Agree.move (h : Agree L) (a : α) (i : ι) : Agree ((L.detach a).prepend i a) :=
  (h.detach a).prepend (by simp)

end AutoLists
