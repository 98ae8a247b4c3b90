import Mathlib.Data.List.AList

/-!
# Counting the values of an association list

How many keys are bound to a value with a given property, and what an insertion or an
erasure does to that number.
-/

universe u v

namespace Assoc

variable {κ : Type u} {β : Type v} [DecidableEq κ] (p : β → Bool)

/-- The number of keys bound to a value with `p`. -/
def count (s : AList fun _ : κ => β) : ℕ := s.entries.countP fun e => p e.2

/-- What the value of one key adds to the count. -/
def weight : Option β → ℕ
  | none => 0
  | some b => if p b then 1 else 0

@[simp] theorem weight_none : weight p none = 0 := rfl

theorem countP_kerase (a : κ) : ∀ {l : List (Sigma fun _ : κ => β)}, l.NodupKeys →
    (l.kerase a).countP (fun e => p e.2) + weight p (l.dlookup a) =
      l.countP fun e => p e.2 := by
  intro l
  induction l with
  | nil => intro _; simp
  | cons e l ih =>
    intro hnd
    obtain ⟨k, b⟩ := e
    rw [List.nodupKeys_cons] at hnd
    by_cases hk : a = k
    · subst hk
      have he : (⟨a, b⟩ :: l : List (Sigma fun _ : κ => β)).kerase a = l :=
        List.kerase_cons_eq rfl
      have hl : (⟨a, b⟩ :: l : List (Sigma fun _ : κ => β)).dlookup a = some b :=
        List.dlookup_cons_eq l a b
      rw [he, hl, List.countP_cons]
      rfl
    · have he : (⟨k, b⟩ :: l : List (Sigma fun _ : κ => β)).kerase a = ⟨k, b⟩ :: l.kerase a :=
        List.kerase_cons_ne hk
      have hl : (⟨k, b⟩ :: l : List (Sigma fun _ : κ => β)).dlookup a = l.dlookup a :=
        List.dlookup_cons_ne l ⟨k, b⟩ hk
      rw [he, hl, List.countP_cons, List.countP_cons, ← ih hnd.2]
      exact Nat.add_right_comm _ _ _

theorem count_erase (s : AList fun _ : κ => β) (a : κ) :
    count p (s.erase a) + weight p (s.lookup a) = count p s :=
  countP_kerase p a s.nodupKeys

/-- Binding a key anew replaces what its old value added. -/
theorem count_insert (s : AList fun _ : κ => β) (a : κ) (b : β) :
    count p (s.insert a b) + weight p (s.lookup a) = count p s + weight p (some b) := by
  have h := count_erase p s a
  have hi : count p (s.insert a b) = count p (s.erase a) + weight p (some b) := by
    rw [count, AList.entries_insert, List.countP_cons]
    rfl
  rw [hi, ← h]
  exact Nat.add_right_comm _ _ _

/-- A value that adds as much as the old one leaves the count alone. -/
theorem count_insert_of_weight_eq {s : AList fun _ : κ => β} {a : κ} {b : β}
    (h : weight p (s.lookup a) = weight p (some b)) : count p (s.insert a b) = count p s := by
  have hi := count_insert p s a b
  rw [h] at hi
  exact Nat.add_right_cancel hi

end Assoc
