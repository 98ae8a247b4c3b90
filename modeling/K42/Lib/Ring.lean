import Mathlib.Data.Nat.ModEq

/-!
# Circular buffers

`n` slots are used in turn. The producer's index `pidx` is the slot of the next entry;
the consumer's index `cidx` is the slot of the last entry taken, so that one slot always
stays free. Writing an entry and advancing an index are separate steps.
-/

universe u

namespace Ring

variable {α : Type u} {n : ℕ} {slots : ℕ → α} {cidx pidx : ℕ} {q : List α} {x : α}

/-- The slots after `cidx` and before `pidx` hold `q`, in order. -/
structure Holds (n : ℕ) (slots : ℕ → α) (cidx pidx : ℕ) (q : List α) : Prop where
  last : cidx < n
  next : pidx = (cidx + 1 + q.length) % n
  room : q.length < n
  get : ∀ i x, q[i]? = some x → slots ((cidx + 1 + i) % n) = x

/-- Slots that can still be written. -/
def avail (pidx cidx n : ℕ) : ℕ := if pidx ≤ cidx then cidx - pidx else n - pidx + cidx

/-- An index that wraps at most once. -/
theorem mod_of_lt_two_mul {a : ℕ} (h : a < 2 * n) : a % n = if a < n then a else a - n := by
  split
  · rename_i hlt
    exact Nat.mod_eq_of_lt hlt
  · rename_i hge
    rw [Nat.mod_eq_sub_mod (not_lt.1 hge)]
    exact Nat.mod_eq_of_lt (by omega)

theorem Holds.avail (h : Holds n slots cidx pidx q) :
    Ring.avail pidx cidx n = n - 1 - q.length := by
  have hlast := h.last
  have hroom := h.room
  have hnext := h.next
  rw [mod_of_lt_two_mul (by omega)] at hnext
  unfold Ring.avail
  split at hnext
  · rw [if_neg (by omega)]
    omega
  · rw [if_pos (by omega)]
    omega

theorem Holds.pidx_lt (h : Holds n slots cidx pidx q) : pidx < n := by
  rw [h.next]
  exact Nat.mod_lt _ (lt_of_le_of_lt (Nat.zero_le _) h.last)

theorem Holds.empty (h : cidx < n) : Holds n slots cidx ((cidx + 1) % n) [] where
  last := h
  next := rfl
  room := lt_of_le_of_lt (Nat.zero_le _) h
  get := nofun

/-- The next slot is not one of those in use. -/
theorem Holds.write (h : Holds n slots cidx pidx q) (x : α) :
    Holds n (Function.update slots pidx x) cidx pidx q := by
  refine ⟨h.last, h.next, h.room, ?_⟩
  intro i y hy
  have hi : i < q.length := (List.getElem?_eq_some_iff.1 hy).1
  have hlast := h.last
  have hroom := h.room
  have hnext := h.next
  rw [Function.update_of_ne]
  · exact h.get i y hy
  · rw [hnext, mod_of_lt_two_mul (by omega), mod_of_lt_two_mul (by omega)]
    split
    · split <;> omega
    · split <;> omega

/-- The entry is made visible. -/
theorem Holds.advance (h : Holds n slots cidx pidx q) (hroom : q.length + 1 < n)
    (hx : slots pidx = x) : Holds n slots cidx ((pidx + 1) % n) (q ++ [x]) := by
  refine ⟨h.last, ?_, ?_, ?_⟩
  · rw [h.next, Nat.mod_add_mod, List.length_append, List.length_singleton, Nat.add_assoc]
  · rw [List.length_append, List.length_singleton]
    exact hroom
  · intro i y hy
    rcases Nat.lt_or_ge i q.length with hi | hi
    · rw [List.getElem?_append_left hi] at hy
      exact h.get i y hy
    · have hlen := (List.getElem?_eq_some_iff.1 hy).1
      rw [List.length_append, List.length_singleton] at hlen
      have hi : i = q.length := by omega
      subst i
      rw [List.getElem?_append_right le_rfl, Nat.sub_self] at hy
      cases hy
      rw [← h.next]
      exact hx

/-- The first entry is taken. -/
theorem Holds.pop (h : Holds n slots cidx pidx (x :: q)) :
    slots ((cidx + 1) % n) = x ∧ Holds n slots ((cidx + 1) % n) pidx q := by
  have hroom := h.room
  rw [List.length_cons] at hroom
  refine ⟨h.get 0 x rfl, Nat.mod_lt _ (by omega), ?_, by omega, ?_⟩
  · rw [h.next, List.length_cons, Nat.add_assoc ((cidx + 1) % n), Nat.mod_add_mod]
    congr 1
    omega
  · intro i y hy
    rw [Nat.add_assoc, Nat.mod_add_mod]
    have := h.get (i + 1) y hy
    rw [← this]
    congr 2
    omega

/-- The last entry is taken back. -/
theorem Holds.takeBack {old : ℕ} (h : Holds n slots cidx ((old + 1) % n) (q ++ [x]))
    (hold : old < n) : Holds n slots cidx old q := by
  have hroom := h.room
  have hnext := h.next
  rw [List.length_append, List.length_singleton] at hroom hnext
  refine ⟨h.last, ?_, by omega, ?_⟩
  · have hmod : old + 1 ≡ cidx + 1 + q.length + 1 [MOD n] := hnext
    have := Nat.ModEq.add_right_cancel' 1 hmod
    rw [← this, Nat.mod_eq_of_lt hold]
  · intro i y hy
    apply h.get i y
    rw [List.getElem?_append_left (List.getElem?_eq_some_iff.1 hy).1]
    exact hy

/-- With nothing left, the last entry written is the last one taken. -/
theorem Holds.cidx_eq {old : ℕ} (h : Holds n slots cidx ((old + 1) % n) []) (hold : old < n) :
    cidx = old := by
  have hmod : old + 1 ≡ cidx + 1 [MOD n] := h.next
  have heq : old % n = cidx % n := Nat.ModEq.add_right_cancel' 1 hmod
  rw [Nat.mod_eq_of_lt hold, Nat.mod_eq_of_lt h.last] at heq
  exact heq.symm

end Ring
