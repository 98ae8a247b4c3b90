import Mathlib.Data.List.Nodup

/-!
# Intrusive queues

Nodes carry their own successor pointer, and a queue is a pointer to its first
node and a pointer to its last. `Path next p l` says that following `next`
from `p` visits exactly the nodes of `l` and then ends, so a linked list has no
cycle. A node is appended behind the last and removed in front; in a list without
a last pointer a walk finds the place, and `Path.splice` relinks it.
-/

universe u

namespace Linked

variable {α : Type u} {next : α → Option α} {p : Option α} {a b : α} {l m : List α}

/-- Following `next` from `p` visits the nodes `l` in order and then ends. -/
def Path (next : α → Option α) : Option α → List α → Prop
  | p, [] => p = none
  | p, a :: l => p = some a ∧ Path next (next a) l

/-- A node that is its own successor is on no path. -/
theorem Path.not_self (hnext : next a = some a) : ¬ Path next (some a) l := by
  induction l with
  | nil => exact nofun
  | cons b l ih =>
    rintro ⟨hb, hl⟩
    cases hb
    rw [hnext] at hl
    exact ih hl

/-- Only the pointers of the nodes on the path matter. -/
theorem Path.congr {next' : α → Option α} (h : Path next p l) (heq : ∀ a ∈ l, next' a = next a) :
    Path next' p l := by
  induction l generalizing p with
  | nil => exact h
  | cons a l ih =>
    refine ⟨h.1, ?_⟩
    rw [heq a List.mem_cons_self]
    exact ih h.2 fun b hb => heq b (List.mem_cons_of_mem _ hb)

/-- The nodes met in at most `n` steps from `p`. -/
def follow (next : α → Option α) : ℕ → Option α → List α
  | _, none => []
  | 0, some _ => []
  | n + 1, some a => a :: follow next n (next a)

theorem Path.unique (h : Path next p l) (h' : Path next p m) : l = m := by
  induction l generalizing p m with
  | nil =>
    cases m with
    | nil => rfl
    | cons b m =>
      obtain rfl : p = none := h
      cases h'.1
  | cons a l ih =>
    obtain ⟨rfl, hl⟩ := h
    cases m with
    | nil => cases h'
    | cons b m =>
      obtain ⟨hab, hm⟩ := h'
      cases hab
      rw [ih hl hm]

/-- The part of a path from one of its nodes on. -/
theorem Path.drop (h : Path next p (l ++ a :: m)) : Path next (next a) m := by
  induction l generalizing p with
  | nil => exact h.2
  | cons b l ih => exact ih h.2

theorem Path.nodup (h : Path next p l) : l.Nodup := by
  induction l generalizing p with
  | nil => exact List.nodup_nil
  | cons a l ih =>
    refine List.nodup_cons.mpr ⟨?_, ih h.2⟩
    intro hmem
    -- what follows the second visit is all that follows the first
    obtain ⟨l₁, l₂, rfl⟩ := List.append_of_mem hmem
    have hlen := congrArg List.length (Path.unique h.2 h.2.drop)
    simp only [List.length_append, List.length_cons] at hlen
    omega

theorem Path.follow_eq (h : Path next p l) {n : ℕ} (hn : l.length ≤ n) : follow next n p = l := by
  induction l generalizing p n with
  | nil =>
    obtain rfl : p = none := h
    cases n <;> rfl
  | cons a l ih =>
    obtain ⟨rfl, hl⟩ := h
    cases n with
    | zero => simp at hn
    | succ n =>
      rw [follow, ih hl (Nat.le_of_succ_le_succ hn)]

theorem Path.head_eq (h : Path next p l) : p = l.head? := by
  cases l with
  | nil => exact h
  | cons a l => exact h.1

/-- `while (cur && !stop(cur)) { prev = cur; cur = cur->next; }` for at most `n` turns.
The result is `(prev, cur)`. -/
def walk (next : α → Option α) (stop : α → Bool) :
    ℕ → Option α → Option α → Option (Option α × Option α)
  | _, prev, none => some (prev, none)
  | 0, prev, some a => if stop a then some (prev, some a) else none
  | n + 1, prev, some a =>
    if stop a then some (prev, some a) else walk next stop n (some a) (next a)

/-- A walk along a path ends in front of the first node it is looking for. -/
theorem Path.walk_eq (h : Path next p l) (stop : α → Bool) {n : ℕ} (hn : l.length ≤ n)
    (prev : Option α) :
    ∃ pre post, l = pre ++ post ∧ (∀ a ∈ pre, stop a = false) ∧
      (∀ a ∈ post.head?, stop a = true) ∧
      walk next stop n prev p = some (pre.getLast?.or prev, post.head?) := by
  induction l generalizing p n prev with
  | nil =>
    obtain rfl : p = none := h
    refine ⟨[], [], rfl, by simp, by simp, ?_⟩
    cases n <;> rfl
  | cons a l ih =>
    obtain ⟨rfl, hl⟩ := h
    obtain ⟨n, rfl⟩ : ∃ m, n = m + 1 := ⟨n - 1, by simp at hn; omega⟩
    cases hstop : stop a with
    | true =>
      refine ⟨[], a :: l, rfl, by simp, by simpa using hstop, ?_⟩
      rw [walk, if_pos hstop]
      rfl
    | false =>
      obtain ⟨pre, post, rfl, hpre, hpost, hwalk⟩ :=
        ih hl (Nat.le_of_succ_le_succ hn) (some a)
      refine ⟨a :: pre, post, rfl, ?_, hpost, ?_⟩
      · intro b hb
        rcases List.mem_cons.mp hb with rfl | hb
        · exact hstop
        · exact hpre b hb
      · rw [walk, if_neg (by simp [hstop]), hwalk, List.getLast?_cons]
        cases pre.getLast? with
        | none => rfl
        | some b => rfl

/-! ## Parts of a path -/

/-- Following `next` from `p` visits the nodes `l` in order and then is at `q`. -/
def Leads (next : α → Option α) : Option α → List α → Option α → Prop
  | p, [], q => p = q
  | p, a :: l, q => p = some a ∧ Leads next (next a) l q

variable {q : Option α}

theorem Leads.head_eq (h : Leads next p l q) (hl : l ≠ []) : p = l.head? := by
  cases l with
  | nil => exact absurd rfl hl
  | cons a l => exact h.1

theorem Leads.congr {next' : α → Option α} (h : Leads next p l q)
    (heq : ∀ a ∈ l, next' a = next a) : Leads next' p l q := by
  induction l generalizing p with
  | nil => exact h
  | cons a l ih =>
    refine ⟨h.1, ?_⟩
    rw [heq a List.mem_cons_self]
    exact ih h.2 fun b hb => heq b (List.mem_cons_of_mem _ hb)

variable [DecidableEq α]

instance Path.decidable (next : α → Option α) :
    (p : Option α) → (l : List α) → Decidable (Path next p l)
  | p, [] => inferInstanceAs (Decidable (p = none))
  | p, a :: l =>
    have := Path.decidable next (next a) l
    inferInstanceAs (Decidable (p = some a ∧ Path next (next a) l))

/-- A pointer of a node off the path does not matter. -/
theorem Path.update (h : Path next p l) (ha : a ∉ l) (v : Option α) :
    Path (Function.update next a v) p l := by
  induction l generalizing p with
  | nil => exact h
  | cons b l ih =>
    obtain ⟨hb, hl⟩ : a ≠ b ∧ a ∉ l := by simpa using ha
    refine ⟨h.1, ?_⟩
    rw [Function.update_of_ne (Ne.symm hb)]
    exact ih h.2 hl

/-- Giving a node of a path another successor. -/
theorem Path.splice {q : Option α} {m' : List α} (h : Path next p (l ++ a :: m))
    (h' : Path next q m') (ha : a ∉ m') : Path (Function.update next a q) p (l ++ a :: m') := by
  have hnodup := h.nodup
  induction l generalizing p with
  | nil =>
    refine ⟨h.1, ?_⟩
    rw [Function.update_self]
    exact h'.update ha q
  | cons c l ih =>
    have hca : c ≠ a := by
      rintro rfl
      simp at hnodup
    refine ⟨h.1, ?_⟩
    rw [Function.update_of_ne hca]
    exact ih h.2 (List.nodup_cons.mp hnodup).2

/-- Linking a node behind the last node of a path. -/
theorem Path.snoc (h : Path next p (l ++ [a])) (hb : b ∉ l ++ [a]) (hnext : next b = none) :
    Path (Function.update next a (some b)) p (l ++ [a, b]) := by
  refine h.splice ⟨rfl, hnext⟩ ?_
  rintro hab
  rw [List.mem_singleton] at hab
  simp [hab] at hb

/-- Taking out the first node of a path. -/
theorem Path.remove_head (h : Path next p (a :: m)) :
    Path (Function.update next a none) (next a) m :=
  h.2.update (List.nodup_cons.mp h.nodup).1 none

/-- Taking out a node behind another one. -/
theorem Path.remove_after (h : Path next p (l ++ b :: a :: m)) :
    Path (Function.update (Function.update next b (next a)) a none) p (l ++ b :: m) := by
  have hnodup := h.nodup
  have hdrop : Path next (next b) (a :: m) := h.drop
  have hb : b ∉ m := by
    intro hmem
    have hbm := (List.nodup_append.mp hnodup).2.1
    exact (List.nodup_cons.mp hbm).1 (List.mem_cons_of_mem a hmem)
  have ha : a ∉ l ++ b :: m := by
    have hperm : (l ++ b :: a :: m).Perm (a :: (l ++ b :: m)) :=
      ((List.Perm.swap a b m).append_left l).trans List.perm_middle
    exact (List.nodup_cons.mp (hperm.nodup_iff.mp hnodup)).1
  exact (h.splice hdrop.2 hb).update ha none

/-! ## The queue -/

/-- `first` and `last` are the ends of the linked list `l`. -/
structure Queue (next : α → Option α) (first last : Option α) (l : List α) : Prop where
  path : Path next first l
  last_eq : last = l.getLast?

variable {first last : Option α}

omit [DecidableEq α] in
theorem Queue.empty : Queue next none none [] := ⟨rfl, rfl⟩

omit [DecidableEq α] in
/-- The first node of an empty queue. -/
theorem Queue.add_first (h : Queue next first none l) (hnext : next a = none) :
    l = [] ∧ Queue next (some a) (some a) [a] := by
  have hl : l = [] := List.getLast?_eq_none_iff.mp h.last_eq.symm
  exact ⟨hl, ⟨rfl, hnext⟩, rfl⟩

/-- A further node behind the last. -/
theorem Queue.add_last (h : Queue next first (some b) l) (ha : a ∉ l) (hnext : next a = none) :
    Queue (Function.update next b (some a)) first (some a) (l ++ [a]) := by
  obtain ⟨m, rfl⟩ := List.getLast?_eq_some_iff.mp h.last_eq.symm
  refine ⟨?_, by simp⟩
  rw [List.append_assoc]
  exact h.path.snoc ha hnext

omit [DecidableEq α] in
theorem Queue.head (h : Queue next (some a) last l) : ∃ m, l = a :: m := by
  cases l with
  | nil => cases h.path
  | cons b m =>
    obtain rfl := Option.some.inj h.path.1
    exact ⟨m, rfl⟩

/-- Taking out the first node. -/
theorem Queue.remove (h : Queue next (some a) last (a :: l)) :
    Queue (Function.update next a none) (next a) (if next a = none then none else last) l := by
  have hnot : a ∉ l := (List.nodup_cons.mp h.path.nodup).1
  refine ⟨h.path.2.update hnot none, ?_⟩
  cases l with
  | nil =>
    have hend : next a = none := h.path.2
    rw [if_pos hend]
    rfl
  | cons b l =>
    have hb : next a = some b := h.path.2.1
    rw [if_neg (by rw [hb]; simp), h.last_eq, List.getLast?_cons_cons]

end Linked
