import Mathlib.Data.List.Pairwise
import Mathlib.Data.List.Perm.Basic
import Mathlib.Tactic.Linarith

/-!
# Carving up an interval

Elements of an arbitrary type occupy half-open intervals of natural numbers, some
of which may be empty. A list of them is *carved* when one element is replaced by
disjoint pieces of it, whatever the order in which the list is kept (others may be
dropped). Carving keeps the list disjoint and inside every bound that it was inside
of.
-/

namespace Carving

variable {α : Type*} {start stop : α → ℕ}

/-- No number is in both intervals. -/
def Apart (start stop : α → ℕ) (a b : α) : Prop :=
  ∀ x, ¬ ((start a ≤ x ∧ x < stop a) ∧ start b ≤ x ∧ x < stop b)

variable {a b : α} {l l' : List α}

theorem Apart.symm (h : Apart start stop a b) : Apart start stop b a :=
  fun x hx => h x ⟨hx.2, hx.1⟩

theorem apart_of_le (h : stop a ≤ start b) : Apart start stop a b := by
  rintro x ⟨⟨_, h1⟩, h2, _⟩
  omega

/-- The ends of `p` are in order and between those of `c`. -/
def Within (start stop : α → ℕ) (p c : α) : Prop :=
  start c ≤ start p ∧ start p ≤ stop p ∧ stop p ≤ stop c

theorem Within.trans {c : α} (h : Within start stop a b) (h' : Within start stop b c) :
    Within start stop a c := by
  obtain ⟨h1, h2, h3⟩ := h
  obtain ⟨h4, h5, h6⟩ := h'
  exact ⟨h4.trans h1, h2, h3.trans h6⟩

/-- What is apart from the whole is apart from a piece. -/
theorem Apart.of_within {p c : α} (h : Apart start stop a c) (hp : Within start stop p c) :
    Apart start stop a p := by
  rintro x ⟨hx, h1, h2⟩
  exact h x ⟨hx, hp.1.trans h1, lt_of_lt_of_le h2 hp.2.2⟩

/-- `l'` is `l` with one element replaced by disjoint pieces of it, and perhaps
others dropped. -/
def Carved (start stop : α → ℕ) (l l' : List α) : Prop :=
  ∃ c rest pieces, (c :: rest).Subperm l ∧ l'.Perm (pieces ++ rest) ∧
    pieces.Pairwise (Apart start stop) ∧ ∀ p ∈ pieces, Within start stop p c

/-- **Carving keeps a list disjoint.** -/
theorem Carved.pairwise (h : Carved start stop l l')
    (hl : l.Pairwise (Apart start stop)) : l'.Pairwise (Apart start stop) := by
  obtain ⟨c, rest, pieces, ⟨kept, hperm, hsub⟩, hperm', hpieces, hin⟩ := h
  obtain ⟨hc, hrest⟩ := List.pairwise_cons.mp
    ((hperm.pairwise_iff Apart.symm).mp (hl.sublist hsub))
  refine (hperm'.pairwise_iff Apart.symm).mpr (List.pairwise_append.mpr ⟨hpieces, hrest, ?_⟩)
  intro p hp b hb
  exact ((hc b hb).symm.of_within (hin p hp)).symm

/-- **Carving stays inside a bound.** -/
theorem Carved.within (h : Carved start stop l l')
    (hl : ∀ a ∈ l, Within start stop a b) : ∀ a ∈ l', Within start stop a b := by
  obtain ⟨c, rest, pieces, hsub, hperm', -, hin⟩ := h
  intro a ha
  rcases List.mem_append.mp (hperm'.mem_iff.mp ha) with hp | hr
  · exact (hin a hp).trans (hl c (hsub.subset List.mem_cons_self))
  · exact hl a (hsub.subset (List.mem_cons_of_mem c hr))

/-- Beside what is left alone. -/
theorem Carved.append_left (h : Carved start stop l l') (k : List α) :
    Carved start stop (k ++ l) (k ++ l') := by
  obtain ⟨c, rest, pieces, hsub, hperm, hpieces, hin⟩ := h
  refine ⟨c, k ++ rest, pieces, ?_, ?_, hpieces, hin⟩
  · have hmove : (c :: (k ++ rest)).Perm (k ++ c :: rest) := List.perm_middle.symm
    exact hmove.subperm.trans ((List.subperm_append_left k).mpr hsub)
  · have hmove : (k ++ (pieces ++ rest)).Perm (pieces ++ (k ++ rest)) := by
      rw [← List.append_assoc, ← List.append_assoc]
      exact List.perm_append_comm.append_right rest
    exact (hperm.append_left k).trans hmove

theorem Carved.perm {l'' : List α} (h : Carved start stop l l') (hp : l''.Perm l') :
    Carved start stop l l'' := by
  obtain ⟨c, rest, pieces, hsub, hperm, hpieces, hin⟩ := h
  exact ⟨c, rest, pieces, hsub, hp.trans hperm, hpieces, hin⟩

/-- Pieces below a point and pieces above it. -/
theorem pairwise_append_of_le (x : ℕ) (hl : l.Pairwise (Apart start stop))
    (hl' : l'.Pairwise (Apart start stop)) (hbelow : ∀ a ∈ l, stop a ≤ x)
    (habove : ∀ b ∈ l', x ≤ start b) : (l ++ l').Pairwise (Apart start stop) :=
  List.pairwise_append.mpr
    ⟨hl, hl', fun a ha b hb => apart_of_le ((hbelow a ha).trans (habove b hb))⟩

end Carving
