import Mathlib.Order.Interval.Finset.Nat
import Mathlib.Data.Set.Card
import Mathlib.Tactic.Linarith
import Mathlib.Order.CompletePartialOrder

/-!
# Spaced lists of intervals

Elements of an arbitrary type occupy half-open intervals `[start, stop)` of
natural numbers. A list is *spaced by `gap`* when its intervals are nonempty,
ascend, and leave at least `gap` between neighbours: gap `0` is disjointness,
gap `1` says that no two intervals touch. The space a list occupies is a set of
numbers; the lemmas say how insertion, removal, trimming and joining change the
list and that set.
-/

namespace Interval

variable {α : Type*} {start stop : α → ℕ} {gap : ℕ}

/-- Nonempty intervals, ascending, at least `gap` apart. -/
structure Spaced (start stop : α → ℕ) (gap : ℕ) (l : List α) : Prop where
  pos : ∀ a ∈ l, start a < stop a
  apart : l.Pairwise (fun a b => stop a + gap ≤ start b)

/-- The numbers that some interval of the list contains. -/
def cover (start stop : α → ℕ) (l : List α) : Set ℕ :=
  {x | ∃ a ∈ l, start a ≤ x ∧ x < stop a}

variable {l : List α} {a : α}

theorem mem_cover {x : ℕ} :
    x ∈ cover start stop l ↔ ∃ a ∈ l, start a ≤ x ∧ x < stop a := Iff.rfl

@[simp] theorem cover_nil : cover start stop [] = ∅ := by
  ext x
  simp [cover]

@[simp] theorem cover_cons (a : α) (l : List α) :
    cover start stop (a :: l) = Set.Ico (start a) (stop a) ∪ cover start stop l := by
  ext x
  simp [cover, or_and_right, exists_or]

@[simp] theorem cover_append (l l' : List α) :
    cover start stop (l ++ l') = cover start stop l ∪ cover start stop l' := by
  ext x
  simp [cover, or_and_right, exists_or]

namespace Spaced

theorem nil : Spaced start stop gap [] := ⟨by simp, .nil⟩

variable {l pre post : List α} {a : α}

theorem sublist {l' : List α} (h : Spaced start stop gap l) (hsub : l'.Sublist l) :
    Spaced start stop gap l' :=
  ⟨fun a ha => h.pos a (hsub.subset ha), h.apart.sublist hsub⟩

theorem append_iff {l' : List α} : Spaced start stop gap (l ++ l') ↔
    Spaced start stop gap l ∧ Spaced start stop gap l' ∧
      ∀ a ∈ l, ∀ b ∈ l', stop a + gap ≤ start b := by
  constructor
  · intro h
    obtain ⟨h1, h2, h3⟩ := List.pairwise_append.mp h.apart
    exact ⟨⟨fun a ha => h.pos a (List.mem_append_left _ ha), h1⟩,
      ⟨fun a ha => h.pos a (List.mem_append_right _ ha), h2⟩, h3⟩
  · rintro ⟨h1, h2, h3⟩
    refine ⟨?_, List.pairwise_append.mpr ⟨h1.apart, h2.apart, h3⟩⟩
    intro a ha
    rcases List.mem_append.mp ha with ha | ha
    · exact h1.pos a ha
    · exact h2.pos a ha

theorem cons_iff : Spaced start stop gap (a :: l) ↔
    start a < stop a ∧ Spaced start stop gap l ∧
      ∀ b ∈ l, stop a + gap ≤ start b := by
  constructor
  · intro h
    obtain ⟨h1, h2⟩ := List.pairwise_cons.mp h.apart
    exact ⟨h.pos a (by simp), ⟨fun b hb => h.pos b (by simp [hb]), h2⟩, h1⟩
  · rintro ⟨h1, h2, h3⟩
    refine ⟨?_, List.pairwise_cons.mpr ⟨h3, h2.apart⟩⟩
    intro b hb
    rcases List.mem_cons.mp hb with rfl | hb
    · exact h1
    · exact h2.pos b hb

/-- **Insertion** between what lies below and what lies above. -/
theorem insert {new : α} (h : Spaced start stop gap (pre ++ post)) (hnew : start new < stop new)
    (hpre : ∀ a ∈ pre, stop a + gap ≤ start new) (hpost : ∀ b ∈ post, stop new + gap ≤ start b) :
    Spaced start stop gap (pre ++ new :: post) := by
  obtain ⟨h1, h2, h3⟩ := append_iff.mp h
  refine append_iff.mpr ⟨h1, cons_iff.mpr ⟨hnew, h2, hpost⟩, ?_⟩
  intro a ha b hb
  rcases List.mem_cons.mp hb with rfl | hb
  · exact hpre a ha
  · exact h3 a ha b hb

/-- **Replacement** of one element by one that keeps clear of the neighbours. -/
theorem replace {old new : α}
    (h : Spaced start stop gap (pre ++ old :: post)) (hnew : start new < stop new)
    (hpre : ∀ a ∈ pre, stop a + gap ≤ start new) (hpost : ∀ b ∈ post, stop new + gap ≤ start b) :
    Spaced start stop gap (pre ++ new :: post) :=
  insert (h.sublist (List.Sublist.append_left (List.sublist_cons_self old post) pre))
    hnew hpre hpost

theorem below (h : Spaced start stop gap (pre ++ a :: post)) :
    ∀ b ∈ pre, stop b + gap ≤ start a :=
  fun b hb => (append_iff.mp h).2.2 b hb a (by simp)

theorem above (h : Spaced start stop gap (pre ++ a :: post)) :
    ∀ b ∈ post, stop a + gap ≤ start b :=
  (cons_iff.mp (append_iff.mp h).2.1).2.2

/-- Two elements that contain one number are the same element. -/
theorem eq_of_mem (h : Spaced start stop gap l) {b : α}
    (ha : a ∈ l) (hb : b ∈ l) {x : ℕ} (hax : start a ≤ x ∧ x < stop a)
    (hbx : start b ≤ x ∧ x < stop b) : a = b := by
  induction l with
  | nil => simp at ha
  | cons c l ih =>
    obtain ⟨_, hl, hc⟩ := cons_iff.mp h
    rcases List.mem_cons.mp ha with rfl | ha' <;>
      rcases List.mem_cons.mp hb with rfl | hb'
    · rfl
    · have := hc b hb'
      omega
    · have := hc a ha'
      omega
    · exact ih hl ha' hb'

/-- A search by containment finds the element that contains the number. -/
theorem find?_eq (h : Spaced start stop gap l) (ha : a ∈ l)
    {x : ℕ} (hx : start a ≤ x ∧ x < stop a) :
    l.find? (fun b => decide (start b ≤ x ∧ x < stop b)) = some a := by
  cases hf : l.find? (fun b => decide (start b ≤ x ∧ x < stop b)) with
  | none =>
    have := List.find?_eq_none.mp hf a ha
    simp [hx] at this
  | some b =>
    have hb := List.find?_some hf
    simp only [decide_eq_true_eq] at hb
    rw [h.eq_of_mem (List.mem_of_find?_eq_some hf) ha hb hx]

end Spaced

/-! ## Keeping clear of a list -/

/-- `a` keeps at least `gap` from every interval of the list. -/
def Clear (start stop : α → ℕ) (gap : ℕ) (a : α) (l : List α) : Prop :=
  ∀ b ∈ l, stop b + gap ≤ start a ∨ stop a + gap ≤ start b

theorem Clear.narrow {a' : α} (h : Clear start stop gap a l)
    (hs : start a ≤ start a') (he : stop a' ≤ stop a) : Clear start stop gap a' l := by
  intro b hb
  rcases h b hb with h | h
  · exact .inl (h.trans hs)
  · exact .inr (by omega)

theorem Clear.subset {l' : List α} (h : Clear start stop gap a l) (hl : l' ⊆ l) :
    Clear start stop gap a l' :=
  fun b hb => h b (hl hb)

/-- An element of a spaced list is clear of the others. -/
theorem Spaced.clear {pre post : List α}
    (h : Spaced start stop gap (pre ++ a :: post)) : Clear start stop gap a (pre ++ post) := by
  intro b hb
  rcases List.mem_append.mp hb with hb | hb
  · exact .inl (h.below b hb)
  · exact .inr (h.above b hb)

/-- What keeps clear of a spaced list has a place in it. -/
theorem Spaced.exists_place {n : α} (hn : start n < stop n) : ∀ {l : List α},
    Spaced start stop gap l → Clear start stop gap n l → ∃ pre post, l = pre ++ post ∧
      (∀ a ∈ pre, stop a + gap ≤ start n) ∧ ∀ b ∈ post, stop n + gap ≤ start b
  | [], _, _ => ⟨[], [], rfl, by simp, by simp⟩
  | a :: l, h, hc => by
    obtain ⟨hpos, hl, hab⟩ := Spaced.cons_iff.mp h
    rcases hc a (by simp) with ha | ha
    · obtain ⟨pre, post, rfl, hpre, hpost⟩ :=
        Spaced.exists_place hn hl (hc.subset (List.subset_cons_self a l))
      refine ⟨a :: pre, post, rfl, ?_, hpost⟩
      intro b hb
      rcases List.mem_cons.mp hb with rfl | hb
      · exact ha
      · exact hpre b hb
    · refine ⟨[], a :: l, rfl, by simp, ?_⟩
      intro b hb
      rcases List.mem_cons.mp hb with rfl | hb
      · exact ha
      · have := hab b hb
        omega

/-! ## Space and order -/

theorem cover_perm {l' : List α} (h : l.Perm l') :
    cover start stop l = cover start stop l' := by
  ext x
  simp only [mem_cover, h.mem_iff]

/-- Clear of a list means that no number is shared with it. -/
theorem Clear.disjoint (h : Clear start stop gap a l) :
    Disjoint (Set.Ico (start a) (stop a)) (cover start stop l) := by
  rw [Set.disjoint_left]
  rintro x ⟨h1, h2⟩ ⟨b, hb, h3, h4⟩
  rcases h b hb with h | h <;> omega

/-- Keeping clear of a list of nonempty intervals is keeping clear of its space. -/
theorem clear_iff (ha : start a < stop a)
    (hl : ∀ b ∈ l, start b < stop b) : Clear start stop gap a l ↔
    ∀ x ∈ cover start stop l, x + gap < start a ∨ stop a + gap ≤ x := by
  constructor
  · rintro h x ⟨b, hb, h1, h2⟩
    rcases h b hb with h | h <;> omega
  · intro h b hb
    have hpos := hl b hb
    rcases h (start b) ⟨b, hb, le_rfl, hpos⟩ with hlo | hlo
    · rcases h (stop b - 1) ⟨b, hb, by omega, by omega⟩ with hhi | hhi
      · exact .inl (by omega)
      · -- `b` would reach over `a`
        rcases h (start a) ⟨b, hb, by omega, by omega⟩ with h | h <;> omega
    · exact .inr hlo

/-- The space of a spaced list is as large as its intervals together. -/
theorem Spaced.ncard_cover : ∀ {l : List α}, Spaced start stop gap l → (cover start stop l).Finite ∧
      (cover start stop l).ncard = (l.map (fun a => stop a - start a)).sum
  | [], _ => by simp
  | a :: l, h => by
    obtain ⟨hfin, hcard⟩ := Spaced.ncard_cover (Spaced.cons_iff.mp h).2.1
    have h' : Spaced start stop gap ([] ++ a :: l) := h
    have hdisj := h'.clear.disjoint
    have hico : (Set.Ico (start a) (stop a)).Finite := Set.finite_Ico _ _
    rw [List.nil_append] at hdisj
    rw [cover_cons]
    refine ⟨hico.union hfin, ?_⟩
    rw [Set.ncard_union_eq hdisj hico hfin, hcard, List.map_cons, List.sum_cons,
      ← Finset.coe_Ico, Set.ncard_coe_finset, Nat.card_Ico]

theorem find?_eq_none {x : ℕ} :
    l.find? (fun b => decide (start b ≤ x ∧ x < stop b)) = none ↔
      x ∉ cover start stop l := by
  simp [List.find?_eq_none, cover]

end Interval
