import Mathlib.Data.Multiset.Range

/-!
# Binary heaps with a hole

An element is put into a binary heap by moving a hole through the array: the element
of the parent, or of the smaller child, goes into the hole until the new element fits.
Whatever way the hole takes, the array with the new element in the hole has the same
contents, and where the hole stops the new element is in order with its neighbours.
-/

open Function (update update_of_ne update_self)

universe u v

namespace HoleHeap

variable {α : Type u} {κ : Type v}

/-- The first `n` elements of the array. -/
def contents (n : ℕ) (a : ℕ → α) : Multiset α := (Multiset.range n).map a

@[simp] theorem contents_succ (n : ℕ) (a : ℕ → α) :
    contents (n + 1) a = a n ::ₘ contents n a := by
  rw [contents, Multiset.range_succ, Multiset.map_cons]
  rfl

variable {n i hole : ℕ} {a : ℕ → α}

theorem mem_contents {x : α} :
    x ∈ contents n a ↔ ∃ i < n, a i = x := by
  simp [contents]

theorem card_contents (n : ℕ) (a : ℕ → α) : (contents n a).card = n := by
  simp [contents]

/-- What is beyond the first `n` elements does not matter. -/
theorem contents_update_of_le (hi : n ≤ i) (a : ℕ → α) (x : α) :
    contents n (update a i x) = contents n a := by
  refine Multiset.map_congr rfl ?_
  intro j hj
  have hj : j < n := Multiset.mem_range.mp hj
  rw [update_of_ne (by omega)]

/-- Replacing an element. -/
theorem contents_update (hi : i < n) (a : ℕ → α) (x : α) :
    a i ::ₘ contents n (update a i x) = x ::ₘ contents n a := by
  induction n with
  | zero => omega
  | succ n ih =>
    rw [contents_succ, contents_succ]
    by_cases hin : i = n
    · subst hin
      rw [update_self, contents_update_of_le le_rfl, Multiset.cons_swap]
    · rw [update_of_ne (Ne.symm hin), Multiset.cons_swap, ih (by omega), Multiset.cons_swap]

/-- The hole moves from `hole` to `i`. -/
theorem contents_move (hhole : hole < n) (hi : i < n) (hne : hole ≠ i) (a : ℕ → α) (x : α) :
    contents n (update (update a hole (a i)) i x) =
      contents n (update a hole x) := by
  have hmoved := contents_update hi (update a hole (a i)) x
  rw [update_of_ne (Ne.symm hne)] at hmoved
  have hold : a hole ::ₘ a i ::ₘ contents n (update (update a hole (a i)) i x) =
      a hole ::ₘ a i ::ₘ contents n (update a hole x) := by
    rw [hmoved, Multiset.cons_swap, contents_update hhole, Multiset.cons_swap (a hole),
      contents_update hhole, Multiset.cons_swap]
  rwa [Multiset.cons_inj_right, Multiset.cons_inj_right] at hold

variable [LT κ] [DecidableLT κ] [LE κ] [DecidableLE κ]

/-- The hole goes towards the root until an element with key `k` fits. -/
def siftUp (key : α → κ) (k : κ) : ℕ → (ℕ → α) → ℕ → (ℕ → α) × ℕ
  | 0, a, hole => (a, hole)
  | fuel + 1, a, hole =>
    if 0 < hole then
      let parent := (hole - 1) / 2
      if key (a parent) ≤ k then (a, hole)
      else siftUp key k fuel (update a hole (a parent)) parent
    else (a, hole)

/-- The hole goes towards the leaves of a heap of `n` elements until an element with
key `k` fits. -/
def siftDown (key : α → κ) (k : κ) (n : ℕ) : ℕ → (ℕ → α) → ℕ → (ℕ → α) × ℕ
  | 0, a, hole => (a, hole)
  | fuel + 1, a, hole =>
    let child := 2 * hole + 1
    let alt := child + 1
    if n ≤ alt then
      if alt = n ∧ key (a child) < k then (update a hole (a child), child)
      else (a, hole)
    else
      let child := if key (a alt) < key (a child) then alt else child
      if k ≤ key (a child) then (a, hole)
      else siftDown key k n fuel (update a hole (a child)) child

omit [LT κ] [DecidableLT κ] in
theorem siftUp_contents (key : α → κ) (k : κ) (x : α) (fuel : ℕ) (hhole : hole < n) :
    (siftUp key k fuel a hole).2 < n ∧
      contents n (update (siftUp key k fuel a hole).1 (siftUp key k fuel a hole).2 x) =
        contents n (update a hole x) := by
  induction fuel generalizing a hole with
  | zero => exact ⟨hhole, rfl⟩
  | succ fuel ih =>
    rw [siftUp]
    by_cases hpos : 0 < hole
    · rw [if_pos hpos]
      have hparent : (hole - 1) / 2 < hole := by omega
      simp only
      split
      · exact ⟨hhole, rfl⟩
      · rw [← contents_move hhole (hparent.trans hhole) (by omega) a x]
        exact ih (hparent.trans hhole)
    · rw [if_neg hpos]
      exact ⟨hhole, rfl⟩

theorem siftDown_contents (key : α → κ) (k : κ) (x : α) (fuel : ℕ) (hhole : hole < n) :
    (siftDown key k n fuel a hole).2 < n ∧
      contents n
          (update (siftDown key k n fuel a hole).1 (siftDown key k n fuel a hole).2 x) =
        contents n (update a hole x) := by
  induction fuel generalizing a hole with
  | zero => exact ⟨hhole, rfl⟩
  | succ fuel ih =>
    rw [siftDown]
    simp only
    by_cases hend : n ≤ 2 * hole + 1 + 1
    · rw [if_pos hend]
      split
      · exact ⟨by simp only; omega, contents_move hhole (by omega) (by omega) a x⟩
      · exact ⟨hhole, rfl⟩
    · rw [if_neg hend]
      generalize hchild : (if key (a (2 * hole + 1 + 1)) < key (a (2 * hole + 1)) then
        2 * hole + 1 + 1 else 2 * hole + 1) = child
      have hlt : hole < child ∧ child < n := by
        rw [← hchild]
        split <;> omega
      split
      · exact ⟨hhole, rfl⟩
      · rw [← contents_move hhole hlt.2 (by omega) a x]
        exact ih hlt.2

/-! ## Order -/

section Order

variable {κ : Type v} [LinearOrder κ] {key : α → κ} {k : κ} {n : ℕ} {a : ℕ → α} {hole : ℕ} {x : α}

/-- No element is before the one of its parent. -/
def Ordered (key : α → κ) (n : ℕ) (a : ℕ → α) : Prop :=
  ∀ i < n, 0 < i → key (a ((i - 1) / 2)) ≤ key (a i)

/-- The elements off the hole are in order, also those above and below it. -/
structure Hole (key : α → κ) (n : ℕ) (a : ℕ → α) (hole : ℕ) : Prop where
  lt : hole < n
  off : ∀ i < n, 0 < i → i ≠ hole → (i - 1) / 2 ≠ hole → key (a ((i - 1) / 2)) ≤ key (a i)
  across : ∀ i < n, 0 < i → (i - 1) / 2 = hole → 0 < hole → key (a ((hole - 1) / 2)) ≤ key (a i)

/-- The parent of the hole is not after `k`. -/
def Above (key : α → κ) (k : κ) (a : ℕ → α) (hole : ℕ) : Prop :=
  0 < hole → key (a ((hole - 1) / 2)) ≤ k

/-- The children of the hole are not before `k`. -/
def Below (key : α → κ) (k : κ) (n : ℕ) (a : ℕ → α) (hole : ℕ) : Prop :=
  ∀ i < n, 0 < i → (i - 1) / 2 = hole → k ≤ key (a i)

theorem Ordered.toHole (h : Ordered key n a) (hlt : hole < n) : Hole key n a hole where
  lt := hlt
  off i hi hpos _ _ := h i hi hpos
  across i hi hpos hparent hhole := by
    have hi' := h i hi hpos
    rw [hparent] at hi'
    exact (h hole hlt hhole).trans hi'

/-- The first element of a heap is a least one. -/
theorem Ordered.head_le (h : Ordered key n a) : ∀ i < n, key (a 0) ≤ key (a i) := by
  intro i
  induction i using Nat.strongRecOn with
  | ind i ih =>
    intro hi
    rcases Nat.eq_zero_or_pos i with rfl | hpos
    · exact le_rfl
    · have hparent : (i - 1) / 2 < i := by omega
      exact (ih _ hparent (hparent.trans hi)).trans (h i hi hpos)

/-- The new element is put where the hole has stopped. -/
theorem Hole.fill (h : Hole key n a hole) (habove : Above key (key x) a hole)
    (hbelow : Below key (key x) n a hole) : Ordered key n (update a hole x) := by
  intro i hi hpos
  by_cases hih : i = hole
  · subst i
    have hparent : (hole - 1) / 2 ≠ hole := by omega
    rw [update_self, update_of_ne hparent]
    exact habove hpos
  · rw [update_of_ne hih]
    by_cases hparent : (i - 1) / 2 = hole
    · rw [hparent, update_self]
      exact hbelow i hi hpos hparent
    · rw [update_of_ne hparent]
      exact h.off i hi hpos hih hparent

/-- The hole moves to its parent. -/
theorem Hole.up (h : Hole key n a hole) (hpos : 0 < hole) :
    Hole key n (update a hole (a ((hole - 1) / 2))) ((hole - 1) / 2) := by
  obtain ⟨hlt, hoff, hacross⟩ := h
  refine ⟨by omega, ?_, ?_⟩
  · intro i hi hipos hne hparent
    have hih : i ≠ hole := by
      rintro rfl
      exact hparent rfl
    rw [update_of_ne hih]
    by_cases hp : (i - 1) / 2 = hole
    · rw [hp, update_self]
      exact hacross i hi hipos hp hpos
    · rw [update_of_ne hp]
      exact hoff i hi hipos hih hp
  · intro i hi hipos hp hppos
    have hgrand : ((hole - 1) / 2 - 1) / 2 ≠ hole := by omega
    have habove := hoff ((hole - 1) / 2) (by omega) hppos (by omega) hgrand
    rw [update_of_ne hgrand]
    by_cases hih : i = hole
    · subst i
      rw [update_self]
      exact habove
    · rw [update_of_ne hih]
      have hsibling := hoff i hi hipos hih (by omega)
      rw [hp] at hsibling
      exact habove.trans hsibling

/-- A new element before the parent is not after what is below the parent then. -/
theorem Hole.below_up (h : Hole key n a hole) (hpos : 0 < hole)
    (hlt : k ≤ key (a ((hole - 1) / 2))) :
    Below key k n (update a hole (a ((hole - 1) / 2))) ((hole - 1) / 2) := by
  intro i hi hipos hp
  by_cases hih : i = hole
  · subst i
    rw [update_self]
    exact hlt
  · rw [update_of_ne hih]
    have hsibling := h.off i hi hipos hih (by omega)
    rw [hp] at hsibling
    exact hlt.trans hsibling

/-- The hole moves to a child that is not after the other one. -/
theorem Hole.down (h : Hole key n a hole) {child : ℕ} (hchild : child < n) (hpos : 0 < child)
    (hparent : (child - 1) / 2 = hole)
    (hleast : ∀ i < n, 0 < i → (i - 1) / 2 = hole → key (a child) ≤ key (a i)) :
    Hole key n (update a hole (a child)) child := by
  obtain ⟨hlt, hoff, hacross⟩ := h
  refine ⟨hchild, ?_, ?_⟩
  · intro i hi hipos hne hp
    by_cases hih : i = hole
    · subst i
      have hup : (hole - 1) / 2 ≠ hole := by omega
      rw [update_self, update_of_ne hup]
      exact hacross child hchild hpos hparent hipos
    · rw [update_of_ne hih]
      by_cases hphole : (i - 1) / 2 = hole
      · rw [hphole, update_self]
        exact hleast i hi hipos hphole
      · rw [update_of_ne hphole]
        exact hoff i hi hipos hih hphole
  · intro i hi hipos hp _
    have hih : i ≠ hole := by omega
    rw [hparent, update_self, update_of_ne hih]
    have hbelow := hoff i hi hipos hih (by omega)
    rw [hp] at hbelow
    exact hbelow

theorem Hole.above_down {child : ℕ} (hparent : (child - 1) / 2 = hole)
    (hle : key (a child) ≤ k) : Above key k (update a hole (a child)) child := by
  intro _
  rw [hparent, update_self]
  exact hle

/-- Where the hole stops on its way to the root its parent is not after the new element; if what
is below the hole was not before it, it still is not. -/
theorem siftUp_hole (fuel : ℕ) (h : Hole key n a hole) (hfuel : hole ≤ fuel) :
    Hole key n (siftUp key k fuel a hole).1 (siftUp key k fuel a hole).2 ∧
      Above key k (siftUp key k fuel a hole).1 (siftUp key k fuel a hole).2 ∧
      (Below key k n a hole →
        Below key k n (siftUp key k fuel a hole).1 (siftUp key k fuel a hole).2) := by
  induction fuel generalizing a hole with
  | zero =>
    have hzero : hole = 0 := Nat.le_zero.1 hfuel
    subst hole
    exact ⟨h, fun hpos => absurd hpos (Nat.lt_irrefl 0), id⟩
  | succ fuel ih =>
    rw [siftUp]
    by_cases hpos : 0 < hole
    · rw [if_pos hpos]
      simp only
      split
      · rename_i hle
        exact ⟨h, fun _ => hle, id⟩
      · rename_i hnot
        have hlt := le_of_not_ge hnot
        obtain ⟨hhole, habove, hbelow⟩ := ih (h.up hpos) (by omega)
        exact ⟨hhole, habove, fun _ => hbelow (h.below_up hpos hlt)⟩
    · rw [if_neg hpos]
      exact ⟨h, fun hpos' => absurd hpos' hpos, id⟩

/-- Where the hole stops on its way to the leaves the new element is in order. -/
theorem siftDown_hole (fuel : ℕ) (h : Hole key n a hole) (habove : Above key k a hole)
    (hfuel : n ≤ hole + fuel) :
    Hole key n (siftDown key k n fuel a hole).1 (siftDown key k n fuel a hole).2 ∧
      Above key k (siftDown key k n fuel a hole).1 (siftDown key k n fuel a hole).2 ∧
      Below key k n (siftDown key k n fuel a hole).1 (siftDown key k n fuel a hole).2 := by
  induction fuel generalizing a hole with
  | zero =>
    have hlt := h.lt
    omega
  | succ fuel ih =>
    have hchildren : ∀ i, 0 < i → (i - 1) / 2 = hole → i = 2 * hole + 1 ∨ i = 2 * hole + 1 + 1 := by
      intro i hpos hp
      omega
    rw [siftDown]
    simp only
    by_cases hend : n ≤ 2 * hole + 1 + 1
    · rw [if_pos hend]
      split
      · rename_i hlast
        obtain ⟨hn, hlt⟩ := hlast
        have hparent : (2 * hole + 1 - 1) / 2 = hole := by omega
        refine ⟨h.down (by omega) (by omega) hparent ?_, Hole.above_down hparent hlt.le, ?_⟩
        · intro i hi hpos hp
          rcases hchildren i hpos hp with rfl | rfl
          · exact le_rfl
          · omega
        · intro i hi hpos hp
          omega
      · rename_i hlast
        refine ⟨h, habove, fun i hi hpos hp => ?_⟩
        rcases hchildren i hpos hp with rfl | rfl
        · by_contra hnot
          exact hlast ⟨by omega, lt_of_not_ge hnot⟩
        · omega
    · rw [if_neg hend]
      generalize hchild : (if key (a (2 * hole + 1 + 1)) < key (a (2 * hole + 1)) then
        2 * hole + 1 + 1 else 2 * hole + 1) = child
      have hrange : 0 < child ∧ child < n ∧ hole < child ∧ (child - 1) / 2 = hole := by
        rw [← hchild]
        split <;> omega
      obtain ⟨hpos, hlt, hdown, hparent⟩ := hrange
      have hleast : ∀ i < n, 0 < i → (i - 1) / 2 = hole → key (a child) ≤ key (a i) := by
        intro i _ hipos hp
        rw [← hchild]
        split
        · rename_i halt
          rcases hchildren i hipos hp with rfl | rfl
          · exact halt.le
          · exact le_rfl
        · rename_i halt
          rcases hchildren i hipos hp with rfl | rfl
          · exact le_rfl
          · exact le_of_not_gt halt
      split
      · rename_i hle
        exact ⟨h, habove, fun i hi hipos hp => hle.trans (hleast i hi hipos hp)⟩
      · rename_i hnot
        exact ih (h.down hlt hpos hparent hleast)
          (Hole.above_down hparent (le_of_not_ge hnot)) (by omega)

end Order

end HoleHeap
